import EightBit.Proofs.Line.Checked
import EightBit.Proofs.Line.Derivation
import EightBit.Proofs.Line.Places
import EightBit.Proofs.Token.Partition

namespace EightBit

namespace Text

theorem cut?_of_pos {place : Nat} (some : 0 < place) (c : Char) (cs : List Char) :
    cut? place (c :: cs) = if c.utf8Size ≤ place then
      (cut? (place - c.utf8Size) cs).map fun (front, back) => (c :: front, back) else none := by
  cases place with
  | zero => cases some
  | succ place => rw [cut?]

theorem cut?_append (front back : List Char) :
    cut? (byteLength front) (front ++ back) = some (front, back) := by
  induction front with
  | nil =>
      unfold byteLength cut?
      rfl
  | cons c front ih =>
      have solid := c.utf8Size_pos
      rw [byteLength, List.cons_append, cut?_of_pos (by omega), if_pos (by omega),
        Nat.add_sub_cancel_left, ih]
      rfl

theorem eq_of_cut? {place : Nat} {cs front back : List Char}
    (cut : cut? place cs = some (front, back)) : cs = front ++ back ∧ byteLength front = place := by
  fun_induction cut? place cs generalizing front with
  | case1 cs =>
      cases cut
      exact ⟨rfl, rfl⟩
  | case2 => cases cut
  | case3 place c cs fits ih =>
      obtain ⟨⟨rest, _⟩, later, same⟩ := Option.map_eq_some_iff.mp cut
      cases same
      obtain ⟨whole, length⟩ := ih later
      refine ⟨by rw [whole, List.cons_append], ?_⟩
      rw [byteLength, length]
      omega
  | case4 => cases cut

theorem between?_eq_some_iff {cs part : List Char} {start stop : Nat} :
    between? cs start stop = some part ↔ ∃ front back, cs = front ++ part ++ back ∧
      byteLength front = start ∧ start + byteLength part = stop := by
  constructor
  · intro found
    unfold between? at found
    split at found
    · rename_i ordered
      obtain ⟨⟨front, behind⟩, first, found⟩ := Option.bind_eq_some_iff.mp found
      obtain ⟨⟨_, back⟩, second, found⟩ := Option.bind_eq_some_iff.mp found
      cases found
      obtain ⟨rfl, rfl⟩ := eq_of_cut? first
      obtain ⟨rfl, length⟩ := eq_of_cut? second
      exact ⟨front, back, (List.append_assoc ..).symm, rfl, by omega⟩
    · cases found
  · rintro ⟨front, back, rfl, rfl, rfl⟩
    have second : cut? (byteLength front + byteLength part - byteLength front) (part ++ back) =
        some (part, back) := by
      rw [Nat.add_sub_cancel_left, cut?_append]
    rw [between?, if_pos (Nat.le_add_right _ _), List.append_assoc, cut?_append]
    dsimp only [Option.bind_eq_bind, Option.bind_some]
    rw [second]
    rfl

example : between? ['é', 'a'] 1 3 = none := by decide

theorem paired_cons {c : Char} (solid : c ≠ '\\') (cs : List Char) :
    paired (c :: cs) = paired cs := by
  rw [paired]
  · exact fun same _ => solid same
  · exact fun _ _ same _ => solid same

end Text

namespace Token

variable {text : List Char} {token : Token}

theorem exists_scan_of_mem_tokensFrom {start : Nat} {cs : List Char}
    (member : token ∈ tokensFrom start cs) : ∃ c behind, token.kind = (scan c behind).1 ∧
      token.text = c :: behind.take (scan c behind).2 := by
  fun_induction tokensFrom start cs with
  | case1 => cases member
  | case2 start c cs kind n scanned text ih =>
      rcases List.mem_cons.mp member with rfl | later
      · exact ⟨c, cs, by rw [scanned], by rw [scanned]⟩
      · exact ih later

/-- In a closed literal, backslashes take the quotes that do not close it with them. -/
theorem exists_body_of_quoted {quote : Char} {cs : List Char}
    (closed : (quoted quote cs).1 = true) :
    ∃ body, cs.take (quoted quote cs).2 = body ++ [quote] ∧ Text.paired body = true := by
  fun_induction quoted quote cs with
  | case1 => cases closed
  | case2 => cases closed
  | case3 d ds inner n found ih =>
      rw [found] at ih
      obtain ⟨body, taken, pairs⟩ := ih closed
      refine ⟨'\\' :: d :: body, ?_, pairs⟩
      rw [List.take_succ_cons, List.take_succ_cons, taken]
      rfl
  | case4 cs _ _ => exact ⟨[], rfl, rfl⟩
  | case5 => cases closed
  | case6 c cs alone pair other plain inner n found ih =>
      have solid : c ≠ '\\' := by
        rintro rfl
        cases cs with
        | nil => exact alone rfl rfl
        | cons d ds => exact pair d ds rfl rfl
      rw [found] at ih
      obtain ⟨body, taken, pairs⟩ := ih closed
      refine ⟨c :: body, ?_, (Text.paired_cons solid body).trans pairs⟩
      rw [List.take_succ_cons, taken]
      rfl

theorem byteLength_of_scan_number {c : Char} {cs : List Char}
    (number : (scan c cs).1 = .hexadecimal ∨ (scan c cs).1 = .binary) :
    Text.byteLength [c] = 1 := by
  have scanned := scans c cs
  generalize scan c cs = taken at scanned number
  cases scanned with
  | hexadecimal first | binary first =>
      subst first
      rfl
  | mark kind alone => rcases number with rfl | rfl <;> cases alone
  | _ => exact number.elim nofun nofun

theorem quoted_of_scan {c : Char} {cs : List Char} {closed : Bool}
    (literal : (scan c cs).1 = .string closed ∨ (scan c cs).1 = .character closed) :
    Text.byteLength [c] = 1 ∧ (quoted c cs).1 = closed ∧ (scan c cs).2 = (quoted c cs).2 := by
  have scanned := scans c cs
  generalize scan c cs = taken at scanned literal ⊢
  cases scanned with
  | string first =>
      have same := literal.elim TokenKind.string.inj nofun
      subst first
      exact ⟨rfl, same, rfl⟩
  | character first =>
      have same := literal.elim nofun TokenKind.character.inj
      subst first
      exact ⟨rfl, same, rfl⟩
  | mark kind alone => rcases literal with rfl | rfl <;> cases alone
  | _ => exact literal.elim nofun nofun

/-- What the reader of a line relies on, for every token that may stand in a line. -/
structure Sound (text : List Char) (token : Token) : Prop where
  stands : token.StandsIn text
  prefixed : token.kind = .hexadecimal ∨ token.kind = .binary →
    ∃ c, token.text = c :: token.text.tail ∧ Text.byteLength [c] = 1
  literal : ∀ closed, token.kind = .string closed ∨ token.kind = .character closed →
    ∃ quote body, token.text = quote :: (body ++ [quote]) ∧ Text.byteLength [quote] = 1 ∧
      Text.paired body = true

theorem sound_of_mem_tokens (member : token ∈ tokens text) (legible : token.Legible) :
    token.Sound text := by
  obtain ⟨c, cs, kind, word⟩ := exists_scan_of_mem_tokensFrom member
  refine ⟨standsIn_of_mem_tokens member, ?_, ?_⟩
  · intro number
    rw [kind] at number
    exact ⟨c, by rw [word, List.tail_cons], byteLength_of_scan_number number⟩
  · intro closed literal
    have ends : closed = true := by
      cases closed with
      | true => rfl
      | false => exact (literal.elim legible.2.1 legible.2.2).elim
    subst ends
    rw [kind] at literal
    obtain ⟨quote, found, length⟩ := quoted_of_scan literal
    obtain ⟨body, taken, pairs⟩ := exists_body_of_quoted found
    exact ⟨c, body, by rw [word, length, taken], quote, pairs⟩

end Token

namespace Line

abbrev Faithful {α β : Type} (R : α → β → Prop) : Checked α → Except LineError β → Prop :=
  Agree (fun refusal error => refusal = .fault error) R

/-- The checked reader has read from one token to another what the other reader has read. -/
structure Follows {α : Type} (tokens : List Token) (start : Nat) (read : α × Nat)
    (reading : Reading α) : Prop where
  value : read.1 = reading.value
  ahead : start < read.2
  last : (tokens[read.2 - 1]?).map Token.stop = some reading.stop
  rest : tokens.drop read.2 = reading.rest

def FollowsTo {α : Type} (tokens : List Token) (read : α × Nat) (reading : α × List Token) :
    Prop :=
  read.1 = reading.1 ∧ tokens.drop read.2 = reading.2

def lineEnd (tokens : List Token) : Nat := tokens.getLast?.elim 0 Token.stop

theorem Faithful.mapError {α : Type} (result : Except LineError α) :
    Faithful Eq (result.mapError Refusal.fault) result := by
  cases result with
  | error error => exact .error rfl
  | ok value => exact .ok rfl

theorem slice_append (front part back : List Char) :
    slice (front ++ part ++ back) (Text.byteLength front)
      (Text.byteLength front + Text.byteLength part) = .ok part := by
  rw [slice, Text.between?_eq_some_iff.mpr ⟨front, back, rfl, rfl, rfl⟩]
  rfl

theorem slice_tail {c : Char} (single : Text.byteLength [c] = 1) (digits : List Char) :
    slice (c :: digits) 1 (Text.byteLength (c :: digits)) = .ok digits := by
  have tail := slice_append [c] digits []
  rwa [← Text.byteLength_append, List.append_nil, single] at tail

theorem meaning_eq {text : List Char} {token : Token} {closed : Bool} (sound : token.Sound text)
    (literal : token.kind = .string closed ∨ token.kind = .character closed) :
    meaning token.text = .ok token.meaning := by
  obtain ⟨quote, body, word, single, pairs⟩ := sound.literal closed literal
  have inner : slice token.text 1 (Text.byteLength token.text - 1) = .ok body := by
    have whole : token.text = [quote] ++ body ++ [quote] := by
      rw [word, List.append_assoc, List.singleton_append]
    have stop : Text.byteLength token.text - 1 = 1 + Text.byteLength body := by
      rw [whole, Text.byteLength_append, Text.byteLength_append, single, Nat.add_sub_cancel]
    have part := slice_append [quote] body [quote]
    rwa [← whole, single, ← stop] at part
  have meant : token.meaning = Text.unescape body := by
    rw [Token.meaning, word, List.tail_cons, List.dropLast_concat]
  rw [meaning, inner, meant]
  exact if_pos pairs

example : meaning ['"', '\\', '"'] = .error (.breach .escape) := by decide

namespace Reader

variable {text : List Char} {tokens rest : List Token} {token : Token} {place : Nat}

theorem endOfLine_of (text : List Char) (tokens : List Token) :
    (of text tokens).endOfLine = ⟨lineEnd tokens, 0⟩ := by
  unfold endOfLine of lineEnd
  rw [List.getLast?_map]
  cases tokens.getLast? <;> rfl

theorem marks_of_drop (text : List Char) (here : tokens.drop place = rest) :
    (of text tokens).marks[place]? = rest.head?.map Token.mark := by
  rw [of, List.getElem?_map, ← here, List.head?_drop]

theorem drop_succ (here : tokens.drop place = token :: rest) : tokens.drop (place + 1) = rest := by
  rw [← List.tail_drop, here, List.tail_cons]

theorem getElem?_of_drop (here : tokens.drop place = token :: rest) :
    tokens[place]? = some token := by
  rw [← List.head?_drop, here, List.head?_cons]

theorem kind?_of_drop (here : tokens.drop place = rest) :
    (of text tokens).kind? place = rest.head?.map Token.kind := by
  rw [kind?, marks_of_drop text here, Option.map_map]
  rfl

theorem word_of (stands : token.StandsIn text) (tokens : List Token) :
    (of text tokens).word token.mark = .ok token.text := by
  obtain ⟨front, back, whole, start⟩ := stands
  have part := slice_append front token.text back
  rwa [start, ← whole] at part

theorem ident_of (stands : token.StandsIn text) (here : tokens.drop place = token :: rest) :
    (of text tokens).ident place = .ok token.ident := by
  rw [ident, mark, marks_of_drop text here]
  change (of text tokens).word token.mark >>= _ = _
  rw [word_of stands]
  rfl

theorem faithful_leaf (sound : token.Sound text) (tokens : List Token) :
    Faithful Eq ((of text tokens).leaf token.mark) token.leaf := by
  have word := word_of sound.stands tokens
  have digits (based : token.kind = .hexadecimal ∨ token.kind = .binary) :
      slice token.text 1 (Text.byteLength token.text) = .ok token.text.tail := by
    obtain ⟨c, whole, single⟩ := sound.prefixed based
    rw [whole, List.tail_cons, slice_tail single]
  have kind : token.mark.kind = token.kind := rfl
  unfold leaf Token.leaf
  rw [kind, word]
  cases same : token.kind with
  | identifier => exact .ok rfl
  | hexadecimal =>
      change Faithful Eq (slice token.text 1 _ >>= _) _
      rw [digits (.inl same)]
      exact .mapError _
  | binary =>
      change Faithful Eq (slice token.text 1 _ >>= _) _
      rw [digits (.inr same)]
      exact .mapError _
  | decimal => exact .mapError _
  | character closed =>
      change Faithful Eq (meaning token.text >>= _) _
      rw [meaning_eq sound (.inr same)]
      dsimp only [bind, Except.bind]
      generalize token.meaning = meant
      rcases meant with - | ⟨c, - | ⟨d, more⟩⟩
      · exact .error rfl
      · exact .ok rfl
      · exact .error rfl
  | _ => exact .error rfl

theorem mem_of_drop (here : tokens.drop place = token :: rest) : token ∈ tokens :=
  List.mem_of_mem_drop (here ▸ List.mem_cons_self)

section Unfolding

variable {reader : Reader} {mark : Mark}

theorem term_of_none (none : reader.marks[place]? = none) :
    reader.term place = fail (.expectedExpression .none) reader.endOfLine := by
  rw [term]
  split
  · rfl
  · rename_i found
    cases none.symm.trans found

theorem term_of_mark (here : reader.marks[place]? = some mark) :
    reader.term place = match mark.unary? with
      | some op => (reader.term (place + 1)).bind fun (inner, next) =>
        .ok (.unary op inner, next)
      | none => (reader.leaf mark).bind fun expr => .ok (expr, place + 1) := by
  rw [term]
  split
  · rename_i none
    cases none.symm.trans here
  · rename_i found
    cases found.symm.trans here
    rfl

theorem operators_of_none (none : reader.marks[place]? = none) (left : Expr) :
    reader.operators left place = .ok (left, place) := by
  rw [operators]
  split
  · rfl
  · rename_i found
    cases none.symm.trans found

theorem operators_of_mark (here : reader.marks[place]? = some mark) (left : Expr) :
    reader.operators left place = match mark.binary? with
      | none => .ok (left, place)
      | some op => (reader.term (place + 1)).bind fun (right, next) =>
        if place < next then reader.operators (.binary op left right) next
        else .error (.breach .stalled) := by
  rw [operators]
  split
  · rename_i none
    cases none.symm.trans here
  · rename_i found
    cases found.symm.trans here
    rfl

theorem operandList_eq (reader : Reader) (first : Bool) (place : Nat) :
    reader.operandList first place = (reader.operand first place).bind fun (operand, next) =>
      if place < next then
        match reader.marks[next]? with
        | none => .ok ([operand], next)
        | some mark =>
          if mark.kind = .comma then
            (reader.operandList false (next + 1)).bind fun (operands, last) =>
              .ok (operand :: operands, last)
          else .ok ([operand], next)
      else .error (.breach .stalled) := by
  rw [operandList]
  refine congrArg _ (funext fun read => ?_)
  obtain ⟨operand, next⟩ := read
  dsimp only
  split
  · split
    · rename_i none
      rw [none]
      rfl
    · rename_i found
      rw [found]
      rfl
  · rfl

end Unfolding

section Tokens

variable (sound : ∀ token ∈ tokens, token.Sound text)

include sound

theorem faithful_term (here : tokens.drop place = rest) :
    Faithful (Follows tokens place) ((of text tokens).term place)
      (readTerm (lineEnd tokens) rest) := by
  have found := marks_of_drop text here
  induction rest generalizing place with
  | nil =>
      rw [term_of_none found, readTerm, endOfLine_of]
      exact .error rfl
  | cons token rest ih =>
      have unary : token.mark.unary? = token.unary? := rfl
      rw [term_of_mark found, readTerm, unary]
      cases token.unary? with
      | some op =>
          have later := drop_succ here
          apply (ih later (marks_of_drop text later)).bind_map
          rintro ⟨inner, next⟩ reading ⟨value, ahead, last, left⟩
          exact .ok ⟨congrArg (Expr.unary op) value, Nat.lt_of_succ_lt ahead, last, left⟩
      | none =>
          apply (faithful_leaf (sound token (mem_of_drop here)) tokens).bind_map
          rintro expr _ rfl
          refine .ok ⟨rfl, Nat.lt_succ_self place, ?_, drop_succ here⟩
          rw [Nat.add_sub_cancel, getElem?_of_drop here]
          rfl

theorem faithful_operators {start : Nat} {expr : Expr} {left : Reading Expr}
    (read : Follows tokens start (expr, place) left) :
    Faithful (Follows tokens start) ((of text tokens).operators expr place)
      (readOperators (lineEnd tokens) left) := by
  -- there are fewer tokens ahead after every turn
  induction length : tokens.length - place using Nat.strongRecOn generalizing place expr left with
  | ind n ih =>
      have here := read.rest
      have found := marks_of_drop text here
      rw [readOperators_eq]
      generalize left.rest = ahead at here found ⊢
      cases ahead with
      | nil =>
          rw [operators_of_none found]
          exact .ok read
      | cons next more =>
          have inside := (List.getElem?_eq_some_iff.mp (getElem?_of_drop here)).1
          have binary : next.mark.binary? = next.binary? := rfl
          rw [operators_of_mark found, binary]
          dsimp only
          cases next.binary? with
          | none => exact .ok read
          | some op =>
              apply (faithful_term sound (drop_succ here)).bind
              rintro ⟨operand, stop⟩ right - ⟨value, ahead, last, behind⟩
              have turn : place < stop := Nat.lt_of_succ_lt ahead
              dsimp only
              rw [if_pos turn]
              refine ih _ (by omega) ⟨?_, read.ahead.trans turn, last, behind⟩ rfl
              exact congrArg₂ (Expr.binary op) read.value value

theorem faithful_expression (here : tokens.drop place = rest) :
    Faithful (Follows tokens place) ((of text tokens).expression place)
      (readExpression (lineEnd tokens) rest) :=
  (faithful_term sound here).bind fun _ _ _ read => faithful_operators sound read

theorem faithful_value (here : tokens.drop place = rest) :
    Faithful (Follows tokens place) ((of text tokens).value place)
      ((readExpression (lineEnd tokens) rest).bind fun inner =>
        .ok ⟨.value inner.value, inner.stop, inner.rest⟩) :=
  (faithful_expression sound here).bind fun _ _ _ read =>
    .ok ⟨congrArg OperandKind.value read.value, read.ahead, read.last, read.rest⟩

theorem faithful_registerOrValue (first : Bool) (here : tokens.drop place = token :: rest) :
    Faithful (Follows tokens place) ((of text tokens).registerOrValue first token.mark place)
      (match indexRegister? first token rest with
        | some register => .ok ⟨.register register, token.stop, rest⟩
        | none => (readExpression (lineEnd tokens) (token :: rest)).bind fun inner =>
          .ok ⟨.value inner.value, inner.stop, inner.rest⟩) := by
  have value := faithful_value sound here
  have word := word_of (sound token (mem_of_drop here)).stands tokens
  have next : (of text tokens).kind? (place + 1) = rest.head?.map Token.kind :=
    kind?_of_drop (drop_succ here)
  have last : (tokens[place + 1 - 1]?).map Token.stop = some token.stop := by
    rw [Nat.add_sub_cancel, getElem?_of_drop here]
    rfl
  unfold registerOrValue indexRegister?
  rw [next, Option.any_map, word]
  change Faithful _ (if first ∨ token.kind ≠ .identifier ∨ rest.head?.any (·.kind ≠ .comma) then _
    else if token.ident.name = "X" then _ else if token.ident.name = "Y" then _ else _) _
  split_ifs with other x y
  · exact value
  · exact .ok ⟨rfl, Nat.lt_succ_self place, last, drop_succ here⟩
  · exact .ok ⟨rfl, Nat.lt_succ_self place, last, drop_succ here⟩
  · exact value

theorem faithful_operandKind (first : Bool) (here : tokens.drop place = token :: rest) :
    Faithful (Follows tokens place) ((of text tokens).operandKind first token.mark place)
      (readOperandKind (lineEnd tokens) first token rest) := by
  have known := sound token (mem_of_drop here)
  have later := drop_succ here
  have inner := faithful_expression sound later
  have last : (tokens[place + 1 - 1]?).map Token.stop = some token.stop := by
    rw [Nat.add_sub_cancel, getElem?_of_drop here]
    rfl
  have kind : token.mark.kind = token.kind := rfl
  unfold operandKind readOperandKind
  rw [kind, word_of known.stands]
  cases same : token.kind with
  | hash =>
      exact inner.bind fun _ _ _ read =>
        .ok ⟨congrArg OperandKind.immediate read.value, Nat.lt_of_succ_lt read.ahead, read.last,
          read.rest⟩
  | openParen =>
      apply inner.bind
      rintro ⟨expr, close⟩ ⟨value, stop, left⟩ - ⟨rfl, ahead, -, behind⟩
      have found := marks_of_drop text behind
      dsimp only at found ⊢
      rw [found]
      cases left with
      | nil =>
          rw [endOfLine_of]
          exact .error rfl
      | cons next more =>
          change Faithful _ (if next.kind = .closeParen then _ else _) _
          dsimp only
          split
          · refine .ok ⟨rfl, ?_, ?_, drop_succ behind⟩
            · exact Nat.lt_succ_of_lt (Nat.lt_of_succ_lt ahead)
            · dsimp only
              rw [Nat.add_sub_cancel, getElem?_of_drop behind]
              rfl
          · exact .error rfl
  | string closed =>
      change Faithful _ (meaning token.text >>= _) _
      rw [meaning_eq known (.inl same)]
      exact .ok ⟨rfl, Nat.lt_succ_self place, last, later⟩
  | _ => exact faithful_registerOrValue sound first here

theorem faithful_operand (first : Bool) (here : tokens.drop place = rest) :
    Faithful (Follows tokens place) ((of text tokens).operand first place)
      (readOperand (lineEnd tokens) first rest) := by
  have found := marks_of_drop text here
  rw [operand, found]
  cases rest with
  | nil =>
      rw [endOfLine_of]
      exact .error rfl
  | cons token rest =>
      apply (faithful_operandKind sound first here).bind
      rintro ⟨kind, next⟩ reading - ⟨rfl, ahead, last, left⟩
      dsimp only at ahead last left ⊢
      cases next with
      | zero => cases ahead
      | succ next =>
          rw [Nat.add_sub_cancel] at last
          obtain ⟨final, there, stop⟩ := Option.map_eq_some_iff.mp last
          have ended : (of text tokens).last (next + 1) = .ok final.mark := by
            rw [Reader.last, mark, of, List.getElem?_map, there]
            rfl
          rw [ended]
          refine .ok ⟨?_, ahead, ?_, left⟩
          · rw [← stop]
            rfl
          · rw [Nat.add_sub_cancel]
            exact last

theorem faithful_operandList (first : Bool) (here : tokens.drop place = rest) :
    Faithful (FollowsTo tokens) ((of text tokens).operandList first place)
      (readOperandList (lineEnd tokens) first rest) := by
  induction length : tokens.length - place using Nat.strongRecOn generalizing first place rest with
  | ind n ih =>
      rw [operandList_eq, readOperandList_eq]
      apply (faithful_operand sound first here).bind
      rintro ⟨operand, next⟩ ⟨_, stop, left⟩ - ⟨rfl, turn, -, behind⟩
      have found := marks_of_drop text behind
      dsimp only at turn behind found ⊢
      rw [if_pos turn, found]
      cases left with
      | nil => exact .ok ⟨rfl, behind⟩
      | cons comma more =>
          have inside := (List.getElem?_eq_some_iff.mp (getElem?_of_drop behind)).1
          change Faithful _ (if comma.kind = .comma then _ else _) _
          dsimp only
          split
          · apply (ih _ (by omega) false (drop_succ behind) rfl).bind_map
            rintro ⟨operands, last⟩ ⟨_, rest⟩ ⟨rfl, others⟩
            exact .ok ⟨rfl, others⟩
          · exact .ok ⟨rfl, behind⟩

theorem faithful_operands (here : tokens.drop place = rest) :
    Faithful (FollowsTo tokens) ((of text tokens).operands place)
      (readOperands (lineEnd tokens) rest) := by
  have found := marks_of_drop text here
  rw [operands, found]
  cases rest with
  | nil => exact .ok ⟨rfl, here⟩
  | cons token rest => exact faithful_operandList sound true here

theorem faithful_statement (label : Option Ident) (here : tokens.drop place = token :: rest) :
    Faithful (FollowsTo tokens) ((of text tokens).statement label token.mark place)
      (readStatement (lineEnd tokens) label token rest) := by
  have later := drop_succ here
  have name := ident_of (sound token (mem_of_drop here)).stands here
  have operands := faithful_operands sound later
  have equals : (of text tokens).kind? (place + 1) = rest.head?.map Token.kind :=
    kind?_of_drop later
  have constant : (token.mark.kind = .identifier ∧
      (of text tokens).kind? (place + 1) = some .equals) ↔ startsConstant token rest = true := by
    rw [equals]
    cases rest <;> simp [startsConstant, Token.mark]
  unfold statement readStatement
  rw [if_congr constant rfl rfl]
  split
  · cases label with
    | some label => exact .error rfl
    | none =>
        have behind : tokens.drop (place + 2) = rest.tail := by rw [← List.tail_drop, later]
        rw [name]
        exact (faithful_expression sound behind).bind_map fun read reading same =>
          .ok ⟨congrArg _ same.value, same.rest⟩
  · have kind : token.mark.kind = token.kind := rfl
    rw [kind, name]
    cases token.kind with
    | identifier =>
        exact operands.bind_map fun read reading same => .ok ⟨congrArg _ same.1, same.2⟩
    | directive =>
        exact operands.bind_map fun read reading same => .ok ⟨congrArg _ same.1, same.2⟩
    | _ => exact .error rfl

end Tokens

theorem faithful_check (stands : token.StandsIn text) (tokens : List Token) :
    Faithful (fun _ _ => True) ((of text tokens).check token.mark) token.check := by
  have kind : token.mark.kind = token.kind := rfl
  unfold check Token.check
  rw [kind, word_of stands]
  cases token.kind with
  | unknown => exact .error rfl
  | string closed =>
      cases closed with
      | false => exact .error rfl
      | true => exact .ok trivial
  | character closed =>
      cases closed with
      | false => exact .error rfl
      | true => exact .ok trivial
  | _ => exact .ok trivial

theorem faithful_forM_check (tokens : List Token) {some : List Token}
    (stand : ∀ token ∈ some, token.StandsIn text) :
    Faithful (fun _ _ => True) ((some.map Token.mark).forM (of text tokens).check)
      (some.forM Token.check) := by
  induction some with
  | nil => exact .ok trivial
  | cons first some ih =>
      obtain ⟨now, later⟩ := List.forall_mem_cons.mp stand
      exact (faithful_check now tokens).bind fun _ _ _ _ => ih later

theorem exists_label (stand : ∀ token ∈ tokens, token.StandsIn text) :
    ∃ place, (of text tokens).label = .ok ((splitLabel tokens).1, place) ∧
      tokens.drop place = (splitLabel tokens).2 := by
  have first : (of text tokens).kind? 0 = tokens.head?.map Token.kind := kind?_of_drop rfl
  have second : (of text tokens).kind? 1 = tokens.tail.head?.map Token.kind :=
    kind?_of_drop List.drop_one
  unfold label
  rw [first, second]
  match tokens with
  | [] => exact ⟨0, rfl, rfl⟩
  | [name] =>
      have alone : ¬ (some name.kind = some .identifier ∧ none = some TokenKind.colon) :=
        fun both => nomatch both.2
      exact ⟨0, if_neg alone, rfl⟩
  | name :: colon :: rest =>
      have here : (name :: colon :: rest).drop 0 = name :: colon :: rest := rfl
      have ident := ident_of (stand name List.mem_cons_self) here
      by_cases labels : name.kind = .identifier ∧ colon.kind = .colon
      · have split : splitLabel (name :: colon :: rest) = (some name.ident, rest) := if_pos labels
        have both := And.intro (congrArg some labels.1) (congrArg some labels.2)
        rw [split]
        refine ⟨2, (if_pos both).trans ?_, rfl⟩
        rw [ident]
        rfl
      · have split : splitLabel (name :: colon :: rest) = (none, name :: colon :: rest) :=
          if_neg labels
        have other : ¬ (some name.kind = some .identifier ∧ some colon.kind = some .colon) :=
          fun both => labels ⟨Option.some.inj both.1, Option.some.inj both.2⟩
        rw [split]
        exact ⟨0, if_neg other, rfl⟩

theorem faithful_line (stand : ∀ token ∈ tokens, token.StandsIn text)
    (sound : (∀ token ∈ tokens, token.Legible) → ∀ token ∈ tokens, token.Sound text) :
    Faithful Eq (of text tokens).line (ofTokens (lineEnd tokens) tokens) := by
  have checks : Faithful (fun _ _ => True) ((of text tokens).marks.forM (of text tokens).check)
      (tokens.forM Token.check) := faithful_forM_check tokens stand
  obtain ⟨place, labelled, here⟩ := exists_label stand
  have found := marks_of_drop text here
  unfold line ofTokens
  rw [labelled]
  generalize checked : tokens.forM Token.check = result at checks ⊢
  cases result with
  | error error =>
      generalize (of text tokens).marks.forM (of text tokens).check = first at checks ⊢
      cases checks with
      | error same => exact .error same
  | ok nothing =>
      have known := sound (Token.forM_check_eq_ok_iff.mp checked)
      apply checks.bind
      intro _ _ _ _
      generalize splitLabel tokens = split at here found ⊢
      obtain ⟨label, rest⟩ := split
      dsimp only [bind, Except.bind] at here found ⊢
      rw [found]
      cases rest with
      | nil => exact .ok rfl
      | cons token rest =>
          apply (faithful_statement known label here).bind
          rintro ⟨statement, next⟩ ⟨_, left⟩ - ⟨rfl, behind⟩
          have extra := marks_of_drop text behind
          dsimp only at extra ⊢
          rw [extra]
          cases left with
          | nil => exact .ok rfl
          | cons more left => exact .error rfl

end Reader

/-- However a line is written, none of the checks fails: each token asked for is there, each part of
the text lies in it and starts and stops between characters, each turn of a loop takes a token, and
backslashes are paired in what escape sequences are resolved in. The line that is read, or its
fault, is the one that is read without checks. A fault is at a place within the line, between
characters too. -/
theorem parse_stays_in_range (text : List Char) :
    parseChecked text = (parse text).mapError .fault ∧
    ∀ error, parse text = .error error → error.span.EndsAt (Text.Boundary text) ∧
      error.span.stop ≤ Text.byteLength text := by
  have member (token : Token) (read : token ∈ Token.significantTokens text) :
      token ∈ Token.tokens text := (List.mem_filter.mp read).1
  have faithful : Faithful Eq (parseChecked text) (parse text) :=
    Reader.faithful_line (fun token read => Token.standsIn_of_mem_tokens (member token read))
      fun legible token read => Token.sound_of_mem_tokens (member token read) (legible token read)
  constructor
  · generalize parse text = result at faithful ⊢
    generalize parseChecked text = checked at faithful ⊢
    cases faithful with
    | ok same => exact congrArg Except.ok same
    | error same => exact congrArg Except.error same
  · intro error failed
    have ends := (gives_parse text).of_error failed
    exact ⟨ends, ends.stop.le⟩

theorem parse_stays_in_range_of_wide_character :
    let text := ['.', 'b', 'y', 't', 'e', ' ', '$', 'é']
    let error : LineError := ⟨.unexpectedCharacter "é", ⟨7, 2⟩⟩
    parse text = .error error ∧ parseChecked text = .error (.fault error) ∧
      error.span.EndsAt (Text.Boundary text) ∧ error.span.stop ≤ Text.byteLength text := by
  intro text error
  have failed : parse text = .error error := by decide +kernel
  obtain ⟨same, faults⟩ := parse_stays_in_range text
  rw [failed] at same
  exact ⟨failed, same, faults error failed⟩

end Line

end EightBit
