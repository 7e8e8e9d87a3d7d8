import EightBit.Proofs.Line.Alike
import EightBit.Proofs.Line.Grammar

namespace EightBit

open Grammar

namespace Token

variable {token : Token}

theorem check_eq_ok_iff : token.check = .ok () ↔ token.Legible := by
  unfold check Legible
  cases token.kind with
  | unknown => exact iff_of_false nofun fun legible => legible.1 rfl
  | string closed =>
      cases closed with
      | false => exact iff_of_false nofun fun legible => legible.2.1 rfl
      | true => exact iff_of_true rfl ⟨nofun, nofun, nofun⟩
  | character closed =>
      cases closed with
      | false => exact iff_of_false nofun fun legible => legible.2.2 rfl
      | true => exact iff_of_true rfl ⟨nofun, nofun, nofun⟩
  | _ => exact iff_of_true rfl ⟨nofun, nofun, nofun⟩

theorem forM_check_eq_ok_iff {tokens : List Token} :
    tokens.forM check = .ok () ↔ ∀ token ∈ tokens, token.Legible := by
  induction tokens with
  | nil => exact iff_of_true rfl nofun
  | cons first rest ih =>
      have split : (first :: rest).forM check = first.check.bind fun _ => rest.forM check := rfl
      rw [split, List.forall_mem_cons, ← check_eq_ok_iff, ← ih]
      constructor
      · intro checked
        obtain ⟨_, now, later⟩ := ok_of_bind checked
        exact ⟨now, later⟩
      · rintro ⟨now, later⟩
        rw [now, Except.bind, later]

theorem number_eq_ok_iff {base : Nat} {digits : List Char} {expr : Expr} :
    token.number base digits = .ok expr ↔
      ∃ n, digits ≠ [] ∧ Text.Denotes base digits n ∧ n ≤ 0x7FFFFFFFFFFFFFFF ∧
        expr = .number (Int64.ofNat n) := by
  unfold number
  by_cases none : digits = []
  · simp [none]
  · rw [if_neg (by simpa using none)]
    simp only [← Text.readDigits_eq_some_iff_denotes]
    cases read : Text.readDigits base 0 digits with
    | none => simp [none]
    | some n =>
        by_cases small : n < numberLimit
        · have low : n ≤ 0x7FFFFFFFFFFFFFFF := Nat.le_of_lt_succ small
          simp [Option.filter_some, none, small, low, eq_comm]
        · have high : ¬ n ≤ 0x7FFFFFFFFFFFFFFF := fun low => small (Nat.lt_succ_of_le low)
          simp [Option.filter_some, small, high]

theorem leaf_eq_ok_iff {expr : Expr} : token.leaf = .ok expr ↔ IsAtom token expr := by
  constructor
  · intro read
    unfold leaf at read
    split at read
    · rename_i kind
      cases read
      exact .name kind
    · rename_i kind
      obtain ⟨n, some, value, small, rfl⟩ := number_eq_ok_iff.mp read
      exact .number (.hexadecimal kind) some value small
    · rename_i kind
      obtain ⟨n, some, value, small, rfl⟩ := number_eq_ok_iff.mp read
      exact .number (.binary kind) some value small
    · rename_i kind
      obtain ⟨n, some, value, small, rfl⟩ := number_eq_ok_iff.mp read
      exact .number (.decimal kind) some value small
    · rename_i kind
      split at read
      · rename_i single
        cases read
        exact .character kind single
      · cases read
    · cases read
    · cases read
  · intro atom
    cases atom with
    | name kind => simp only [leaf, kind]
    | @number base n digits numeral some value small =>
        have read : token.number base digits = .ok (.number (Int64.ofNat n)) :=
          number_eq_ok_iff.mpr ⟨n, some, value, small, rfl⟩
        cases numeral with
        | hexadecimal kind | decimal kind | binary kind => simp only [leaf, kind, read]
    | character kind single => simp only [leaf, kind, single]

end Token

namespace Line

variable {eol : Nat} {first : Bool} {token : Token} {tokens taken rest : List Token}

/-- A reader took some tokens by a rule, and left the others. -/
def Took {α : Type} (rule : List Token → α → Prop) (tokens : List Token) (reading : Reading α) :
    Prop :=
  ∃ taken, tokens = taken ++ reading.rest ∧ rule taken reading.value ∧
    reading.stop = lastStop taken

theorem readTerm_of_isTerm {expr : Expr} (term : IsTerm taken expr) (rest : List Token) :
    readTerm eol (taken ++ rest) = .ok ⟨expr, lastStop taken, rest⟩ := by
  induction term with
  | @atom token expr atom =>
      rw [List.singleton_append, readTerm, atom.unary?_eq_none, Token.leaf_eq_ok_iff.mpr atom]
      rfl
  | @unary token op tokens expr sign inner ih =>
      rw [List.cons_append, readTerm, sign, ih, lastStop_cons token inner.ne_nil]
      rfl

theorem took_of_readTerm {reading : Reading Expr} (read : readTerm eol tokens = .ok reading) :
    Took IsTerm tokens reading := by
  induction tokens generalizing reading with
  | nil => cases read
  | cons token rest ih =>
      rw [readTerm] at read
      split at read
      · rename_i op sign
        obtain ⟨inner, found, rfl⟩ := ok_of_map read
        obtain ⟨taken, split, term, stop⟩ := ih found
        exact ⟨token :: taken, congrArg (token :: ·) split, .unary sign term,
          stop.trans (lastStop_cons token term.ne_nil).symm⟩
      · obtain ⟨expr, leaf, rfl⟩ := ok_of_map read
        exact ⟨[token], rfl, .atom (Token.leaf_eq_ok_iff.mp leaf), rfl⟩

theorem readExpression_append {expr : Expr} (expression : IsExpression taken expr)
    (rest : List Token) :
    readExpression eol (taken ++ rest) = readOperators eol ⟨expr, lastStop taken, rest⟩ := by
  induction expression generalizing rest with
  | term term =>
      rw [readExpression, readTerm_of_isTerm term]
      rfl
  | @binary token op front back left right first sign second ih =>
      rw [List.append_assoc, List.cons_append, ih, readOperators_eq]
      simp only [sign, readTerm_of_isTerm second]
      rw [lastStop_append front (List.cons_ne_nil token back), lastStop_cons token second.ne_nil]
      rfl

theorem readOperators_of_ends {left : Reading Expr}
    (ends : ∀ next ∈ left.rest.head?, next.binary? = none) :
    readOperators eol left = .ok left := by
  rw [readOperators_eq]
  cases rest : left.rest with
  | nil => rfl
  | cons next more =>
      rw [rest] at ends
      simp only [ends next rfl]

theorem took_of_readOperators {left reading : Reading Expr}
    (read : readOperators eol left = .ok reading) (took : Took IsExpression tokens left) :
    Took IsExpression tokens reading := by
  fun_induction readOperators eol left with
  | case1 | case2 =>
      cases read
      exact took
  | case3 => cases read
  | case4 left next more after op sign right found ih =>
      obtain ⟨back, split, second, stop⟩ := took_of_readTerm found
      obtain ⟨front, whole, expression, -⟩ := took
      refine ih read ⟨front ++ next :: back, ?_, .binary expression sign second, ?_⟩
      · rw [whole, after, split, List.append_assoc, List.cons_append]
      · rw [stop, lastStop_append front (List.cons_ne_nil next back),
          lastStop_cons next second.ne_nil]

theorem took_of_readExpression {reading : Reading Expr}
    (read : readExpression eol tokens = .ok reading) : Took IsExpression tokens reading := by
  obtain ⟨left, found, more⟩ := ok_of_bind read
  obtain ⟨taken, split, term, stop⟩ := took_of_readTerm found
  exact took_of_readOperators more ⟨taken, split, .term term, stop⟩

theorem readExpression_of_isExpression (eol : Nat) {expr : Expr}
    (expression : IsExpression taken expr) (ends : ∀ next ∈ rest.head?, next.binary? = none) :
    readExpression eol (taken ++ rest) = .ok ⟨expr, lastStop taken, rest⟩ := by
  rw [readExpression_append expression, readOperators_of_ends ends]

theorem readExpression_of_whole (eol : Nat) {expr : Expr} (expression : IsExpression tokens expr) :
    readExpression eol tokens = .ok ⟨expr, lastStop tokens, []⟩ := by
  have ends : ∀ next ∈ ([] : List Token).head?, next.binary? = none := nofun
  have read := readExpression_of_isExpression eol expression ends
  rwa [List.append_nil] at read

def OperandEnds (rest : List Token) : Prop := ∀ next ∈ rest.head?, next.kind = .comma

theorem OperandEnds.binary?_eq_none (ends : OperandEnds rest) :
    ∀ next ∈ rest.head?, next.binary? = none := by
  intro next member
  rw [Token.binary?, ends next member]

theorem indexRegister?_eq_some_iff {register : IndexRegister} :
    indexRegister? first token rest = some register ↔
      OperandEnds rest ∧ first = false ∧ IsRegister [token] register := by
  have comma : rest.head?.any (·.kind ≠ .comma) = false ↔ OperandEnds rest := by
    cases rest <;> simp [OperandEnds]
  have named : IsRegister [token] register ↔
      token.kind = .identifier ∧ token.ident.name = register.name := by
    constructor
    · rintro ⟨_, same, kind, name⟩
      cases same
      exact ⟨kind, name⟩
    · rintro ⟨kind, name⟩
      exact ⟨token, rfl, kind, name⟩
  rw [← comma, named, indexRegister?]
  cases register <;> grind [IndexRegister.name]

theorem took_of_readOperandKind {reading : Reading OperandKind}
    (read : readOperandKind eol first token rest = .ok reading)
    (ends : OperandEnds reading.rest) :
    Took (IsOperandKind first) (token :: rest) reading := by
  unfold readOperandKind at read
  split at read
  · rename_i mark
    obtain ⟨inner, found, done⟩ := ok_of_bind read
    cases done
    obtain ⟨taken, split, expression, stop⟩ := took_of_readExpression found
    exact ⟨token :: taken, congrArg (token :: ·) split, .immediate mark expression,
      stop.trans (lastStop_cons token expression.ne_nil).symm⟩
  · rename_i opens
    obtain ⟨inner, found, closed⟩ := ok_of_bind read
    obtain ⟨taken, split, expression, stop⟩ := took_of_readExpression found
    split at closed
    · cases closed
    · rename_i next more left
      split at closed
      · rename_i closes
        cases closed
        rw [left] at split
        refine ⟨token :: (taken ++ [next]), ?_, .indirect opens expression closes, ?_⟩
        · rw [split, List.cons_append, List.append_assoc]
          rfl
        · rw [← List.cons_append, lastStop_append _ (List.cons_ne_nil next [])]
          rfl
      · cases closed
  · rename_i kind
    cases read
    exact ⟨[token], rfl, .string kind, rfl⟩
  · split at read
    · rename_i register found
      cases read
      obtain ⟨-, later, named⟩ := indexRegister?_eq_some_iff.mp found
      exact ⟨[token], rfl, .register later named, rfl⟩
    · rename_i absent
      obtain ⟨inner, found, done⟩ := ok_of_bind read
      cases done
      obtain ⟨taken, split, expression, stop⟩ := took_of_readExpression found
      refine ⟨taken, split, .value expression ?_, stop⟩
      -- a register alone would have been seen as one
      rintro ⟨later, register, single, rfl, kind, name⟩
      obtain ⟨rfl, rfl⟩ := List.cons.inj split
      have seen := indexRegister?_eq_some_iff.mpr ⟨ends, later, token, rfl, kind, name⟩
      cases absent.symm.trans seen

theorem readOperandKind_of_isOperandKind {kind : OperandKind}
    (operand : IsOperandKind first (token :: taken) kind) (ends : OperandEnds rest) :
    readOperandKind eol first token (taken ++ rest) =
      .ok ⟨kind, lastStop (token :: taken), rest⟩ := by
  generalize whole : token :: taken = tokens at operand
  cases operand with
  | immediate mark inner =>
      cases whole
      have read := readExpression_of_isExpression eol inner ends.binary?_eq_none
      rw [lastStop_cons token inner.ne_nil]
      simp only [readOperandKind, mark, read]
      rfl
  | @indirect opening closing tokens expr opens inner closes =>
      cases whole
      have apart : ∀ next ∈ (closing :: rest).head?, next.binary? = none := by
        intro next member
        cases member
        rw [Token.binary?, closes]
      have read := readExpression_of_isExpression eol inner apart
      rw [List.append_assoc, List.singleton_append, ← List.cons_append,
        lastStop_append _ (List.cons_ne_nil closing [])]
      simp only [readOperandKind, opens, read, bind, Except.bind, closes, ↓reduceIte]
      rfl
  | string kind =>
      cases whole
      simp only [readOperandKind, kind]
      rfl
  | register later named =>
      obtain ⟨single, same, kind, name⟩ := named
      subst same
      cases whole
      have found := indexRegister?_eq_some_iff.mpr ⟨ends, later, token, rfl, kind, name⟩
      simp only [readOperandKind, kind, List.nil_append, found]
      rfl
  | value inner other =>
      subst whole
      have read := readExpression_of_isExpression eol inner ends.binary?_eq_none
      have absent : indexRegister? first token (taken ++ rest) = none := by
        apply Option.eq_none_iff_forall_ne_some.mpr
        intro register found
        obtain ⟨parted, later, single, same, kind, name⟩ := indexRegister?_eq_some_iff.mp found
        cases same
        -- before a comma the name is an expression of its own, so it is all that was taken
        have alone := readExpression_of_isExpression eol (.term (.atom (.name kind)))
          parted.binary?_eq_none
        rw [List.singleton_append, ← List.cons_append, read] at alone
        have nothing : taken = [] := by
          have rest_eq := congrArg Reading.rest (Except.ok.inj alone)
          exact List.append_left_eq_self.mp rest_eq.symm
        exact other ⟨later, register, token, by rw [nothing], kind, name⟩
      obtain ⟨head, more, same, starts⟩ := inner.head
      cases same
      rw [List.cons_append] at read
      unfold readOperandKind
      split
      · rename_i kind
        rw [kind] at starts
        cases starts
      · rename_i kind
        rw [kind] at starts
        cases starts
      · rename_i kind
        rw [kind] at starts
        cases starts
      · rw [absent, read]
        rfl

theorem took_of_readOperand {reading : Reading Operand}
    (read : readOperand eol first tokens = .ok reading) (ends : OperandEnds reading.rest) :
    ∃ taken, tokens = taken ++ reading.rest ∧ IsOperandKind first taken reading.value.kind ∧
      reading.value.span = covering taken := by
  cases tokens with
  | nil => cases read
  | cons token rest =>
      obtain ⟨kind, found, done⟩ := ok_of_bind read
      cases done
      obtain ⟨taken, split, operand, stop⟩ := took_of_readOperandKind found ends
      obtain ⟨head, more, rfl, -⟩ := operand.head
      cases split
      exact ⟨_, rfl, operand, congrArg (Span.between token.start) stop⟩

theorem readOperand_of_isOperandKind (eol : Nat) {kind : OperandKind}
    (operand : IsOperandKind first taken kind) (ends : OperandEnds rest) :
    readOperand eol first (taken ++ rest) =
      .ok ⟨⟨kind, covering taken⟩, lastStop taken, rest⟩ := by
  obtain ⟨token, more, rfl, -⟩ := operand.head
  rw [List.cons_append, readOperand, readOperandKind_of_isOperandKind operand ends]
  rfl

theorem isOperands_of_read {operands : List Operand}
    (read : readOperandList eol first tokens = .ok (operands, [])) :
    IsOperands first tokens operands := by
  fun_induction readOperandList eol first tokens generalizing operands with
  | case1 => cases read
  | case2 first tokens reading found after =>
      cases read
      have ends : OperandEnds reading.rest := by rw [after]; nofun
      obtain ⟨taken, split, operand, span⟩ := took_of_readOperand found ends
      obtain ⟨⟨kind, place⟩, stop, left⟩ := reading
      cases after
      cases span
      rw [split, List.append_nil]
      exact .last operand
  | case3 first tokens reading found next more after comma ih =>
      obtain ⟨⟨others, left⟩, later, same⟩ := ok_of_map read
      cases same
      have ends : OperandEnds reading.rest := by
        rw [after]
        intro other member
        cases member
        exact comma
      obtain ⟨taken, split, operand, span⟩ := took_of_readOperand found ends
      obtain ⟨⟨kind, place⟩, stop, left⟩ := reading
      cases after
      cases span
      rw [split]
      exact .comma operand comma (ih later)
  | case4 => cases read

theorem readOperandList_of_isOperands {operands : List Operand}
    (listed : IsOperands first tokens operands) :
    readOperandList eol first tokens = .ok (operands, []) := by
  induction listed with
  | @last first tokens kind operand =>
      have ends : OperandEnds [] := nofun
      have read := readOperand_of_isOperandKind eol operand ends
      rw [List.append_nil] at read
      rw [readOperandList_eq, read]
      rfl
  | @comma first tokens more comma kind operands operand parts others ih =>
      have ends : OperandEnds (comma :: more) := by
        intro next member
        cases member
        exact parts
      rw [readOperandList_eq, readOperand_of_isOperandKind eol operand ends]
      simp only [Except.bind, parts, ↓reduceIte, ih]
      rfl

theorem readOperands_eq_ok_iff {operands : List Operand} :
    readOperands eol tokens = .ok (operands, []) ↔ IsArguments tokens operands := by
  cases tokens with
  | nil =>
      constructor
      · intro read
        cases read
        exact .none
      · intro arguments
        cases arguments with
        | none => rfl
        | some listed =>
            obtain ⟨token, rest, none, -⟩ := listed.head
            cases none
  | cons token rest =>
      constructor
      · intro read
        exact .some (isOperands_of_read read)
      · intro arguments
        cases arguments with
        | some listed => exact readOperandList_of_isOperands listed

theorem isStatement_of_read {label : Option Ident} {statement : Statement}
    (read : readStatement eol label token rest = .ok (statement, [])) :
    IsStatement label.isSome (token :: rest) statement := by
  unfold readStatement at read
  split at read
  · rename_i starts
    obtain ⟨named, sign⟩ := (Bool.and_eq_true _ _).mp starts
    cases rest with
    | nil => cases sign
    | cons equals tokens =>
        split at read
        · cases read
        · obtain ⟨value, found, same⟩ := ok_of_map read
          obtain ⟨taken, split, expression, -⟩ := took_of_readExpression found
          obtain ⟨expr, stop, left⟩ := value
          cases same
          have whole : tokens = taken := split.trans (List.append_nil taken)
          rw [whole]
          exact .constant rfl (of_decide_eq_true named) (of_decide_eq_true sign) expression
  · rename_i other
    split at read
    · rename_i named
      obtain ⟨⟨operands, left⟩, found, same⟩ := ok_of_map read
      cases same
      refine .instruction named ?_ (readOperands_eq_ok_iff.mp found)
      intro next member equals
      cases rest with
      | nil => cases member
      | cons second more =>
          cases member
          simp [startsConstant, named, equals] at other
    · rename_i named
      obtain ⟨⟨operands, left⟩, found, same⟩ := ok_of_map read
      cases same
      exact .directive named (readOperands_eq_ok_iff.mp found)
    · cases read

theorem readStatement_of_isStatement {label : Option Ident} {statement : Statement}
    (stated : IsStatement label.isSome (token :: rest) statement) :
    readStatement eol label token rest = .ok (statement, []) := by
  cases stated with
  | @constant name equals tokens expr free named sign value =>
      have unlabelled : label = none := by
        cases label with
        | none => rfl
        | some => cases free
      have starts : startsConstant token (equals :: tokens) = true := by
        simp [startsConstant, named, sign]
      have read := readExpression_of_whole eol value
      simp only [readStatement, starts, ↓reduceIte, unlabelled, List.tail_cons, read]
      rfl
  | instruction named other arguments =>
      have apart : startsConstant token rest = false := by
        cases rest with
        | nil => simp [startsConstant]
        | cons second more => simpa [startsConstant, named] using other second rfl
      simp only [readStatement, apart, named, readOperands_eq_ok_iff.mpr arguments,
        Bool.false_eq_true, ↓reduceIte]
      rfl
  | directive named arguments =>
      have apart : startsConstant token rest = false := by simp [startsConstant, named]
      simp only [readStatement, apart, named, readOperands_eq_ok_iff.mpr arguments,
        Bool.false_eq_true, ↓reduceIte]
      rfl

theorem splitLabel_of_isStatement {labelled : Bool} {statement : Statement}
    (stated : IsStatement labelled tokens statement) : splitLabel tokens = (none, tokens) := by
  have unlabelled {name : Token} {rest : List Token}
      (apart : name.kind = .identifier → ∀ next ∈ rest.head?, next.kind ≠ .colon) :
      splitLabel (name :: rest) = (none, name :: rest) := by
    cases rest with
    | nil => rfl
    | cons second more =>
        rw [splitLabel, if_neg]
        rintro ⟨named, colon⟩
        exact apart named second rfl colon
  cases stated with
  | constant free named sign value =>
      apply unlabelled
      intro _ next member colon
      cases member
      cases sign.symm.trans colon
  | instruction named other arguments =>
      exact unlabelled fun _ => arguments.head_ne rfl
  | directive named arguments =>
      apply unlabelled
      intro identifier
      cases named.symm.trans identifier

theorem isLabel_splitLabel (tokens : List Token) :
    ∃ front, tokens = front ++ (splitLabel tokens).2 ∧ IsLabel front (splitLabel tokens).1 := by
  unfold splitLabel
  split
  · rename_i first second rest
    split
    · rename_i both
      exact ⟨[first, second], rfl, .some both.1 both.2⟩
    · exact ⟨[], rfl, .none⟩
  · exact ⟨[], rfl, .none⟩

theorem ofTokens_eq_ok_iff {line : Line} :
    ofTokens eol tokens = .ok line ↔ (∀ token ∈ tokens, token.Legible) ∧ IsLine tokens line := by
  rw [← Token.forM_check_eq_ok_iff]
  constructor
  · intro read
    obtain ⟨_, checked, parsed⟩ := ok_of_bind read
    refine ⟨checked, ?_⟩
    obtain ⟨front, whole, labelled⟩ := isLabel_splitLabel tokens
    generalize splitLabel tokens = split at parsed whole labelled
    obtain ⟨label, rest⟩ := split
    dsimp only at parsed whole labelled
    split at parsed
    · cases parsed
      rw [whole, List.append_nil]
      exact .bare labelled
    · obtain ⟨⟨statement, left⟩, found, last⟩ := ok_of_bind parsed
      split at last
      · rename_i none
        cases none
        cases last
        rw [whole]
        exact .statement labelled (isStatement_of_read found)
      · cases last
  · rintro ⟨checked, derived⟩
    cases derived with
    | bare labelled =>
        cases labelled with
        | none => rfl
        | some named sign =>
            simp only [ofTokens, checked, bind, Except.bind, splitLabel, named, sign, and_self,
              ↓reduceIte]
            rfl
    | @statement front rest label statement labelled stated =>
        have split : splitLabel (front ++ rest) = (label, rest) := by
          cases labelled with
          | none => exact splitLabel_of_isStatement stated
          | some named sign =>
              simp only [List.cons_append, List.nil_append, splitLabel, named, sign, and_self,
                ↓reduceIte]
        obtain ⟨token, more, rfl⟩ : ∃ token more, rest = token :: more := by
          cases stated <;> exact ⟨_, _, rfl⟩
        simp only [ofTokens, checked, bind, Except.bind, split,
          readStatement_of_isStatement stated]
        rfl

theorem label_of_isLine {line : Line} (derived : IsLine tokens line) :
    line.label = (splitLabel tokens).1 := by
  cases derived with
  | bare labelled =>
      cases labelled with
      | none => rfl
      | some named sign => simp only [splitLabel, named, sign, and_self, ↓reduceIte]
  | statement labelled stated =>
      cases labelled with
      | none => exact congrArg Prod.fst (splitLabel_of_isStatement stated).symm
      | some named sign =>
          simp only [List.cons_append, List.nil_append, splitLabel, named, sign, and_self,
            ↓reduceIte]

/-- The parser accepts exactly the lines of the grammar, and gives the tree of the derivation. A
name in front of a colon, where the line starts, is its label. -/
theorem parse_accepts_grammar (text : List Char) :
    (∀ line, parse text = .ok line ↔
      (∀ token ∈ Token.significantTokens text, token.Legible) ∧
        IsLine (Token.significantTokens text) line) ∧
    ∀ name colon rest line, Token.significantTokens text = name :: colon :: rest →
      name.kind = .identifier → colon.kind = .colon → parse text = .ok line →
      line.label = some name.ident := by
  have accepts : ∀ line, parse text = .ok line ↔
      (∀ token ∈ Token.significantTokens text, token.Legible) ∧
        IsLine (Token.significantTokens text) line := fun line => ofTokens_eq_ok_iff
  refine ⟨accepts, ?_⟩
  intro name colon rest line starts named sign read
  obtain ⟨-, derived⟩ := (accepts line).mp read
  rw [label_of_isLine derived, starts]
  simp only [splitLabel, named, sign, and_self, ↓reduceIte]

theorem parse_accepts_grammar_nested :
    let text := "go: lda -<$0f-x+'\\n', X ; 2".toList
    let expr : Expr := .binary .add
      (.binary .subtract (.unary .negate (.unary .low (.number 15))) (.symbol ⟨"X", ⟨14, 1⟩⟩))
      (.number 10)
    let line : Line := ⟨some ⟨"GO", ⟨0, 2⟩⟩, some (.instruction ⟨"LDA", ⟨4, 3⟩⟩
      [⟨.value expr, ⟨8, 12⟩⟩, ⟨.register .x, ⟨22, 1⟩⟩])⟩
    parse text = .ok line ∧ IsLine (Token.significantTokens text) line := by
  intro text expr line
  obtain ⟨accepts, -⟩ := parse_accepts_grammar text
  have read : parse text = .ok line := by decide +kernel
  exact ⟨read, ((accepts line).mp read).2⟩

end Line

end EightBit
