import EightBit.Line.Parser
import EightBit.Proofs.Outcome
import EightBit.Proofs.Token.Extent

namespace EightBit

namespace Text

theorem utf8Size_escaped {c meant : Char} (known : escaped? c = some meant) :
    meant.utf8Size = 1 := by
  unfold escaped? at known
  split at known <;> cases known <;> rfl

theorem byteLength_unescape_le (cs : List Char) : byteLength (unescape cs) ≤ byteLength cs := by
  fun_induction unescape cs with
  | case1 | case2 => exact Nat.le_refl _
  | case3 c cs meant known ih =>
      have one := utf8Size_escaped known
      have pos := c.utf8Size_pos
      simp only [byteLength, one]
      omega
  | case4 c cs unknown ih =>
      simp only [byteLength]
      omega
  | case5 c cs plain same ih =>
      simp only [byteLength]
      omega

theorem byteLength_dropLast_le (cs : List Char) : byteLength cs.dropLast ≤ byteLength cs := by
  rcases List.eq_nil_or_concat cs with rfl | ⟨front, last, rfl⟩
  · exact Nat.le_refl _
  · rw [List.concat_eq_append, List.dropLast_concat, byteLength_append]
    exact Nat.le_add_right _ _

end Text

theorem Token.byteLength_meaning_lt {token : Token} (solid : token.text ≠ []) :
    Text.byteLength token.meaning < Text.byteLength token.text := by
  cases text : token.text with
  | nil => contradiction
  | cons quote rest =>
      have pos := quote.utf8Size_pos
      have body := Text.byteLength_unescape_le rest.dropLast
      have shorter := Text.byteLength_dropLast_le rest
      simp only [Token.meaning, text, List.tail_cons, Text.byteLength]
      omega

def OperandKind.extent : OperandKind → Nat
  | string text => Text.byteLength text + 1
  | _ => 1

/-- The bytes that operands take at least, each with the comma or the name in front of it. -/
def operandsExtent : List Operand → Nat
  | [] => 0
  | operand :: rest => operand.kind.extent + 1 + operandsExtent rest

def Statement.operands : Statement → List Operand
  | constant .. => []
  | directive _ operands | instruction _ operands => operands

namespace Line

theorem readTerm_suffix {eol : Nat} {tokens : List Token} {reading : Reading Expr}
    (read : readTerm eol tokens = .ok reading) : reading.rest <:+ tokens := by
  induction tokens generalizing reading with
  | nil => cases read
  | cons token rest ih =>
      rw [readTerm] at read
      split at read
      · rcases ok_of_map read with ⟨inner, found, rfl⟩
        exact (ih found).trans (List.suffix_cons _ _)
      · rcases ok_of_map read with ⟨expr, leaf, rfl⟩
        exact List.suffix_cons _ _

theorem readOperators_suffix {eol : Nat} {left reading : Reading Expr}
    (read : readOperators eol left = .ok reading) : reading.rest <:+ left.rest := by
  fun_induction readOperators eol left with
  | case1 | case2 => cases read; exact List.suffix_rfl
  | case3 => cases read
  | case4 left next more rest op _ right found ih =>
      have term : right.rest <:+ more := readTerm_suffix found
      exact rest ▸ (ih read).trans (term.trans (List.suffix_cons next more))

theorem readExpression_suffix {eol : Nat} {tokens : List Token} {reading : Reading Expr}
    (read : readExpression eol tokens = .ok reading) : reading.rest <:+ tokens := by
  obtain ⟨left, first, after⟩ := ok_of_bind read
  exact (readOperators_suffix after).trans (readTerm_suffix first)

def Takes (tokens : List Token) (kind : OperandKind) (rest : List Token) : Prop :=
  rest <:+ tokens ∧ (Token.Solid tokens → kind.extent + Token.extent rest ≤ Token.extent tokens)

theorem takes_of_shorter {tokens rest : List Token} {kind : OperandKind} (one : kind.extent = 1)
    (suffix : rest <:+ tokens) (shorter : rest.length < tokens.length) :
    Takes tokens kind rest := by
  refine ⟨suffix, fun solid => ?_⟩
  have less := solid.extent_lt suffix shorter
  omega

theorem readOperandKind_takes {eol : Nat} {first : Bool} {token : Token} {rest : List Token}
    {reading : Reading OperandKind} (read : readOperandKind eol first token rest = .ok reading) :
    Takes (token :: rest) reading.value reading.rest := by
  have shorter := Nat.lt_succ_of_le (readOperandKind_rest_le read)
  unfold readOperandKind at read
  split at read
  · obtain ⟨inner, found, done⟩ := ok_of_bind read
    cases done
    exact takes_of_shorter rfl ((readExpression_suffix found).trans (List.suffix_cons _ _)) shorter
  · obtain ⟨inner, found, closed⟩ := ok_of_bind read
    have suffix := (readExpression_suffix found).trans (List.suffix_cons token rest)
    split at closed
    · cases closed
    · rename_i next more left
      split at closed
      · cases closed
        have after : more <:+ inner.rest := left ▸ List.suffix_cons next more
        exact takes_of_shorter rfl (after.trans suffix) shorter
      · cases closed
  · cases read
    refine ⟨List.suffix_cons _ _, fun solid => ?_⟩
    have less := Token.byteLength_meaning_lt (solid token List.mem_cons_self)
    simp only [OperandKind.extent, Token.extent]
    omega
  · split at read
    · cases read
      exact takes_of_shorter rfl (List.suffix_cons _ _) shorter
    · obtain ⟨inner, found, done⟩ := ok_of_bind read
      cases done
      exact takes_of_shorter rfl (readExpression_suffix found) shorter

theorem readOperand_takes {eol : Nat} {first : Bool} {tokens : List Token}
    {reading : Reading Operand} (read : readOperand eol first tokens = .ok reading) :
    Takes tokens reading.value.kind reading.rest := by
  cases tokens with
  | nil => cases read
  | cons token rest =>
      obtain ⟨kind, found, done⟩ := ok_of_bind read
      cases done
      exact readOperandKind_takes found

theorem readOperandList_extent {eol : Nat} {first : Bool} {tokens rest : List Token}
    {operands : List Operand} (read : readOperandList eol first tokens = .ok (operands, rest))
    (solid : Token.Solid tokens) :
    operandsExtent operands + Token.extent rest ≤ Token.extent tokens + 1 := by
  fun_induction readOperandList eol first tokens generalizing operands rest with
  | case1 => cases read
  | case2 first tokens reading found after =>
      cases read
      have takes := (readOperand_takes found).2 solid
      simp only [operandsExtent, Token.extent]
      omega
  | case3 first tokens reading found next more after comma ih =>
      obtain ⟨⟨others, left⟩, later, same⟩ := ok_of_map read
      cases same
      obtain ⟨suffix, takes⟩ := readOperand_takes found
      have remaining : Token.Solid (next :: more) := after ▸ solid.of_suffix suffix
      have bound := ih later (remaining.of_suffix (List.suffix_cons _ _))
      have covers := Text.byteLength_pos (remaining next List.mem_cons_self)
      have here := takes solid
      rw [after, Token.extent] at here
      simp only [operandsExtent]
      omega
  | case4 first tokens reading found next more after other =>
      cases read
      have takes := (readOperand_takes found).2 solid
      rw [after] at takes
      simp only [operandsExtent]
      omega

theorem readOperands_extent {eol : Nat} {tokens rest : List Token} {operands : List Operand}
    (read : readOperands eol tokens = .ok (operands, rest)) (solid : Token.Solid tokens) :
    operandsExtent operands ≤ Token.extent tokens + 1 := by
  cases tokens with
  | nil =>
      cases read
      exact Nat.zero_le _
  | cons token more => exact Nat.le_trans (Nat.le_add_right _ _) (readOperandList_extent read solid)

theorem readStatement_extent {eol : Nat} {label : Option Ident} {token : Token}
    {rest left : List Token} {statement : Statement}
    (read : readStatement eol label token rest = .ok (statement, left))
    (solid : Token.Solid (token :: rest)) :
    operandsExtent statement.operands ≤ Token.extent (token :: rest) := by
  have covers := Text.byteLength_pos (solid token List.mem_cons_self)
  have remaining : Token.Solid rest := solid.of_suffix (List.suffix_cons _ _)
  unfold readStatement at read
  split at read
  · split at read
    · cases read
    · obtain ⟨value, found, same⟩ := ok_of_map read
      cases same
      exact Nat.zero_le _
  · split at read
    · obtain ⟨⟨operands, more⟩, found, same⟩ := ok_of_map read
      cases same
      have bound := readOperands_extent found remaining
      simp only [Statement.operands, Token.extent]
      omega
    · obtain ⟨⟨operands, more⟩, found, same⟩ := ok_of_map read
      cases same
      have bound := readOperands_extent found remaining
      simp only [Statement.operands, Token.extent]
      omega
    · cases read

theorem splitLabel_suffix (tokens : List Token) : (splitLabel tokens).2 <:+ tokens := by
  unfold splitLabel
  split
  · split
    · exact (List.suffix_cons _ _).trans (List.suffix_cons _ _)
    · exact List.suffix_rfl
  · exact List.suffix_rfl

theorem ofTokens_extent {eol : Nat} {tokens : List Token} {line : Line} {statement : Statement}
    (read : ofTokens eol tokens = .ok line) (states : line.statement = some statement)
    (solid : Token.Solid tokens) : operandsExtent statement.operands ≤ Token.extent tokens := by
  rcases ok_of_bind read with ⟨-, -, parsed⟩
  have suffix := splitLabel_suffix tokens
  generalize splitLabel tokens = split at parsed suffix
  obtain ⟨label, rest⟩ := split
  dsimp only at parsed suffix
  split at parsed
  · cases parsed
    cases states
  · rename_i token more
    obtain ⟨⟨parsedStatement, left⟩, found, last⟩ := ok_of_bind parsed
    split at last
    · cases last
      cases states
      have bound := readStatement_extent found (solid.of_suffix suffix)
      exact Nat.le_trans bound (Token.extent_le_of_suffix suffix)
    · cases last

theorem parse_extent {text : List Char} {line : Line} {statement : Statement}
    (read : parse text = .ok line) (states : line.statement = some statement) :
    operandsExtent statement.operands ≤ Text.byteLength text :=
  Nat.le_trans (ofTokens_extent read states (Token.solid_significantTokens text))
    (Token.extent_significantTokens_le text)

end Line

end EightBit
