import Mathlib.Data.List.Forall2
import EightBit.Line.Parser
import EightBit.Proofs.Outcome
import EightBit.Proofs.Text.Capitals

namespace EightBit

def TokenKind.quoted : TokenKind → Bool
  | character _ | string _ => true
  | _ => false

/-- Tokens that mean the same, wherever they stand: in quotes only the same text does, anywhere
else the same text in capitals. -/
structure Token.Alike (first second : Token) : Prop where
  kind : first.kind = second.kind
  capitals : Text.upperCase first.text = Text.upperCase second.text
  quoted : first.kind.quoted = true → first.text = second.text

instance : DecidableRel Token.Alike := fun first second =>
  decidable_of_iff
    (first.kind = second.kind ∧ Text.upperCase first.text = Text.upperCase second.text ∧
      (first.kind.quoted = true → first.text = second.text))
    ⟨fun ⟨kind, capitals, quoted⟩ => ⟨kind, capitals, quoted⟩,
      fun ⟨kind, capitals, quoted⟩ => ⟨kind, capitals, quoted⟩⟩

def TextAlike (text text' : List Char) : Prop :=
  List.Forall₂ Token.Alike (Token.significantTokens text) (Token.significantTokens text')

def SourceAlike (source source' : List Char) : Prop :=
  List.Forall₂ TextAlike (Text.lines source) (Text.lines source')

instance : DecidableRel TextAlike := fun _ _ =>
  inferInstanceAs (Decidable (List.Forall₂ Token.Alike _ _))

instance : DecidableRel SourceAlike := fun _ _ =>
  inferInstanceAs (Decidable (List.Forall₂ TextAlike _ _))

theorem Token.Alike.symm {first second : Token} (alike : first.Alike second) :
    second.Alike first :=
  ⟨alike.kind.symm, alike.capitals.symm,
    fun quoted => (alike.quoted (alike.kind ▸ quoted)).symm⟩

theorem TextAlike.symm {text text' : List Char} (alike : TextAlike text text') :
    TextAlike text' text := alike.flip.imp fun _ _ same => Token.Alike.symm same

theorem SourceAlike.symm {source source' : List Char} (alike : SourceAlike source source') :
    SourceAlike source' source := alike.flip.imp fun _ _ same => TextAlike.symm same

/-! What is left of a line when it is forgotten where its parts stand. -/

def Ident.bare (ident : Ident) : Ident := ⟨ident.name, ⟨0, 0⟩⟩

def Expr.bare : Expr → Expr
  | number value => number value
  | symbol ident => symbol ident.bare
  | unary op operand => unary op operand.bare
  | binary op left right => binary op left.bare right.bare

@[simp]
theorem Ident.name_bare (ident : Ident) : ident.bare.name = ident.name := rfl

@[simp]
theorem Expr.bare_bare (expr : Expr) : expr.bare.bare = expr.bare := by
  induction expr with
  | number | symbol => rfl
  | unary op operand ih => simp [bare, ih]
  | binary op left right ihl ihr => simp [bare, ihl, ihr]

def OperandKind.bare : OperandKind → OperandKind
  | immediate expr => immediate expr.bare
  | value expr => value expr.bare
  | indirect expr => indirect expr.bare
  | register name => register name
  | string text => string text

def Operand.bare (operand : Operand) : Operand := ⟨operand.kind.bare, ⟨0, 0⟩⟩

def Statement.bare : Statement → Statement
  | constant name value => constant name.bare value.bare
  | directive name operands => directive name.bare (operands.map Operand.bare)
  | instruction name operands => instruction name.bare (operands.map Operand.bare)

def Line.bare (line : Line) : Line :=
  ⟨line.label.map Ident.bare, line.statement.map Statement.bare⟩

namespace Token

variable {first second : Token}

theorem Alike.ident (alike : first.Alike second) : first.ident.bare = second.ident.bare := by
  simp [Token.ident, Ident.bare, alike.capitals]

theorem Alike.name (alike : first.Alike second) : first.ident.name = second.ident.name :=
  alike.capitals

theorem Alike.unary? (alike : first.Alike second) : first.unary? = second.unary? := by
  simp only [Token.unary?, alike.kind]

theorem Alike.binary? (alike : first.Alike second) : first.binary? = second.binary? := by
  simp only [Token.binary?, alike.kind]

theorem Alike.meaning (alike : first.Alike second) (literal : first.kind.quoted = true) :
    first.meaning = second.meaning := by
  simp only [Token.meaning, alike.quoted literal]

theorem agree_number {base : Nat} {digits others : List Char}
    (same : digits.map Char.toUpper = others.map Char.toUpper) :
    Agree (fun _ _ => True) (·.bare = ·.bare) (first.number base digits)
      (second.number base others) := by
  have empty : digits.isEmpty = others.isEmpty := by
    rw [← List.isEmpty_map (f := Char.toUpper), same, List.isEmpty_map]
  have value : Text.readDigits base 0 digits = Text.readDigits base 0 others := by
    rw [← Text.readDigits_toUpper, same, Text.readDigits_toUpper]
  simp only [Token.number, empty, value]
  split
  · exact .error trivial
  · split
    · exact .ok rfl
    · exact .error trivial

theorem Alike.leaf (alike : first.Alike second) :
    Agree (fun _ _ => True) (·.bare = ·.bare) first.leaf second.leaf := by
  have kind := alike.kind
  have capitals := Text.upperCase_inj.mp alike.capitals
  have digits : first.text.tail.map Char.toUpper = second.text.tail.map Char.toUpper := by
    rw [List.map_tail, capitals, List.map_tail]
  unfold Token.leaf
  rw [← kind]
  cases word : first.kind with
  | identifier => exact .ok (congrArg Expr.symbol alike.ident)
  | hexadecimal => exact agree_number digits
  | binary => exact agree_number digits
  | decimal => exact agree_number capitals
  | character closed =>
      rw [alike.meaning (by rw [word]; rfl)]
      dsimp only
      split
      · exact .ok rfl
      · exact .error trivial
  | _ => exact .error trivial

theorem Alike.check (alike : first.Alike second) :
    Agree (fun _ _ => True) Eq first.check second.check := by
  unfold Token.check
  rw [← alike.kind]
  split
  · exact .error trivial
  · exact .error trivial
  · exact .error trivial
  · exact .ok rfl

theorem agree_check {tokens others : List Token} (alike : List.Forall₂ Alike tokens others) :
    Agree (fun _ _ => True) Eq (tokens.forM check) (others.forM check) := by
  induction alike with
  | nil => exact .ok rfl
  | cons first rest ih => exact first.check.bind fun _ _ _ _ => ih

end Token

structure Reading.Alike {α : Type} (bare : α → α) (first second : Reading α) : Prop where
  value : bare first.value = bare second.value
  rest : List.Forall₂ Token.Alike first.rest second.rest

namespace Line

abbrev AgreeOn {α : Type} (bare : α → α) :
    Except LineError (Reading α) → Except LineError (Reading α) → Prop :=
  Agree (fun _ _ => True) (Reading.Alike bare)

variable {eol eol' : Nat} {first : Bool} {token token' : Token} {tokens tokens' : List Token}

theorem agree_readTerm (alike : List.Forall₂ Token.Alike tokens tokens') :
    AgreeOn Expr.bare (readTerm eol tokens) (readTerm eol' tokens') := by
  induction alike with
  | nil => exact .error trivial
  | cons same rest ih =>
      rw [readTerm, readTerm, ← same.unary?]
      split
      · rename_i op _
        exact ih.map fun inner inner' same => ⟨congrArg (Expr.unary op) same.value, same.rest⟩
      · exact same.leaf.map fun expr expr' same => ⟨same, rest⟩

/-- What follows an expression is an operator with a term, or nothing that belongs to it. -/
theorem readOperators_eq (left : Reading Expr) :
    readOperators eol left =
      match left.rest with
      | [] => .ok left
      | next :: more =>
        match next.binary? with
        | none => .ok left
        | some op => (readTerm eol more).bind fun right =>
          readOperators eol ⟨.binary op left.value right.value, right.stop, right.rest⟩ := by
  rw [readOperators]
  split
  · rename_i none
    rw [none]
  · rename_i next more after
    simp only [after]
    cases next.binary? with
    | none => rfl
    | some op =>
        dsimp only
        split
        · rename_i error found
          rw [found, Except.bind]
        · rename_i right found
          rw [found, Except.bind]

theorem agree_readOperators {left left' : Reading Expr} (alike : left.Alike Expr.bare left') :
    AgreeOn Expr.bare (readOperators eol left) (readOperators eol' left') := by
  -- The tokens left get fewer: a term takes one at least, and so does the operator before it.
  induction length : left.rest.length using Nat.strongRecOn generalizing left left' with
  | ind n ih =>
      obtain ⟨value, stop, tokens⟩ := left
      obtain ⟨value', stop', tokens'⟩ := left'
      obtain ⟨same, rest⟩ := alike
      rw [readOperators_eq, readOperators_eq]
      cases rest with
      | nil => exact .ok ⟨same, .nil⟩
      | cons next more =>
          simp only [← next.binary?]
          split
          · exact .ok ⟨same, .cons next more⟩
          · rename_i op _
            apply (agree_readTerm more).bind
            intro right right' found term
            have shorter : right.rest.length < n := by
              rw [← length]
              exact Nat.lt_succ_of_lt (readTerm_shorter found)
            exact ih _ shorter ⟨congrArg₂ (Expr.binary op) same term.value, term.rest⟩ rfl

theorem agree_readExpression (alike : List.Forall₂ Token.Alike tokens tokens') :
    AgreeOn Expr.bare (readExpression eol tokens) (readExpression eol' tokens') :=
  (agree_readTerm alike).bind fun _ _ _ left => agree_readOperators left

theorem indexRegister?_alike {rest rest' : List Token} (same : token.Alike token')
    (alike : List.Forall₂ Token.Alike rest rest') :
    indexRegister? first token rest = indexRegister? first token' rest' := by
  have next : rest.head?.any (·.kind ≠ .comma) = rest'.head?.any (·.kind ≠ .comma) := by
    cases alike with
    | nil => rfl
    | cons next _ => simp [next.kind]
  simp only [indexRegister?, same.kind, same.name, next]

theorem agree_readOperandKind {rest rest' : List Token} (same : token.Alike token')
    (alike : List.Forall₂ Token.Alike rest rest') :
    AgreeOn OperandKind.bare (readOperandKind eol first token rest)
      (readOperandKind eol' first token' rest') := by
  unfold readOperandKind
  rw [← same.kind]
  split
  · apply (agree_readExpression alike).bind
    intro inner inner' _ expr
    exact .ok ⟨congrArg OperandKind.immediate expr.value, expr.rest⟩
  · apply (agree_readExpression alike).bind
    rintro ⟨value, stop, more⟩ ⟨value', stop', more'⟩ - ⟨same, rest⟩
    cases rest with
    | nil => exact .error trivial
    | cons next others =>
        dsimp only
        rw [← next.kind]
        split
        · exact .ok ⟨congrArg OperandKind.indirect same, others⟩
        · exact .error trivial
  · rename_i closed string
    have meaning := same.meaning (by rw [string]; rfl)
    exact .ok ⟨congrArg OperandKind.string meaning, alike⟩
  · rw [← indexRegister?_alike same alike]
    split
    · exact .ok ⟨rfl, alike⟩
    · apply (agree_readExpression (.cons same alike)).bind
      intro inner inner' _ expr
      exact .ok ⟨congrArg OperandKind.value expr.value, expr.rest⟩

theorem agree_readOperand (alike : List.Forall₂ Token.Alike tokens tokens') :
    AgreeOn Operand.bare (readOperand eol first tokens) (readOperand eol' first tokens') := by
  cases alike with
  | nil => exact .error trivial
  | cons same rest =>
      apply (agree_readOperandKind same rest).bind
      intro kind kind' _ read
      exact .ok ⟨congrArg (Operand.mk · ⟨0, 0⟩) read.value, read.rest⟩

theorem readOperandList_eq (tokens : List Token) :
    readOperandList eol first tokens =
      (readOperand eol first tokens).bind fun reading =>
        match reading.rest with
        | [] => .ok ([reading.value], [])
        | next :: more =>
          if next.kind = .comma then
            (readOperandList eol false more).map fun (operands, rest) =>
              (reading.value :: operands, rest)
          else .ok ([reading.value], next :: more) := by
  rw [readOperandList]
  split
  · rename_i error found
    rw [found, Except.bind]
  · rename_i reading found
    rw [found, Except.bind]
    split
    · rename_i none
      rw [none]
    · rename_i next more after
      rw [after]

abbrev AgreeOnList : Except LineError (List Operand × List Token) →
    Except LineError (List Operand × List Token) → Prop :=
  Agree (fun _ _ => True) fun read read' =>
    read.1.map Operand.bare = read'.1.map Operand.bare ∧
      List.Forall₂ Token.Alike read.2 read'.2

theorem agree_readOperandList (alike : List.Forall₂ Token.Alike tokens tokens') :
    AgreeOnList (readOperandList eol first tokens) (readOperandList eol' first tokens') := by
  induction length : tokens.length using Nat.strongRecOn generalizing first tokens tokens' with
  | ind n ih =>
      rw [readOperandList_eq, readOperandList_eq]
      apply (agree_readOperand alike).bind
      rintro ⟨operand, stop, rest⟩ ⟨operand', stop', rest'⟩ found ⟨same, others⟩
      cases others with
      | nil => exact .ok ⟨congrArg (· :: []) same, .nil⟩
      | cons next more =>
          dsimp only
          rw [← next.kind]
          split
          · have shorter := readOperand_shorter found
            rw [length] at shorter
            apply (ih _ (Nat.lt_of_succ_lt shorter) more rfl).map
            intro read read' later
            exact ⟨congrArg₂ List.cons same later.1, later.2⟩
          · exact .ok ⟨congrArg (· :: []) same, .cons next more⟩

theorem agree_readOperands (alike : List.Forall₂ Token.Alike tokens tokens') :
    AgreeOnList (readOperands eol tokens) (readOperands eol' tokens') := by
  cases alike with
  | nil => exact .ok ⟨rfl, .nil⟩
  | cons same rest => exact agree_readOperandList (.cons same rest)

theorem splitLabel_alike (alike : List.Forall₂ Token.Alike tokens tokens') :
    (splitLabel tokens).1.map Ident.bare = (splitLabel tokens').1.map Ident.bare ∧
      List.Forall₂ Token.Alike (splitLabel tokens).2 (splitLabel tokens').2 := by
  cases alike with
  | nil => exact ⟨rfl, .nil⟩
  | cons first more =>
      cases more with
      | nil => exact ⟨rfl, .cons first .nil⟩
      | cons second rest =>
          simp only [splitLabel, ← first.kind, ← second.kind]
          split
          · exact ⟨congrArg some first.ident, rest⟩
          · exact ⟨rfl, .cons first (.cons second rest)⟩

theorem startsConstant_alike {rest rest' : List Token} (same : token.Alike token')
    (alike : List.Forall₂ Token.Alike rest rest') :
    startsConstant token rest = startsConstant token' rest' := by
  cases alike with
  | nil => simp [startsConstant]
  | cons next _ => simp [startsConstant, same.kind, next.kind]

theorem agree_readStatement {label label' : Option Ident} {rest rest' : List Token}
    (labels : label.map Ident.bare = label'.map Ident.bare) (same : token.Alike token')
    (alike : List.Forall₂ Token.Alike rest rest') :
    Agree (fun _ _ => True)
      (fun read read' => read.1.bare = read'.1.bare ∧ List.Forall₂ Token.Alike read.2 read'.2)
      (readStatement eol label token rest) (readStatement eol' label' token' rest') := by
  unfold readStatement
  rw [← startsConstant_alike same alike, ← same.kind]
  split
  · cases label with
    | some label =>
        cases label' with
        | some label' => exact .error trivial
        | none => cases labels
    | none =>
        cases label' with
        | some label' => cases labels
        | none =>
            have value : List.Forall₂ Token.Alike rest.tail rest'.tail := by
              cases alike with
              | nil => exact .nil
              | cons _ more => exact more
            apply (agree_readExpression value).map
            intro read read' expr
            exact ⟨congrArg₂ Statement.constant same.ident expr.value, expr.rest⟩
  · split
    · apply (agree_readOperands alike).map
      intro read read' operands
      exact ⟨congrArg₂ Statement.instruction same.ident operands.1, operands.2⟩
    · apply (agree_readOperands alike).map
      intro read read' operands
      exact ⟨congrArg₂ Statement.directive same.ident operands.1, operands.2⟩
    · exact .error trivial

theorem agree_ofTokens (alike : List.Forall₂ Token.Alike tokens tokens') :
    Agree (fun _ _ => True) (·.bare = ·.bare) (ofTokens eol tokens) (ofTokens eol' tokens') := by
  apply (Token.agree_check alike).bind
  intro _ _ _ _
  obtain ⟨labels, others⟩ := splitLabel_alike alike
  generalize splitLabel tokens = split at labels others
  generalize splitLabel tokens' = split' at labels others
  obtain ⟨label, rest⟩ := split
  obtain ⟨label', rest'⟩ := split'
  dsimp only at labels others ⊢
  cases others with
  | nil => exact .ok (congrArg (Line.mk · none) labels)
  | cons same rest =>
      apply (agree_readStatement labels same rest).bind
      rintro ⟨statement, left⟩ ⟨statement', left'⟩ - ⟨states, extra⟩
      cases extra with
      | nil => exact .ok (congrArg₂ Line.mk labels (congrArg some states))
      | cons => exact .error trivial

theorem agree_parse {text text' : List Char} (alike : TextAlike text text') :
    Agree (fun _ _ => True) (·.bare = ·.bare) (parse text) (parse text') :=
  agree_ofTokens alike

end Line

end EightBit
