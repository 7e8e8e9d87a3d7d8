import EightBit.Proofs.Line.Alike
import EightBit.Proofs.Token.Boundary

namespace EightBit

variable {P : Nat → Prop}

/-! Parts of a line whose spans all start and stop at places of a kind. -/

def Expr.EndsAt (P : Nat → Prop) (expr : Expr) : Prop :=
  ∀ ident ∈ expr.symbols, ident.span.EndsAt P

def OperandKind.EndsAt (P : Nat → Prop) : OperandKind → Prop
  | .immediate expr | .value expr | .indirect expr => expr.EndsAt P
  | .register _ | .string _ => True

structure Operand.EndsAt (P : Nat → Prop) (operand : Operand) : Prop where
  kind : operand.kind.EndsAt P
  span : operand.span.EndsAt P

def Statement.EndsAt (P : Nat → Prop) : Statement → Prop
  | constant name value => name.span.EndsAt P ∧ value.EndsAt P
  | directive name operands | instruction name operands =>
    name.span.EndsAt P ∧ ∀ operand ∈ operands, operand.EndsAt P

structure Line.EndsAt (P : Nat → Prop) (line : Line) : Prop where
  label : ∀ label ∈ line.label, label.span.EndsAt P
  statement : ∀ statement ∈ line.statement, statement.EndsAt P

theorem Expr.endsAt_unary {op : UnaryOp} {operand : Expr} :
    (unary op operand).EndsAt P ↔ operand.EndsAt P := Iff.rfl

theorem Expr.endsAt_binary {op : BinaryOp} {left right : Expr} :
    (binary op left right).EndsAt P ↔ left.EndsAt P ∧ right.EndsAt P := List.forall_mem_append

theorem Expr.EndsAt.gives_eval {expr : Expr} (ends : expr.EndsAt P)
    (lookup : Ident → Option Int64) :
    Gives (fun ident => ident.span.EndsAt P) (fun _ => True) (expr.eval lookup) := by
  induction expr with
  | number value => exact .ok trivial
  | symbol ident =>
      rw [eval_symbol]
      cases lookup ident with
      | none => exact .error (ends ident (List.mem_singleton_self ident))
      | some value => exact .ok trivial
  | unary op operand ih =>
      rw [eval_unary]
      exact (ih (endsAt_unary.mp ends)).map fun _ _ => trivial
  | binary op left right before behind =>
      obtain ⟨first, second⟩ := endsAt_binary.mp ends
      rw [eval_binary]
      exact (before first).bind fun _ _ => (behind second).map fun _ _ => trivial

abbrev TokensEndAt (P : Nat → Prop) (tokens : List Token) : Prop :=
  ∀ token ∈ tokens, token.span.EndsAt P

structure Reading.EndsAt {α : Type} (P : Nat → Prop) (holds : α → Prop) (reading : Reading α) :
    Prop where
  value : holds reading.value
  stop : P reading.stop
  rest : TokensEndAt P reading.rest

/-- What a reader gives, with all its parts or its fault between places of a kind. -/
abbrev GivesAt {α : Type} (P : Nat → Prop) (R : α → Prop) : Except LineError α → Prop :=
  Gives (fun error => error.span.EndsAt P) R

namespace Token

variable {token : Token}

theorem gives_number (ends : token.span.EndsAt P) (base : Nat) (digits : List Char) :
    GivesAt P (Expr.EndsAt P) (token.number base digits) := by
  unfold number
  split
  · exact .error ends
  · split
    · exact .ok (List.forall_mem_nil _)
    · exact .error ends

theorem gives_leaf (ends : token.span.EndsAt P) : GivesAt P (Expr.EndsAt P) token.leaf := by
  unfold leaf
  split
  · exact .ok (List.forall_mem_singleton.mpr ends)
  · exact gives_number ends _ _
  · exact gives_number ends _ _
  · exact gives_number ends _ _
  · split
    · exact .ok (List.forall_mem_nil _)
    · exact .error ends
  · exact .error ends
  · exact .error ends

theorem gives_check (ends : token.span.EndsAt P) : GivesAt P (fun _ => True) token.check := by
  unfold check
  split
  · exact .error ends
  · exact .error ends
  · exact .error ends
  · exact .ok trivial

theorem gives_forM_check {tokens : List Token} (ends : TokensEndAt P tokens) :
    GivesAt P (fun _ => True) (tokens.forM check) := by
  induction tokens with
  | nil => exact .ok trivial
  | cons first rest ih =>
      rw [TokensEndAt, List.forall_mem_cons] at ends
      exact (gives_check ends.1).bind fun _ _ => ih ends.2

end Token

namespace Line

variable {eol : Nat} {first : Bool} {token : Token} {tokens rest : List Token}

theorem gives_readTerm (last : P eol) (ends : TokensEndAt P tokens) :
    GivesAt P (Reading.EndsAt P (Expr.EndsAt P)) (readTerm eol tokens) := by
  induction tokens with
  | nil => exact .error (Span.endsAt_empty last)
  | cons token rest ih =>
      obtain ⟨now, later⟩ := List.forall_mem_cons.mp ends
      rw [readTerm]
      split
      · exact (ih later).map fun inner holds => ⟨holds.value, holds.stop, holds.rest⟩
      · exact (Token.gives_leaf now).map fun expr holds => ⟨holds, now.stop, later⟩

theorem gives_readOperators (last : P eol) {left : Reading Expr}
    (ends : left.EndsAt P (Expr.EndsAt P)) :
    GivesAt P (Reading.EndsAt P (Expr.EndsAt P)) (readOperators eol left) := by
  fun_induction readOperators eol left with
  | case1 left none => exact .ok ends
  | case2 left next more after other => exact .ok ends
  | case3 left next more after op sign error failed =>
      have later := (List.forall_mem_cons.mp (after ▸ ends.rest)).2
      exact .error ((gives_readTerm last later).of_error failed)
  | case4 left next more after op sign right found ih =>
      have later := (List.forall_mem_cons.mp (after ▸ ends.rest)).2
      have term := (gives_readTerm last later).of_ok found
      exact ih ⟨Expr.endsAt_binary.mpr ⟨ends.value, term.value⟩, term.stop, term.rest⟩

theorem gives_readExpression (last : P eol) (ends : TokensEndAt P tokens) :
    GivesAt P (Reading.EndsAt P (Expr.EndsAt P)) (readExpression eol tokens) :=
  (gives_readTerm last ends).bind fun _ left => gives_readOperators last left

theorem gives_readOperandKind (last : P eol) (now : token.span.EndsAt P)
    (later : TokensEndAt P rest) :
    GivesAt P (Reading.EndsAt P (OperandKind.EndsAt P)) (readOperandKind eol first token rest) := by
  unfold readOperandKind
  split
  · apply (gives_readExpression last later).bind
    intro inner ends
    exact .ok ⟨ends.value, ends.stop, ends.rest⟩
  · apply (gives_readExpression last later).bind
    rintro ⟨value, stop, left⟩ ⟨value_ends, -, left_ends⟩
    cases left with
    | nil => exact .error (Span.endsAt_empty last)
    | cons next more =>
        obtain ⟨next_ends, more_ends⟩ := List.forall_mem_cons.mp left_ends
        dsimp only
        split
        · exact .ok ⟨value_ends, next_ends.stop, more_ends⟩
        · exact .error next_ends
  · exact .ok ⟨trivial, now.stop, later⟩
  · split
    · exact .ok ⟨trivial, now.stop, later⟩
    · apply (gives_readExpression last (List.forall_mem_cons.mpr ⟨now, later⟩)).bind
      intro inner ends
      exact .ok ⟨ends.value, ends.stop, ends.rest⟩

theorem gives_readOperand (last : P eol) (ends : TokensEndAt P tokens) :
    GivesAt P (Reading.EndsAt P (Operand.EndsAt P)) (readOperand eol first tokens) := by
  cases tokens with
  | nil => exact .error (Span.endsAt_empty last)
  | cons token rest =>
      obtain ⟨now, later⟩ := List.forall_mem_cons.mp ends
      apply (gives_readOperandKind last now later).bind
      intro kind ends
      exact .ok ⟨⟨ends.value, Span.endsAt_between now.start ends.stop⟩, ends.stop, ends.rest⟩

def ListEndsAt (P : Nat → Prop) (read : List Operand × List Token) : Prop :=
  (∀ operand ∈ read.1, operand.EndsAt P) ∧ TokensEndAt P read.2

theorem gives_readOperandList (last : P eol) (ends : TokensEndAt P tokens) :
    GivesAt P (ListEndsAt P) (readOperandList eol first tokens) := by
  fun_induction readOperandList eol first tokens with
  | case1 first tokens error failed => exact .error ((gives_readOperand last ends).of_error failed)
  | case2 first tokens reading found none =>
      have operand := (gives_readOperand last ends).of_ok found
      exact .ok ⟨List.forall_mem_singleton.mpr operand.value, List.forall_mem_nil _⟩
  | case3 first tokens reading found next more after comma ih =>
      have operand := (gives_readOperand last ends).of_ok found
      have later := (List.forall_mem_cons.mp (after ▸ operand.rest)).2
      exact (ih later).map fun read holds =>
        ⟨List.forall_mem_cons.mpr ⟨operand.value, holds.1⟩, holds.2⟩
  | case4 first tokens reading found next more after other =>
      have operand := (gives_readOperand last ends).of_ok found
      exact .ok ⟨List.forall_mem_singleton.mpr operand.value, after ▸ operand.rest⟩

theorem gives_readOperands (last : P eol) (ends : TokensEndAt P tokens) :
    GivesAt P (ListEndsAt P) (readOperands eol tokens) := by
  cases tokens with
  | nil => exact .ok ⟨List.forall_mem_nil _, List.forall_mem_nil _⟩
  | cons token rest => exact gives_readOperandList last ends

theorem endsAt_splitLabel (ends : TokensEndAt P tokens) :
    (∀ label ∈ (splitLabel tokens).1, label.span.EndsAt P) ∧
      TokensEndAt P (splitLabel tokens).2 := by
  unfold splitLabel
  split
  · rename_i name colon rest
    obtain ⟨name_ends, later⟩ := List.forall_mem_cons.mp ends
    split
    · refine ⟨?_, (List.forall_mem_cons.mp later).2⟩
      rintro label ⟨⟩
      exact name_ends
    · exact ⟨nofun, ends⟩
  · exact ⟨nofun, ends⟩

theorem gives_readStatement (last : P eol) {label : Option Ident}
    (labelled : ∀ ident ∈ label, ident.span.EndsAt P) (now : token.span.EndsAt P)
    (later : TokensEndAt P rest) :
    GivesAt P (fun read => read.1.EndsAt P ∧ TokensEndAt P read.2)
      (readStatement eol label token rest) := by
  unfold readStatement
  split
  · split
    · exact .error (labelled _ rfl)
    · have value : TokensEndAt P rest.tail := fun other member =>
        later other (List.mem_of_mem_tail member)
      exact (gives_readExpression last value).map fun read holds =>
        ⟨⟨now, holds.value⟩, holds.rest⟩
  · split
    · exact (gives_readOperands last later).map fun read holds => ⟨⟨now, holds.1⟩, holds.2⟩
    · exact (gives_readOperands last later).map fun read holds => ⟨⟨now, holds.1⟩, holds.2⟩
    · exact .error now

theorem gives_ofTokens (last : P eol) (ends : TokensEndAt P tokens) :
    GivesAt P (Line.EndsAt P) (ofTokens eol tokens) := by
  apply (Token.gives_forM_check ends).bind
  intro _ _
  obtain ⟨labelled, others⟩ := endsAt_splitLabel ends
  generalize splitLabel tokens = split at labelled others
  obtain ⟨label, rest⟩ := split
  dsimp only at labelled others ⊢
  cases rest with
  | nil => exact .ok ⟨labelled, nofun⟩
  | cons token rest =>
      obtain ⟨now, later⟩ := List.forall_mem_cons.mp others
      apply (gives_readStatement last labelled now later).bind
      rintro ⟨statement, left⟩ ⟨states, extra⟩
      cases left with
      | nil =>
          refine .ok ⟨labelled, ?_⟩
          rintro other ⟨⟩
          exact states
      | cons next more => exact .error (extra next List.mem_cons_self)

theorem gives_parse (text : List Char) :
    GivesAt (Text.Boundary text) (Line.EndsAt (Text.Boundary text)) (parse text) := by
  have ends : TokensEndAt (Text.Boundary text) (Token.significantTokens text) :=
    fun token member => Token.endsAt_of_mem_significantTokens member
  refine gives_ofTokens ?_ ends
  cases last : (Token.significantTokens text).getLast? with
  | none => exact Text.boundary_zero text
  | some token => exact (ends token (List.mem_of_getLast? last)).stop

end Line

end EightBit
