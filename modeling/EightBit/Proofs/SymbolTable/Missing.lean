import EightBit.Proofs.SymbolTable.Growth

namespace EightBit

namespace SymbolTable

def missing? (table : SymbolTable) (idents : List Ident) : Option Ident :=
  idents.find? fun ident => !table.contains ident.name

variable {table : SymbolTable} {idents : List Ident}

theorem missing?_append (front back : List Ident) :
    table.missing? (front ++ back) = (table.missing? front).or (table.missing? back) :=
  List.find?_append

theorem missing?_eq_none_iff :
    table.missing? idents = none ↔ ∀ ident ∈ idents, table.contains ident.name = true := by
  simp [missing?]

theorem missing?_eq_some_iff {ident : Ident} :
    table.missing? idents = some ident ↔ ∃ front back, idents = front ++ ident :: back ∧
      (∀ other ∈ front, table.contains other.name = true) ∧
      table.contains ident.name = false := by
  rw [missing?, List.find?_eq_some_iff_append]
  constructor
  · rintro ⟨absent, front, back, split, known⟩
    refine ⟨front, back, split, fun other member => ?_, by simpa using absent⟩
    simpa using known other member
  · rintro ⟨front, back, split, known, absent⟩
    refine ⟨by simpa using absent, front, back, split, fun other member => ?_⟩
    simpa using known other member

end SymbolTable

/-- A computation that needs some names: it has a value if none of them is missing, and otherwise
it reports the one that is. -/
inductive StopsAt {ε α : Type} (report : Ident → ε) : Option Ident → Except ε α → Prop
  | value (value : α) : StopsAt report none (.ok value)
  | missing (ident : Ident) : StopsAt report (some ident) (.error (report ident))

namespace StopsAt

variable {ε α β : Type} {report : Ident → ε} {first second : Option Ident} {result : Except ε α}

theorem bind {next : α → Except ε β} (now : StopsAt report first result)
    (later : ∀ value, result = .ok value → StopsAt report second (next value)) :
    StopsAt report (first.or second) (result.bind next) := by
  cases now with
  | value value => exact later value rfl
  | missing ident => exact .missing ident

theorem bind_ok {next : α → Except ε β} (now : StopsAt report first result)
    (later : ∀ value, result = .ok value → ∃ made, next value = .ok made) :
    StopsAt report first (result.bind next) := by
  cases now with
  | value value =>
      obtain ⟨made, answered⟩ := later value rfl
      rw [Except.bind, answered]
      exact .value made
  | missing ident => exact .missing ident

theorem map (now : StopsAt report first result) (f : α → β) :
    StopsAt report first (result.map f) := by
  cases now with
  | value value => exact .value (f value)
  | missing ident => exact .missing ident

theorem mapError {δ : Type} (now : StopsAt report first result) (f : ε → δ) :
    StopsAt (f ∘ report) first (result.mapError f) := by
  cases now with
  | value value => exact .value value
  | missing ident => exact .missing ident

theorem exists_ok_iff (now : StopsAt report first result) :
    (∃ value, result = .ok value) ↔ first = none := by
  cases now with
  | value value => exact iff_of_true ⟨value, rfl⟩ rfl
  | missing ident => exact iff_of_false nofun nofun

theorem eq_error {ident : Ident} (now : StopsAt report (some ident) result) :
    result = .error (report ident) := by
  cases now
  rfl

end StopsAt

theorem SymbolTable.stopsAt_evaluate (table : SymbolTable) (expr : Expr) :
    StopsAt id (table.missing? expr.symbols) (table.evaluate expr) := by
  unfold evaluate
  induction expr with
  | number n => exact .value n
  | symbol ident =>
      rw [Expr.eval_symbol, value?]
      cases found : table.lookup ident.name with
      | none =>
          have absent : table.missing? [ident] = some ident := by simp [missing?, contains, found]
          rw [Expr.symbols, absent]
          exact .missing ident
      | some symbol =>
          have present : table.missing? [ident] = none := by simp [missing?, contains, found]
          rw [Expr.symbols, present]
          exact .value symbol.value
  | unary op operand ih =>
      rw [Expr.eval_unary]
      exact ih.map op.apply
  | binary op left right ihl ihr =>
      rw [Expr.eval_binary, Expr.symbols, missing?_append]
      exact ihl.bind fun first _ => ihr.map (op.apply first)

end EightBit
