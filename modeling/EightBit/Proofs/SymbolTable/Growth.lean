import EightBit.Expr
import EightBit.SymbolTable
import EightBit.Proofs.Outcome

namespace EightBit

namespace Expr

variable {few many : Ident → Option Int64}

theorem eval_mono (more : ∀ ident value, few ident = some value → many ident = some value)
    {expr : Expr} {value : Int64} (known : expr.eval few = .ok value) :
    expr.eval many = .ok value := by
  induction expr generalizing value with
  | number n => exact known
  | symbol ident =>
      rw [eval_symbol] at known ⊢
      cases found : few ident with
      | none =>
          rw [found] at known
          cases known
      | some v =>
          rw [found] at known
          rw [more ident v found]
          exact known
  | unary op operand ih =>
      rw [eval_unary] at known ⊢
      rcases ok_of_map known with ⟨inner, found, rfl⟩
      rw [ih found]
      rfl
  | binary op left right ihl ihr =>
      rw [eval_binary] at known ⊢
      obtain ⟨first, foundFirst, rest⟩ := ok_of_bind known
      rcases ok_of_map rest with ⟨second, foundSecond, rfl⟩
      rw [ihl foundFirst, ihr foundSecond]
      rfl

theorem eval_congr {expr : Expr} (same : ∀ ident ∈ expr.symbols, few ident = many ident) :
    expr.eval few = expr.eval many := by
  induction expr with
  | number n => rfl
  | symbol ident => rw [eval_symbol, eval_symbol, same ident List.mem_cons_self]
  | unary op operand ih => rw [eval_unary, eval_unary, ih same]
  | binary op left right ihl ihr =>
      have sameLeft := ihl fun ident member => same ident (List.mem_append_left _ member)
      have sameRight := ihr fun ident member => same ident (List.mem_append_right _ member)
      rw [eval_binary, eval_binary, sameLeft, sameRight]

theorem known_of_eval {expr : Expr} {value : Int64} (known : expr.eval few = .ok value) :
    ∀ ident ∈ expr.symbols, (few ident).isSome := by
  induction expr generalizing value with
  | number n => simp [symbols]
  | symbol ident =>
      intro other member
      rw [symbols, List.mem_singleton] at member
      subst member
      rw [eval_symbol] at known
      cases found : few other with
      | none =>
          rw [found] at known
          cases known
      | some v => rfl
  | unary op operand ih =>
      rw [eval_unary] at known
      rcases ok_of_map known with ⟨inner, found, -⟩
      exact ih found
  | binary op left right ihl ihr =>
      rw [eval_binary] at known
      obtain ⟨first, foundFirst, rest⟩ := ok_of_bind known
      rcases ok_of_map rest with ⟨second, foundSecond, -⟩
      intro ident member
      rcases List.mem_append.mp member with member | member
      · exact ihl foundFirst ident member
      · exact ihr foundSecond ident member

end Expr

namespace SymbolTable

def evaluate (table : SymbolTable) (expr : Expr) : Except Ident Int64 :=
  expr.eval fun ident => table.value? ident.name

/-- The larger table keeps the smaller one, and its other symbols are defined on `lines`. -/
structure Grows (lines : Nat → Prop) (small large : SymbolTable) : Prop where
  kept {name : String} {symbol : Symbol} :
    small.lookup name = some symbol → large.lookup name = some symbol
  fresh {name : String} {symbol : Symbol} :
    large.lookup name = some symbol → small.lookup name = some symbol ∨ lines symbol.line

variable {lines more : Nat → Prop} {small middle large : SymbolTable}

theorem Grows.refl (table : SymbolTable) : Grows lines table table := ⟨id, Or.inl⟩

theorem Grows.trans (first : Grows lines small middle) (second : Grows lines middle large) :
    Grows lines small large := by
  refine ⟨fun found => second.kept (first.kept found), fun found => ?_⟩
  rcases second.fresh found with old | new
  · exact first.fresh old
  · exact Or.inr new

theorem Grows.mono (grows : Grows lines small large) (wider : ∀ line, lines line → more line) :
    Grows more small large :=
  ⟨grows.kept, fun found => (grows.fresh found).imp_right (wider _)⟩

theorem lookup_self_of_add {name : String} {symbol : Symbol}
    (added : small.add name symbol = .ok large) : large.lookup name = some symbol := by
  have absent : small.lookup name = none := by
    cases found : small.lookup name with
    | none => rfl
    | some existing =>
        rw [add_eq_error_iff.mpr found] at added
        cases added
  rw [lookup_add added, absent, if_pos rfl, Option.none_or]

theorem grows_add {name : String} {symbol : Symbol} (defined : lines symbol.line)
    (added : small.add name symbol = .ok large) : Grows lines small large := by
  constructor
  · intro other existing found
    rw [lookup_add added, found]
    rfl
  · intro other existing found
    rw [lookup_add added, Option.or_eq_some_iff] at found
    rcases found with old | ⟨-, new⟩
    · exact Or.inl old
    · split at new
      · cases new
        exact Or.inr defined
      · cases new

theorem Grows.evaluate (grows : Grows lines small large) {expr : Expr} {value : Int64}
    (known : small.evaluate expr = .ok value) : large.evaluate expr = .ok value := by
  refine Expr.eval_mono (fun ident v found => ?_) known
  rcases Option.map_eq_some_iff.mp found with ⟨symbol, present, rfl⟩
  rw [value?, grows.kept present]
  rfl

theorem value?_of_constant? {table : SymbolTable} {name : String} {value : Int64}
    (found : table.constant? name = some value) : table.value? name = some value := by
  rcases Option.map_eq_some_iff.mp found with ⟨symbol, present, rfl⟩
  rw [value?, (Option.filter_eq_some_iff.mp present).1]
  rfl

def DefinedBy (table : SymbolTable) (line : Nat) (expr : Expr) : Prop :=
  ∀ ident ∈ expr.symbols, ∃ symbol, table.lookup ident.name = some symbol ∧ symbol.line ≤ line

/-- What a table knows of an expression can be told from any later table, by the lines of its
symbols. -/
theorem Grows.evaluate_eq_ok_iff {line : Nat} {expr : Expr} {value : Int64}
    (grows : Grows (line < ·) small large)
    (early : ∀ name symbol, small.lookup name = some symbol → symbol.line ≤ line) :
    small.evaluate expr = .ok value ↔
      large.DefinedBy line expr ∧ large.evaluate expr = .ok value := by
  constructor
  · intro known
    refine ⟨fun ident member => ?_, grows.evaluate known⟩
    have asked := Expr.known_of_eval known ident member
    obtain ⟨v, valued⟩ := Option.isSome_iff_exists.mp asked
    rcases Option.map_eq_some_iff.mp valued with ⟨symbol, found, -⟩
    exact ⟨symbol, grows.kept found, early _ _ found⟩
  · rintro ⟨defined, known⟩
    rw [← known]
    refine Expr.eval_congr fun ident member => ?_
    obtain ⟨symbol, found, before⟩ := defined ident member
    rcases grows.fresh found with old | late
    · rw [value?, value?, old, found]
    · exact absurd before (Nat.not_le.mpr late)

end SymbolTable

end EightBit
