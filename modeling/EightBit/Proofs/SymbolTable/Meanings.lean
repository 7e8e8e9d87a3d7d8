import EightBit.Proofs.SymbolTable.Growth

namespace EightBit

def Symbol.meaning (symbol : Symbol) : Int64 × SymbolKind := (symbol.value, symbol.kind)

namespace SymbolTable

def meanings (table : SymbolTable) : List (String × Int64 × SymbolKind) :=
  table.entries.map fun (name, symbol) => (name, symbol.meaning)

variable {table other : SymbolTable}

theorem lookup_meanings (table : SymbolTable) (name : String) :
    table.meanings.lookup (key name) = (table.lookup name).map Symbol.meaning := by
  rw [meanings, lookup]
  generalize key name = wanted
  induction table.entries with
  | nil => rfl
  | cons entry rest ih =>
      rw [List.map_cons, List.lookup_cons, List.lookup_cons, ih]
      split <;> rfl

section Same

variable (same : table.meanings = other.meanings)

include same

theorem lookup_of_meanings (name : String) :
    (table.lookup name).map Symbol.meaning = (other.lookup name).map Symbol.meaning := by
  rw [← lookup_meanings, ← lookup_meanings, same]

theorem value?_of_meanings (name : String) : table.value? name = other.value? name := by
  have found := congrArg (Option.map Prod.fst) (lookup_of_meanings same name)
  rwa [Option.map_map, Option.map_map] at found

theorem constant?_of_meanings (name : String) : table.constant? name = other.constant? name := by
  have found := congrArg (fun meaning => (meaning.filter (·.2 = .constant)).map Prod.fst)
    (lookup_of_meanings same name)
  simp only [Option.filter_map, Option.map_map] at found
  exact found

theorem evaluate_of_meanings (expr : Expr) : table.evaluate expr = other.evaluate expr := by
  have values : (fun ident : Ident => table.value? ident.name) =
      fun ident => other.value? ident.name :=
    funext fun ident => value?_of_meanings same ident.name
  rw [evaluate, evaluate, values]

theorem add_of_meanings {name : String} {symbol symbol' : Symbol} {larger : SymbolTable}
    (alike : symbol.meaning = symbol'.meaning) (added : table.add name symbol = .ok larger) :
    ∃ larger', other.add name symbol' = .ok larger' ∧ larger.meanings = larger'.meanings := by
  have found := lookup_of_meanings same name
  unfold add at added ⊢
  split at added
  · cases added
  · rename_i free
    rw [free] at found
    have absent : other.lookup name = none := Option.map_eq_none_iff.mp found.symm
    cases added
    refine ⟨_, by rw [absent], ?_⟩
    rw [meanings, List.map_append, ← meanings, same, meanings, meanings, List.map_append]
    simp only [List.map_cons, List.map_nil, alike]

end Same

def meaningPrecedes (first second : String × Int64 × SymbolKind) : Bool :=
  first.2.1 < second.2.1 || (first.2.1 = second.2.1 && first.1 ≤ second.1)

theorem meanings_sort (table : SymbolTable) :
    table.sort.meanings = table.meanings.mergeSort meaningPrecedes := by
  rw [sort, meanings, meanings]
  exact List.map_mergeSort fun _ _ _ _ => rfl

end SymbolTable

end EightBit
