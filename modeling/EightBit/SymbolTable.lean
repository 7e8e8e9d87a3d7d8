import EightBit.Text

namespace EightBit

inductive SymbolKind where
  | label
  | constant
  deriving DecidableEq

def SymbolKind.describe : SymbolKind → String
  | label => "label"
  | constant => "constant"

structure Symbol where
  value : Int64
  kind : SymbolKind
  line : Nat
  deriving DecidableEq

structure SymbolTable where
  entries : List (String × Symbol)
  deriving DecidableEq

namespace SymbolTable

def empty : SymbolTable := ⟨[]⟩

def key (name : String) : String := Text.upperCase name.toList

def lookup (table : SymbolTable) (name : String) : Option Symbol := table.entries.lookup (key name)

/-- Fails with the symbol that has the name already. -/
def add (table : SymbolTable) (name : String) (symbol : Symbol) : Except Symbol SymbolTable :=
  match table.lookup name with
  | some existing => .error existing
  | none => .ok ⟨table.entries ++ [(key name, symbol)]⟩

def value? (table : SymbolTable) (name : String) : Option Int64 :=
  (table.lookup name).map (·.value)

def constant? (table : SymbolTable) (name : String) : Option Int64 :=
  ((table.lookup name).filter (·.kind = .constant)).map (·.value)

def contains (table : SymbolTable) (name : String) : Bool := (table.lookup name).isSome

def size (table : SymbolTable) : Nat := table.entries.length

def isEmpty (table : SymbolTable) : Bool := table.entries.isEmpty

/-- The order by value, and by name where values are equal. -/
def precedes (first second : String × Symbol) : Bool :=
  first.2.value < second.2.value || (first.2.value = second.2.value && first.1 ≤ second.1)

def sort (table : SymbolTable) : SymbolTable := ⟨table.entries.mergeSort precedes⟩

theorem add_eq_error_iff {table : SymbolTable} {name : String} {symbol existing : Symbol} :
    table.add name symbol = .error existing ↔ table.lookup name = some existing := by
  unfold add
  split <;> simp_all

theorem lookup_add {table larger : SymbolTable} {name : String} {symbol : Symbol}
    (added : table.add name symbol = .ok larger) (other : String) :
    larger.lookup other =
      (table.lookup other).or (if key other = key name then some symbol else none) := by
  unfold add at added
  split at added
  · cases added
  · cases added
    simp only [lookup, List.lookup_append, List.lookup_cons, List.lookup_nil]
    by_cases same : key other = key name
    · simp [same]
    · simp [same, beq_false_of_ne same]

end SymbolTable

end EightBit
