import Mathlib.Data.List.Induction
import EightBit.Proofs.SymbolTable.Names
import EightBit.Proofs.Text.ByteOrder

/-!
A table is told by its history: a name has the symbol that it was given first, in whatever case it
is written, and later ones are refused. Sorting in between changes the order of the entries and
nothing else.
-/
namespace EightBit

def SameName (first second : String) : Prop :=
  first.toList.map Char.toLower = second.toList.map Char.toLower

instance (first second : String) : Decidable (SameName first second) :=
  inferInstanceAs (Decidable (_ = _))

inductive TableOperation where
  | add (name : String) (symbol : Symbol)
  | sort
  deriving DecidableEq

def TableOperation.offers? (name : String) : TableOperation → Option Symbol
  | add other symbol => if SameName other name then some symbol else none
  | sort => none

def firstAdded? (name : String) (operations : List TableOperation) : Option Symbol :=
  operations.findSome? (·.offers? name)

/-- The names and symbols that were added, in their order and each name once: behind the first
addition of a name those of the same name do not count. -/
def definitions : List TableOperation → List (String × Symbol)
  | [] => []
  | .add name symbol :: later =>
    (name, symbol) :: (definitions later).filter fun other => ¬ SameName name other.1
  | .sort :: later => definitions later

theorem firstAdded?_concat_add (name other : String) (symbol : Symbol)
    (earlier : List TableOperation) :
    firstAdded? name (earlier ++ [.add other symbol]) =
      (firstAdded? name earlier).or (if SameName other name then some symbol else none) := by
  rw [firstAdded?, List.findSome?_append, List.findSome?_singleton]
  rfl

theorem firstAdded?_concat_sort (name : String) (earlier : List TableOperation) :
    firstAdded? name (earlier ++ [.sort]) = firstAdded? name earlier := by
  rw [firstAdded?, List.findSome?_append, List.findSome?_singleton]
  exact Option.or_none

theorem definitions_concat_add (name : String) (symbol : Symbol)
    (earlier : List TableOperation) :
    definitions (earlier ++ [.add name symbol]) =
      definitions earlier ++ if firstAdded? name earlier = none then [(name, symbol)] else [] := by
  induction earlier with
  | nil => rfl
  | cons operation rest ih =>
      cases operation with
      | sort => exact ih
      | add other given =>
          rw [List.cons_append, definitions, definitions, ih, List.filter_append, List.cons_append]
          congr 2
          by_cases same : SameName other name
          · have taken : firstAdded? name (.add other given :: rest) = some given := by
              simp [firstAdded?, TableOperation.offers?, same]
            rw [taken]
            split <;> simp [same]
          · have next : firstAdded? name (.add other given :: rest) = firstAdded? name rest := by
              simp [firstAdded?, TableOperation.offers?, same]
            rw [next]
            split <;> simp [same]

theorem definitions_concat_sort (earlier : List TableOperation) :
    definitions (earlier ++ [.sort]) = definitions earlier := by
  induction earlier with
  | nil => rfl
  | cons operation rest ih =>
      cases operation with
      | sort => exact ih
      | add name symbol => rw [List.cons_append, definitions, definitions, ih]

namespace SymbolTable

theorem key_eq_key_iff {first second : String} : key first = key second ↔ SameName first second :=
  Text.upperCase_inj.trans Text.map_toUpper_eq_iff

def after (table : SymbolTable) : TableOperation → SymbolTable
  | .add name symbol =>
    match table.add name symbol with
    | .ok larger => larger
    | .error _ => table
  | .sort => table.sort

def replay (operations : List TableOperation) : SymbolTable := operations.foldl after empty

variable {table : SymbolTable} {name : String}

theorem replay_concat (operations : List TableOperation) (operation : TableOperation) :
    replay (operations ++ [operation]) = (replay operations).after operation := by
  rw [replay, List.foldl_append]
  rfl

theorem after_add_of_taken {first : Symbol} (taken : table.lookup name = some first)
    (symbol : Symbol) : table.after (.add name symbol) = table := by
  rw [after, add_eq_error_iff.mpr taken]

theorem after_add_of_free (free : table.lookup name = none) (symbol : Symbol) :
    table.after (.add name symbol) = ⟨table.entries ++ [(key name, symbol)]⟩ := by
  rw [after, add_of_free free]

theorem entries_after_add (table : SymbolTable) (name : String) (symbol : Symbol) :
    (table.after (.add name symbol)).entries =
      table.entries ++ if table.lookup name = none then [(key name, symbol)] else [] := by
  cases found : table.lookup name with
  | none => rw [after_add_of_free found, if_pos rfl]
  | some first => rw [after_add_of_taken found, if_neg nofun, List.append_nil]

theorem lookup_after_add (table : SymbolTable) (name other : String) (symbol : Symbol) :
    (table.after (.add name symbol)).lookup other =
      (table.lookup other).or (if SameName name other then some symbol else none) := by
  have swap : SameName name other ↔ key other = key name := by rw [← key_eq_key_iff, eq_comm]
  cases found : table.lookup name with
  | none =>
      rw [after_add_of_free found, lookup_add (add_of_free found symbol)]
      simp only [swap]
  | some first =>
      rw [after_add_of_taken found]
      by_cases same : SameName name other
      · have known : table.lookup other = some first := by rw [lookup, swap.mp same, ← found, lookup]
        rw [known, Option.some_or]
      · rw [if_neg same, Option.or_none]

theorem Keyed.after (keyed : table.Keyed) (operation : TableOperation) :
    (table.after operation).Keyed := by
  cases operation with
  | add name symbol =>
      cases found : table.lookup name with
      | none =>
          rw [after_add_of_free found]
          exact keyed.add (add_of_free found symbol)
      | some first => rwa [after_add_of_taken found]
  | sort => exact keyed.sort

theorem keyed_replay (operations : List TableOperation) : (replay operations).Keyed := by
  induction operations using List.reverseRecOn with
  | nil => exact keyed_empty
  | append_singleton earlier operation ih =>
      rw [replay_concat]
      exact ih.after operation

theorem lookup_replay (operations : List TableOperation) (name : String) :
    (replay operations).lookup name = firstAdded? name operations := by
  induction operations using List.reverseRecOn with
  | nil => rfl
  | append_singleton earlier operation ih =>
      rw [replay_concat]
      cases operation with
      | add other symbol => rw [lookup_after_add, ih, firstAdded?_concat_add]
      | sort =>
          rw [firstAdded?_concat_sort, ← ih]
          exact (keyed_replay earlier).lookup_sort name

def entryOf (definition : String × Symbol) : String × Symbol := (key definition.1, definition.2)

theorem exists_concat_add (earlier : List TableOperation) (name : String) (symbol : Symbol) :
    ∃ fresh, definitions (earlier ++ [.add name symbol]) = definitions earlier ++ fresh ∧
      (replay (earlier ++ [.add name symbol])).entries =
        (replay earlier).entries ++ fresh.map entryOf := by
  refine ⟨_, definitions_concat_add name symbol earlier, ?_⟩
  rw [replay_concat, entries_after_add, lookup_replay]
  split <;> rfl

theorem perm_definitions (operations : List TableOperation) :
    (replay operations).entries.Perm ((definitions operations).map entryOf) := by
  induction operations using List.reverseRecOn with
  | nil => exact .nil
  | append_singleton earlier operation ih =>
      cases operation with
      | add name symbol =>
          obtain ⟨fresh, defined, entered⟩ := exists_concat_add earlier name symbol
          rw [defined, entered, List.map_append]
          exact ih.append_right _
      | sort =>
          rw [definitions_concat_sort, replay_concat]
          exact (perm_sort _).trans ih

theorem entries_replay_of_unsorted {operations : List TableOperation}
    (unsorted : .sort ∉ operations) :
    (replay operations).entries = (definitions operations).map entryOf := by
  induction operations using List.reverseRecOn with
  | nil => rfl
  | append_singleton earlier operation ih =>
      rw [List.mem_append, List.mem_singleton, not_or] at unsorted
      cases operation with
      | add name symbol =>
          obtain ⟨fresh, defined, entered⟩ := exists_concat_add earlier name symbol
          rw [defined, entered, List.map_append, ih unsorted.1]
      | sort => exact absurd rfl unsorted.2

/-- A table behind any additions and sortings. A name has the symbol that it was given first, and a
name that has one is refused with it; any other is accepted. There is one entry for each name that
was defined, in the order of the definitions if the table was never sorted. Sorting puts the entries
in order by their values, and by the bytes of their names where values are equal; it changes nothing
that is looked up, and sorting again changes nothing at all. -/
theorem table_keeps_first_added (operations : List TableOperation) :
    let table := replay operations
    (∀ name, table.lookup name = firstAdded? name operations) ∧
    (∀ name symbol,
      (firstAdded? name operations = none → ∃ larger, table.add name symbol = .ok larger) ∧
      ∀ first, firstAdded? name operations = some first →
        table.add name symbol = .error first ∧ table.after (.add name symbol) = table) ∧
    table.entries.Perm ((definitions operations).map entryOf) ∧
    (table.entries.map Prod.fst).Nodup ∧
    (.sort ∉ operations → table.entries = (definitions operations).map entryOf) ∧
    (∀ name, table.sort.lookup name = table.lookup name) ∧
    table.sort.entries.Perm table.entries ∧
    (table.sort.entries.Pairwise fun first second =>
      first.2.value.toInt < second.2.value.toInt ∨ first.2.value = second.2.value ∧
        Text.bytes first.1.toList < Text.bytes second.1.toList) ∧
    table.sort.sort = table.sort := by
  intro table
  have keyed : table.Keyed := keyed_replay operations
  have found (name : String) : table.lookup name = firstAdded? name operations :=
    lookup_replay operations name
  refine ⟨found, fun name symbol => ⟨fun free => ?_, fun first taken => ?_⟩,
    perm_definitions operations, keyed.distinct, entries_replay_of_unsorted, keyed.lookup_sort,
    table.perm_sort, ?_, table.sort_sort⟩
  · exact ⟨_, add_of_free ((found name).trans free) symbol⟩
  · have known := (found name).trans taken
    exact ⟨add_eq_error_iff.mpr known, after_add_of_taken known symbol⟩
  · refine keyed.pairwise_sort.imp fun order => ?_
    exact order.imp Int64.lt_iff_toInt_lt.mp fun ⟨same, less⟩ => ⟨same, Text.bytes_lt_of_lt less⟩

theorem table_keeps_first_added_behind_sorting :
    let operations : List TableOperation :=
      [.add "wide" ⟨7, .constant, 1⟩, .add "Top" ⟨7, .label, 2⟩, .sort, .add "TOP" ⟨1, .label, 3⟩,
        .add "é" ⟨-1, .label, 4⟩]
    let table := replay operations
    table.lookup "tOP" = some ⟨7, .label, 2⟩ ∧ table.lookup "É" = none ∧
      table.add "WIDE" ⟨0, .label, 5⟩ = .error ⟨7, .constant, 1⟩ ∧
      (∃ larger, table.add "É" ⟨0, .label, 5⟩ = .ok larger) ∧
      table.entries.Perm
        [("WIDE", ⟨7, .constant, 1⟩), ("TOP", ⟨7, .label, 2⟩), ("é", ⟨-1, .label, 4⟩)] ∧
      table.sort.lookup "é" = table.lookup "é" := by
  intro operations table
  obtain ⟨found, adds, perm, -, -, kept, -⟩ := table_keeps_first_added operations
  refine ⟨(found "tOP").trans ?_, (found "É").trans ?_, ?_, ?_, ?_, kept "é"⟩
  · decide +kernel
  · decide +kernel
  · exact ((adds "WIDE" ⟨0, .label, 5⟩).2 _ (by decide +kernel)).1
  · exact (adds "É" ⟨0, .label, 5⟩).1 (by decide +kernel)
  · have entries : (definitions operations).map entryOf =
        [("WIDE", ⟨7, .constant, 1⟩), ("TOP", ⟨7, .label, 2⟩), ("é", ⟨-1, .label, 4⟩)] := by
      decide +kernel
    rwa [entries] at perm

end SymbolTable

end EightBit
