import EightBit.Proofs.SymbolTable.Growth
import EightBit.Proofs.Text.Capitals

namespace EightBit

theorem Text.isLower_toUpper (c : Char) : c.toUpper.isLower = false := by
  have small (c : Char) : c.isLower = true ↔ 97 ≤ c.toNat ∧ c.toNat ≤ 122 := by
    have bounds : c.isLower = (decide ('a'.val ≤ c.val) && decide (c.val ≤ 'z'.val)) := rfl
    rw [bounds, Bool.and_eq_true, decide_eq_true_iff, decide_eq_true_iff]
    exact Iff.rfl
  apply eq_false_of_ne_true
  intro lower
  rw [small, toNat_toUpper] at lower
  split at lower <;> omega

namespace SymbolTable

def names (table : SymbolTable) : List String := table.entries.map Prod.fst

variable {table larger : SymbolTable} {name : String} {symbol : Symbol}

theorem lookup_eq_none_iff : table.lookup name = none ↔ key name ∉ table.names := by
  rw [lookup, List.lookup_eq_none_iff, names, List.mem_map]
  constructor
  · rintro other ⟨entry, member, same⟩
    simpa [same] using other entry member
  · intro absent entry member
    exact bne_iff_ne.mpr fun same => absent ⟨entry, member, same.symm⟩

theorem add_eq_ok_iff : table.add name symbol = .ok larger ↔
    table.lookup name = none ∧ larger = ⟨table.entries ++ [(key name, symbol)]⟩ := by
  unfold add
  cases table.lookup name <;> simp [eq_comm]

theorem add_of_free (free : table.lookup name = none) (symbol : Symbol) :
    table.add name symbol = .ok ⟨table.entries ++ [(key name, symbol)]⟩ :=
  add_eq_ok_iff.mpr ⟨free, rfl⟩

theorem isLower_of_mem_key (name : String) : ∀ c ∈ (key name).toList, c.isLower = false := by
  intro c member
  simp only [key, Text.upperCase, String.toList_ofList, List.mem_map] at member
  obtain ⟨written, -, rfl⟩ := member
  exact Text.isLower_toUpper written

/-- The names of a table are in capitals, and no two of them are the same. -/
structure Keyed (table : SymbolTable) : Prop where
  distinct : table.names.Nodup
  capitals : ∀ name ∈ table.names, ∀ c ∈ name.toList, c.isLower = false

theorem keyed_empty : empty.Keyed := ⟨List.nodup_nil, List.forall_mem_nil _⟩

theorem Keyed.add (keyed : table.Keyed) (added : table.add name symbol = .ok larger) :
    larger.Keyed := by
  obtain ⟨free, rfl⟩ := add_eq_ok_iff.mp added
  have names : names ⟨table.entries ++ [(key name, symbol)]⟩ = table.names ++ [key name] :=
    List.map_append
  constructor
  · rw [names, List.nodup_append]
    refine ⟨keyed.distinct, by simp, ?_⟩
    intro taken member new same equal
    rw [equal, List.mem_singleton.mp same] at member
    exact lookup_eq_none_iff.mp free member
  · intro other member
    rw [names, List.mem_append, List.mem_singleton] at member
    rcases member with old | rfl
    · exact keyed.capitals other old
    · exact isLower_of_mem_key name

theorem Keyed.lookup_eq_some_iff (keyed : table.Keyed) :
    table.lookup name = some symbol ↔ (key name, symbol) ∈ table.entries := by
  rw [lookup, List.lookup_eq_some_iff]
  constructor
  · rintro ⟨front, back, split, -⟩
    rw [split]
    exact List.mem_append_right _ List.mem_cons_self
  · intro member
    obtain ⟨front, back, split⟩ := List.append_of_mem member
    have distinct := keyed.distinct
    rw [names, split, List.map_append, List.nodup_append] at distinct
    refine ⟨front, back, split, fun entry early => bne_iff_ne.mpr fun same => ?_⟩
    exact distinct.2.2 entry.1 (List.mem_map_of_mem early) (key name)
      (List.mem_map_of_mem List.mem_cons_self) same.symm

section Order

variable {first second third : String × Symbol}

theorem precedes_iff : precedes first second = true ↔
    first.2.value.toInt < second.2.value.toInt ∨
      first.2.value = second.2.value ∧ first.1 ≤ second.1 := by
  simp only [precedes, Bool.or_eq_true, Bool.and_eq_true, decide_eq_true_eq, Int64.lt_iff_toInt_lt]

theorem precedes_trans (early : precedes first second = true)
    (late : precedes second third = true) : precedes first third = true := by
  rw [precedes_iff] at early late ⊢
  rcases early with less | ⟨same, name⟩
  · left
    rcases late with more | ⟨same, -⟩
    · exact Int.lt_trans less more
    · rwa [← same]
  · rw [same]
    exact late.imp_right fun ⟨equal, after⟩ => ⟨equal, String.le_trans name after⟩

theorem precedes_total (first second : String × Symbol) :
    (precedes first second || precedes second first) = true := by
  rw [Bool.or_eq_true, precedes_iff, precedes_iff]
  rcases Int.lt_trichotomy first.2.value.toInt second.2.value.toInt with less | same | more
  · exact Or.inl (Or.inl less)
  · have value := Int64.toInt_inj.mp same
    exact (String.le_total first.1 second.1).imp (fun name => Or.inr ⟨value, name⟩)
      fun name => Or.inr ⟨value.symm, name⟩
  · exact Or.inr (Or.inl more)

theorem perm_sort (table : SymbolTable) : table.sort.entries.Perm table.entries :=
  List.mergeSort_perm _ _

theorem pairwise_precedes_sort (table : SymbolTable) :
    table.sort.entries.Pairwise (precedes · · = true) :=
  @List.pairwise_mergeSort _ precedes (fun _ _ _ => precedes_trans) precedes_total _

theorem Keyed.sort (keyed : table.Keyed) : table.sort.Keyed where
  distinct := (table.perm_sort.map Prod.fst).nodup_iff.mpr keyed.distinct
  capitals name member := keyed.capitals name ((table.perm_sort.map Prod.fst).mem_iff.mp member)

theorem Keyed.lookup_sort (keyed : table.Keyed) (name : String) :
    table.sort.lookup name = table.lookup name := by
  ext symbol
  rw [keyed.sort.lookup_eq_some_iff, keyed.lookup_eq_some_iff, table.perm_sort.mem_iff]

theorem sort_sort (table : SymbolTable) : table.sort.sort = table.sort := by
  rw [sort, List.mergeSort_of_pairwise table.pairwise_precedes_sort]

theorem Keyed.pairwise_sort (keyed : table.Keyed) :
    table.sort.entries.Pairwise fun first second => first.2.value < second.2.value ∨
      first.2.value = second.2.value ∧ first.1 < second.1 := by
  have apart := List.pairwise_map.mp keyed.sort.distinct
  refine (table.pairwise_precedes_sort.and apart).imp ?_
  rintro first second ⟨before, other⟩
  rcases precedes_iff.mp before with less | ⟨same, name⟩
  · exact Or.inl (Int64.lt_iff_toInt_lt.mpr less)
  · exact Or.inr ⟨same, String.not_le.mp fun back => other (String.le_antisymm name back)⟩

end Order

end SymbolTable

end EightBit
