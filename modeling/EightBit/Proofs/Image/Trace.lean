import EightBit.Proofs.Image.Writes

namespace EightBit.Image

/-- The addresses of a trace that were seen before, each as often and in the place it comes. -/
def repeats (seen : List Nat) : List Nat → List Nat
  | [] => []
  | address :: rest =>
    if address ∈ seen then address :: repeats seen rest else repeats (address :: seen) rest

theorem repeats_congr {seen known : List Nat} (same : ∀ address, address ∈ seen ↔ address ∈ known)
    (trace : List Nat) : repeats seen trace = repeats known trace := by
  induction trace generalizing seen known with
  | nil => rfl
  | cons address rest ih =>
      rw [repeats, repeats, ih same]
      by_cases old : address ∈ seen
      · rw [if_pos old, if_pos ((same address).mp old)]
      · have new : address ∉ known := fun member => old ((same address).mpr member)
        rw [if_neg old, if_neg new]
        apply ih
        intro other
        rw [List.mem_cons, List.mem_cons, same other]

theorem repeats_append (seen first second : List Nat) :
    repeats seen (first ++ second) = repeats seen first ++ repeats (first ++ seen) second := by
  induction first generalizing seen with
  | nil => rfl
  | cons address rest ih =>
      rw [List.cons_append, repeats, repeats]
      by_cases old : address ∈ seen
      · have same : ∀ other, other ∈ rest ++ seen ↔ other ∈ address :: rest ++ seen := by
          intro other
          simp only [List.cons_append, List.mem_cons, List.mem_append]
          constructor
          · exact Or.inr
          · rintro (rfl | later)
            · exact Or.inr old
            · exact later
        rw [if_pos old, if_pos old, ih, repeats_congr same]
        rfl
      · have same : ∀ other, other ∈ rest ++ address :: seen ↔ other ∈ address :: rest ++ seen := by
          intro other
          simp only [List.cons_append, List.mem_cons, List.mem_append]
          exact or_left_comm
        rw [if_neg old, if_neg old, ih, repeats_congr same]

theorem repeats_of_nodup {trace : List Nat} (distinct : trace.Nodup) (seen : List Nat) :
    repeats seen trace = trace.filter (· ∈ seen) := by
  induction trace generalizing seen with
  | nil => rfl
  | cons address rest ih =>
      rcases List.nodup_cons.mp distinct with ⟨absent, later⟩
      rw [repeats, List.filter_cons, ih later, ih later]
      by_cases old : address ∈ seen
      · rw [if_pos old, if_pos (decide_eq_true old)]
      · rw [if_neg old, if_neg (by simpa using old)]
        refine List.filter_congr fun other member => ?_
        have apart : other ≠ address := fun same => absent (same ▸ member)
        simp [apart]

theorem count_repeats (seen trace : List Nat) (address : Nat) :
    (repeats seen trace).count address =
      if address ∈ seen then trace.count address else trace.count address - 1 := by
  induction trace generalizing seen with
  | nil => simp [repeats]
  | cons first rest ih =>
      rw [repeats]
      by_cases old : first ∈ seen
      · rw [if_pos old, List.count_cons, List.count_cons, ih]
        by_cases same : first = address
        · subst same
          rw [if_pos old, if_pos old]
        · simp [same]
      · rw [if_neg old, ih, List.count_cons]
        by_cases same : first = address
        · subst same
          simp [old]
        · have apart : address ≠ first := fun equal => same equal.symm
          simp [same, apart]

end EightBit.Image
