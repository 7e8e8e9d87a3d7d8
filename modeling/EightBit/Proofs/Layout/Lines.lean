import EightBit.Layout

namespace EightBit

namespace Text

theorem lines_cases (cs : List Char) :
    ('\n' ∉ cs ∧ lines cs = [cs]) ∨
      ∃ first rest, '\n' ∉ first ∧ cs = first ++ '\n' :: rest ∧ lines cs = first :: lines rest := by
  fun_induction lines cs with
  | case1 => exact Or.inl ⟨List.not_mem_nil, rfl⟩
  | case2 cs ih => exact Or.inr ⟨[], cs, List.not_mem_nil, rfl, rfl⟩
  | case3 c cs other none ih => exact absurd none (lines_ne_nil cs)
  | case4 c cs other line more found ih =>
      have apart : '\n' ≠ c := fun same => other same.symm
      rcases ih with ⟨absent, single⟩ | ⟨first, rest, absent, rfl, split⟩
      · rcases List.cons.inj (found.symm.trans single) with ⟨rfl, rfl⟩
        exact Or.inl ⟨List.not_mem_cons_of_ne_of_not_mem apart absent, rfl⟩
      · rcases List.cons.inj (found.symm.trans split) with ⟨rfl, rfl⟩
        exact Or.inr ⟨c :: line, rest, List.not_mem_cons_of_ne_of_not_mem apart absent, rfl, rfl⟩

theorem lines_of_not_mem {cs : List Char} (absent : '\n' ∉ cs) : lines cs = [cs] := by
  rcases lines_cases cs with ⟨-, single⟩ | ⟨first, rest, -, rfl, -⟩
  · exact single
  · exact absurd (List.mem_append_right first List.mem_cons_self) absent

theorem lines_append_newline {first : List Char} (absent : '\n' ∉ first) (rest : List Char) :
    lines (first ++ '\n' :: rest) = first :: lines rest := by
  induction first with
  | nil => rfl
  | cons c cs ih =>
      have other : c ≠ '\n' := fun same => absent (same ▸ List.mem_cons_self)
      have later := ih fun member => absent (List.mem_cons_of_mem c member)
      rw [List.cons_append, lines]
      · rw [later]
      · exact other

theorem newline_not_mem_of_mem_lines {cs text : List Char} (member : text ∈ lines cs) :
    '\n' ∉ text := by
  fun_induction lines cs generalizing text with
  | case1 =>
      rw [List.mem_singleton.mp member]
      exact List.not_mem_nil
  | case2 cs ih =>
      rcases List.mem_cons.mp member with rfl | later
      · exact List.not_mem_nil
      · exact ih later
  | case3 c cs other none ih => exact absurd none (lines_ne_nil cs)
  | case4 c cs other line more found ih =>
      rcases List.mem_cons.mp member with rfl | later
      · have first : line ∈ lines cs := found ▸ List.mem_cons_self
        exact List.not_mem_cons_of_ne_of_not_mem (Ne.symm other) (ih first)
      · exact ih (found ▸ List.mem_cons_of_mem line later)

theorem lines_intercalate_of_ne_nil {texts : List (List Char)} (some : texts ≠ [])
    (absent : ∀ text ∈ texts, '\n' ∉ text) : lines (List.intercalate ['\n'] texts) = texts := by
  induction texts with
  | nil => contradiction
  | cons text rest ih =>
      have first := absent text List.mem_cons_self
      cases rest with
      | nil => rw [List.intercalate_singleton, lines_of_not_mem first]
      | cons next more =>
          have later := ih (List.cons_ne_nil next more) fun other member =>
            absent other (List.mem_cons_of_mem _ member)
          rw [List.intercalate_cons_cons, List.append_assoc, List.singleton_append,
            lines_append_newline first, later]

theorem lines_intercalate {texts : List (List Char)} (absent : ∀ text ∈ texts, '\n' ∉ text)
    {ending : List Char} (ends : ending = [] ∨ ending = ['\n']) :
    ∃ blank, (∀ text ∈ blank, text = []) ∧
      lines (List.intercalate ['\n'] texts ++ ending) = texts ++ blank := by
  induction texts with
  | nil =>
      rcases ends with rfl | rfl
      · exact ⟨[[]], by simp, rfl⟩
      · exact ⟨[[], []], by simp, rfl⟩
  | cons text rest ih =>
      have first := absent text List.mem_cons_self
      cases rest with
      | nil =>
          rw [List.intercalate_singleton]
          rcases ends with rfl | rfl
          · exact ⟨[], by simp, by rw [List.append_nil, lines_of_not_mem first]; rfl⟩
          · exact ⟨[[]], by simp, lines_append_newline first []⟩
      | cons next more =>
          obtain ⟨blank, empty, split⟩ :=
            ih fun other member => absent other (List.mem_cons_of_mem _ member)
          refine ⟨blank, empty, ?_⟩
          rw [List.intercalate_cons_cons, List.append_assoc, List.append_assoc,
            List.singleton_append, lines_append_newline first, split]
          rfl

end Text

namespace SourceLine

/-- The number of a line counts the line feeds before it, its offset the bytes. -/
def StandsIn (source : List Char) (here : SourceLine) : Prop :=
  ∃ front back, source = front ++ here.text ++ back ∧ '\n' ∉ here.text ∧
    (front = [] ∨ front.getLast? = some '\n') ∧ (back = [] ∨ back.head? = some '\n') ∧
    here.number = front.count '\n' + 1 ∧ here.offset = Text.byteLength front

theorem standsIn_of_mem_listFrom (front cs : List Char)
    (start : front = [] ∨ front.getLast? = some '\n') :
    ∀ here ∈ listFrom (front.count '\n' + 1) (Text.byteLength front) (Text.lines cs),
      StandsIn (front ++ cs) here := by
  intro here member
  rcases Text.lines_cases cs with ⟨absent, single⟩ | ⟨first, rest, absent, same, split⟩
  · rw [single, listFrom, listFrom, List.mem_singleton] at member
    subst member
    exact ⟨front, [], by simp, absent, start, Or.inl rfl, rfl, rfl⟩
  · rw [split, listFrom] at member
    rcases List.mem_cons.mp member with rfl | later
    · exact ⟨front, '\n' :: rest, by simp [same], absent, start, Or.inr rfl, rfl, rfl⟩
    · have number : (front ++ first ++ ['\n']).count '\n' = front.count '\n' + 1 := by
        simp [List.count_eq_zero_of_not_mem absent]
      have offset : Text.byteLength (front ++ first ++ ['\n']) =
          Text.byteLength front + Text.byteLength first + 1 := by
        rw [Text.byteLength_append, Text.byteLength_append]
        rfl
      rw [← number, ← offset] at later
      have stands := standsIn_of_mem_listFrom (front ++ first ++ ['\n']) rest
        (Or.inr List.getLast?_concat) here later
      rwa [List.append_assoc, List.append_assoc, List.singleton_append, ← same] at stands
termination_by cs.length
decreasing_by
  rw [same, List.length_append, List.length_cons]
  omega

theorem standsIn_of_mem {source : List Char} {here : SourceLine} (member : here ∈ ofSource source) :
    StandsIn source here :=
  standsIn_of_mem_listFrom [] source (Or.inl rfl) here member

theorem byteLength_text_le {source : List Char} {here : SourceLine}
    (member : here ∈ ofSource source) : Text.byteLength here.text ≤ Text.byteLength source := by
  rcases standsIn_of_mem member with ⟨front, back, rfl, -⟩
  rw [Text.byteLength_append, Text.byteLength_append]
  omega

theorem number_ge_of_mem_listFrom {number offset : Nat} {texts : List (List Char)}
    {here : SourceLine} (member : here ∈ listFrom number offset texts) : number ≤ here.number := by
  induction texts generalizing number offset with
  | nil => cases member
  | cons text rest ih =>
      rcases List.mem_cons.mp member with rfl | later
      · exact Nat.le_refl _
      · exact Nat.le_of_succ_le (ih later)

theorem pairwise_number_listFrom (number offset : Nat) (texts : List (List Char)) :
    (listFrom number offset texts).Pairwise (·.number < ·.number) := by
  induction texts generalizing number offset with
  | nil => exact List.Pairwise.nil
  | cons text rest ih =>
      refine List.Pairwise.cons ?_ (ih _ _)
      intro later member
      exact number_ge_of_mem_listFrom member

end SourceLine

end EightBit
