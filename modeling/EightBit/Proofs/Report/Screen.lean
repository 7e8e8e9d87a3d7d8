import Mathlib.Data.List.DropRight
import Mathlib.Data.List.Forall2
import EightBit.Report

/-!
The screen as text. Each row of forty codes is a line; all that a line leaves out are the blanks at
its end, so what a cell shows stands in its own row and column.
-/
namespace EightBit

namespace Text

theorem toNat_ofNat_of_small {n : Nat} (small : n < 0x80) : (Char.ofNat n).toNat = n := by
  have valid : n.isValidChar := Or.inl (by omega)
  rw [Char.ofNat, dif_pos valid]
  rfl

variable {cs : List Char} {c : Char}

theorem mem_of_mem_trimEnd (member : c ∈ trimEnd cs) : c ∈ cs :=
  (List.rdropWhile_prefix isBlank cs).subset member

theorem isBlank_getLast?_trimEnd (last : c ∈ (trimEnd cs).getLast?) : isBlank c = false := by
  obtain ⟨some, rfl⟩ := List.mem_getLast?_eq_getLast last
  exact eq_false_of_ne_true (List.rdropWhile_last_not isBlank cs some)

/-- Where the space is the only blank, spaces make good what is trimmed. -/
theorem trimEnd_append_spaces (spaces : ∀ c ∈ cs, isBlank c = true → c = ' ') :
    trimEnd cs ++ List.replicate (cs.length - (trimEnd cs).length) ' ' = cs := by
  have parts : trimEnd cs ++ cs.rtakeWhile isBlank = cs := List.rdropWhile_append_rtakeWhile
  have length := congrArg List.length parts
  rw [List.length_append] at length
  have trimmed : cs.rtakeWhile isBlank =
      List.replicate (cs.length - (trimEnd cs).length) ' ' := by
    rw [List.eq_replicate_iff]
    refine ⟨by omega, fun c member => spaces c ?_ (List.mem_rtakeWhile_imp member)⟩
    exact (List.rtakeWhile_suffix isBlank cs).subset member
  rw [← trimmed, parts]

end Text

namespace Report

inductive Shows : UInt8 → Char → Prop
  | zero : Shows 0 ' '
  | printable {code : UInt8} {c : Char} (low : 0x20 ≤ code.toNat) (high : code.toNat ≤ 0x7E)
      (same : c.toNat = code.toNat) : Shows code c
  | other {code : UInt8} (some : code ≠ 0) (outside : ¬ (0x20 ≤ code.toNat ∧ code.toNat ≤ 0x7E)) :
      Shows code '.'

theorem shows_cell (code : UInt8) : Shows code (cell code) := by
  rw [cell]
  split
  · rename_i zero
    rw [zero]
    exact .zero
  · rename_i some
    split
    · rename_i inside
      have small : code.toNat < 0x80 :=
        Nat.lt_of_le_of_lt (UInt8.le_iff_toNat_le.mp inside.2) (by decide)
      exact .printable (UInt8.le_iff_toNat_le.mp inside.1) (UInt8.le_iff_toNat_le.mp inside.2)
        (Text.toNat_ofNat_of_small small)
    · rename_i outside
      exact .other some fun inside => outside
        ⟨UInt8.le_iff_toNat_le.mpr inside.1, UInt8.le_iff_toNat_le.mpr inside.2⟩

namespace Shows

variable {code : UInt8} {c : Char}

theorem eq_space_of_isBlank (shows : Shows code c) (blank : Text.isBlank c = true) : c = ' ' := by
  cases shows with
  | zero => rfl
  | printable low high same =>
      simp only [Text.isBlank, Text.blankRanges, List.any_cons, List.any_nil, Bool.or_eq_true,
        decide_eq_true_eq, Bool.false_eq_true, or_false] at blank
      apply Char.toNat_inj.mp
      change c.toNat = 0x20
      omega
  | other => exact absurd blank (by decide)

theorem ne_newline (shows : Shows code c) : c ≠ '\n' := by
  cases shows with
  | zero => decide
  | printable low high same =>
      rintro rfl
      have newline : '\n'.toNat = 0x0A := rfl
      omega
  | other => decide

theorem blank_of_space (shows : Shows code ' ') : code = 0 ∨ code = 0x20 := by
  cases shows with
  | zero => exact Or.inl rfl
  | printable low high same => exact Or.inr (UInt8.toNat_inj.mp same.symm)

end Shows

variable {codes row : List UInt8}

theorem forall₂_shows (row : List UInt8) : List.Forall₂ Shows row (row.map cell) := by
  rw [List.forall₂_map_right_iff, List.forall₂_same]
  exact fun code _ => shows_cell code

theorem rowsOf_of_ne_nil (some : codes ≠ []) :
    rowsOf codes = codes.take 40 :: rowsOf (codes.drop 40) := by
  cases codes with
  | nil => exact absurd rfl some
  | cons code rest => rw [rowsOf]; rfl

theorem length_rowsOf (codes : List UInt8) : (rowsOf codes).length = (codes.length + 39) / 40 := by
  induction codes using rowsOf.induct with
  | case1 => rw [rowsOf]; rfl
  | case2 code rest width ih =>
      rw [rowsOf, List.length_cons, ih, List.length_drop, List.length_cons]
      have width : width = 39 := rfl
      omega

theorem getElem?_rowsOf (codes : List UInt8) (index : Nat) :
    (rowsOf codes)[index]? =
      if 40 * index < codes.length then some ((codes.drop (40 * index)).take 40) else none := by
  induction index generalizing codes with
  | zero =>
      cases codes with
      | nil => rw [rowsOf]; rfl
      | cons code rest => rw [rowsOf_of_ne_nil (List.cons_ne_nil code rest)]; rfl
  | succ index ih =>
      cases codes with
      | nil => rw [rowsOf]; rfl
      | cons code rest =>
          rw [rowsOf_of_ne_nil (List.cons_ne_nil code rest), List.getElem?_cons_succ, ih, List.drop_drop, List.length_drop]
          have next : 40 + 40 * index = 40 * (index + 1) := by omega
          have inside : 40 * index < (code :: rest).length - 40 ↔
              40 * (index + 1) < (code :: rest).length := by omega
          simp only [next, inside]

theorem toList_screen (codes : List UInt8) :
    (screen codes).toList = ((rowsOf codes).map screenLine).flatMap (· ++ ['\n']) := by
  rw [screen, String.toList_join, List.flatMap_map, List.flatMap_map]
  simp

theorem screenLine_append_spaces (row : List UInt8) :
    screenLine row ++ List.replicate (row.length - (screenLine row).length) ' ' = row.map cell := by
  have spaces : ∀ c ∈ row.map cell, Text.isBlank c = true → c = ' ' := by
    intro c member
    obtain ⟨code, -, rfl⟩ := List.mem_map.mp member
    exact (shows_cell code).eq_space_of_isBlank
  have padded := Text.trimEnd_append_spaces spaces
  rwa [List.length_map] at padded

theorem ne_newline_of_mem_screenLine {c : Char} (member : c ∈ screenLine row) : c ≠ '\n' := by
  obtain ⟨code, -, rfl⟩ := List.mem_map.mp (Text.mem_of_mem_trimEnd member)
  exact (shows_cell code).ne_newline

theorem getLast?_screenLine (row : List UInt8) : (screenLine row).getLast? ≠ some ' ' := by
  intro last
  have blank : Text.isBlank ' ' = false := Text.isBlank_getLast?_trimEnd last
  exact absurd blank (by decide)

theorem getElem?_screenLine {column : Nat} {code : UInt8} (there : row[column]? = some code)
    (some : code ≠ 0) (other : code ≠ 0x20) :
    (screenLine row)[column]? = Option.some (cell code) := by
  have padded : (row.map cell)[column]? = Option.some (cell code) := by
    rw [List.getElem?_map, there]
    rfl
  rw [← screenLine_append_spaces, List.getElem?_append] at padded
  split at padded
  · exact padded
  · have space : cell code = ' ' := List.eq_of_mem_replicate (List.mem_of_getElem? padded)
    rcases (space ▸ shows_cell code).blank_of_space with zero | blank
    · exact absurd zero some
    · exact absurd blank other

/-- The screen is one line for each forty codes or part of forty. A line and as many spaces as are
missing are what the codes of its row show, and the line does not end in a space itself. So a code
that is not blank shows in its row and its column. -/
theorem screen_loses_only_blanks (codes : List UInt8) :
    ∃ rows : List (List Char), (screen codes).toList = rows.flatMap (· ++ ['\n']) ∧
      (∀ row ∈ rows, '\n' ∉ row) ∧
      rows.length = (codes.length + 39) / 40 ∧
      (∀ index row, rows[index]? = some row →
        let chunk := (codes.drop (40 * index)).take 40
        List.Forall₂ Shows chunk (row ++ List.replicate (chunk.length - row.length) ' ') ∧
          row.getLast? ≠ some ' ') ∧
      ∀ index code, codes[index]? = some code → code ≠ 0 → code ≠ 0x20 →
        ∃ row c, rows[index / 40]? = some row ∧ row[index % 40]? = some c ∧ Shows code c := by
  refine ⟨(rowsOf codes).map screenLine, toList_screen codes, ?_, ?_, ?_, ?_⟩
  · intro row member newline
    obtain ⟨chunk, -, rfl⟩ := List.mem_map.mp member
    exact ne_newline_of_mem_screenLine newline rfl
  · rw [List.length_map, length_rowsOf]
  · intro index row there chunk
    rw [List.getElem?_map, getElem?_rowsOf] at there
    split at there
    · obtain rfl : screenLine chunk = row := Option.some.inj there
      rw [screenLine_append_spaces]
      exact ⟨forall₂_shows chunk, getLast?_screenLine chunk⟩
    · exact absurd there nofun
  · intro index code there some other
    have inside : index < codes.length := (List.getElem?_eq_some_iff.mp there).1
    have begins : 40 * (index / 40) < codes.length := by omega
    have column : ((codes.drop (40 * (index / 40))).take 40)[index % 40]? = Option.some code := by
      rw [List.getElem?_take_of_lt (Nat.mod_lt index (by decide)), List.getElem?_drop,
        Nat.div_add_mod, there]
    refine ⟨_, cell code, ?_, getElem?_screenLine column some other, shows_cell code⟩
    rw [List.getElem?_map, getElem?_rowsOf, if_pos begins]
    rfl

theorem screen_loses_only_blanks_in_short_row :
    ∃ rows : List (List Char),
      (screen ([0x48, 0x49] ++ List.replicate 39 0 ++ [1])).toList = rows.flatMap (· ++ ['\n']) ∧
      rows.length = 2 ∧ ∃ row, rows[1]? = some row ∧ row[1]? = some '.' := by
  obtain ⟨rows, lines, -, number, -, kept⟩ :=
    screen_loses_only_blanks ([0x48, 0x49] ++ List.replicate 39 0 ++ [1])
  obtain ⟨row, c, there, column, shows⟩ := kept 41 1 rfl (by decide) (by decide)
  have dot : c = '.' := by
    cases shows with
    | printable low => exact absurd low (by decide)
    | other => rfl
  exact ⟨rows, lines, number, row, there, dot ▸ column⟩

example : screen ([0x48, 0x49] ++ List.replicate 39 0 ++ [1]) = "HI\n .\n" := by decide +kernel

end Report

end EightBit
