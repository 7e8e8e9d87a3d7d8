import EightBit.Token

namespace EightBit

structure Word where
  kind : TokenKind
  text : List Char

def Token.word (token : Token) : Word := ⟨token.kind, token.text⟩

namespace Word

/-- The scanner takes the word, and nothing of the text behind it. -/
def EndsBefore (word : Word) (rest : List Char) : Prop :=
  ∃ c cs, word.text = c :: cs ∧ Token.scan c (cs ++ rest) = (word.kind, cs.length)

end Word

namespace Token

theorem run_append {p : Char → Bool} {cs rest : List Char} (all : ∀ c ∈ cs, p c = true)
    (ends : ∀ c ∈ rest.head?, p c = false) : run p (cs ++ rest) = cs.length := by
  have stops : rest.takeWhile p = [] := by
    cases rest with
    | nil => rfl
    | cons c rest => exact List.takeWhile_cons_of_neg (Bool.eq_false_iff.mp (ends c rfl))
  rw [run, List.takeWhile_append_of_pos all, stops, List.append_nil]

theorem ne_marks {p : Char → Bool} {c : Char} (member : p c = true)
    (marks : [';', ' ', '\t', '\r', '\n', '$', '%'].any p = false) :
    c ≠ ';' ∧ isBlank c = false ∧ c ≠ '$' ∧ c ≠ '%' := by
  have other : ∀ d ∈ [';', ' ', '\t', '\r', '\n', '$', '%'], c ≠ d := by
    rintro d mark rfl
    exact List.any_eq_false.mp marks c mark member
  have solid : isBlank c = false := by
    simp only [isBlank, Bool.or_eq_false_iff, decide_eq_false_iff_not]
    exact ⟨⟨⟨other ' ' (by simp), other '\t' (by simp)⟩, other '\r' (by simp)⟩,
      other '\n' (by simp)⟩
  exact ⟨other ';' (by simp), solid, other '$' (by simp), other '%' (by simp)⟩

theorem scan_of_isDigit {c : Char} (digit : c.isDigit = true) (cs : List Char) :
    scan c cs = (.decimal, run Char.isDigit cs) := by
  obtain ⟨comment, solid, dollar, percent⟩ := ne_marks digit (by decide)
  simp only [scan, comment, solid, dollar, percent, digit, Bool.false_eq_true, ↓reduceIte]

theorem isDigit_of_startsName {c : Char} (starts : startsName c = true) : c.isDigit = false := by
  apply Bool.eq_false_iff.mpr
  intro digit
  have high : c.toNat ≤ 57 := (Char.isDigit_iff_toNat.mp digit).2
  rcases (Bool.or_eq_true _ _).mp starts with letter | underscore
  · rcases (Bool.or_eq_true _ _).mp letter with upper | lower
    · have low : 65 ≤ c.toNat := UInt32.le_iff_toNat_le.mp (of_decide_eq_true upper).1
      omega
    · have both := (Bool.and_eq_true _ _).mp lower
      have low : 97 ≤ c.toNat := UInt32.le_iff_toNat_le.mp (of_decide_eq_true both.1)
      omega
  · rw [of_decide_eq_true underscore] at digit
    cases digit

theorem scan_of_startsName {c : Char} (starts : startsName c = true) (cs : List Char) :
    scan c cs = (.identifier, run continuesName cs) := by
  obtain ⟨comment, solid, dollar, percent⟩ := ne_marks starts (by decide)
  simp only [scan, comment, solid, dollar, percent, isDigit_of_startsName starts, starts,
    Bool.false_eq_true, ↓reduceIte]

end Token

end EightBit
