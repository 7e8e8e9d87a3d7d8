import Mathlib.Data.List.Forall2
import Mathlib.Data.Nat.Digits.Defs
import EightBit.Text.Number

namespace EightBit.Text

abbrev DigitsOf (base : Nat) : List Char → List Nat → Prop :=
  List.Forall₂ fun c value => digitIn base c = some value

/-- The number that digits stand for in a base. The last digit counts once, and every other one
the base times as much as the digit behind it. -/
def Denotes (base : Nat) (cs : List Char) (n : Nat) : Prop :=
  ∃ values, DigitsOf base cs values ∧ n = Nat.ofDigits base values.reverse

/-- A reader that has read a number already reads on as if the number were a digit in front. -/
theorem readDigits_eq_some_iff {base sofar n : Nat} {cs : List Char} :
    readDigits base sofar cs = some n ↔
      ∃ values, DigitsOf base cs values ∧ n = Nat.ofDigits base (sofar :: values).reverse := by
  induction cs generalizing sofar with
  | nil =>
      rw [readDigits, Option.some_inj]
      constructor
      · rintro rfl
        exact ⟨[], .nil, by simp⟩
      · rintro ⟨values, digits, rfl⟩
        cases digits
        simp
  | cons c cs ih =>
      have shift (digit : Nat) (values : List Nat) :
          Nat.ofDigits base ((sofar * base + digit) :: values).reverse =
            Nat.ofDigits base (sofar :: digit :: values).reverse := by
        have pair : Nat.ofDigits base [sofar * base + digit] =
            Nat.ofDigits base [digit, sofar] := by
          rw [Nat.ofDigits_singleton, Nat.ofDigits_cons, Nat.ofDigits_singleton, Nat.add_comm,
            Nat.mul_comm]
        rw [List.reverse_cons, Nat.ofDigits_append, pair, ← Nat.ofDigits_append,
          List.reverse_cons, List.reverse_cons, List.append_assoc]
        rfl
      rw [readDigits]
      constructor
      · intro read
        obtain ⟨digit, first, later⟩ := Option.bind_eq_some_iff.mp read
        obtain ⟨values, digits, rfl⟩ := ih.mp later
        exact ⟨digit :: values, .cons first digits, shift digit values⟩
      · rintro ⟨values, digits, rfl⟩
        cases digits with
        | cons first later =>
            exact Option.bind_eq_some_iff.mpr ⟨_, first, ih.mpr ⟨_, later, (shift _ _).symm⟩⟩

theorem readDigits_eq_some_iff_denotes {base n : Nat} {cs : List Char} :
    readDigits base 0 cs = some n ↔ Denotes base cs n := by
  have zero (values : List Nat) :
      Nat.ofDigits base (0 :: values).reverse = Nat.ofDigits base values.reverse := by
    rw [List.reverse_cons, Nat.ofDigits_append, Nat.ofDigits_singleton, Nat.mul_zero, Nat.add_zero]
  simp only [readDigits_eq_some_iff, zero, Denotes]

theorem Denotes.digitIn_of_mem {base n : Nat} {cs : List Char} {c : Char}
    (denotes : Denotes base cs n) (member : c ∈ cs) : ∃ value, digitIn base c = some value := by
  obtain ⟨values, digits, -⟩ := denotes
  induction digits with
  | nil => cases member
  | cons first later ih =>
      rcases List.mem_cons.mp member with rfl | more
      · exact ⟨_, first⟩
      · exact ih more

theorem readDigits_append (base sofar : Nat) (front back : List Char) :
    readDigits base sofar (front ++ back) =
      (readDigits base sofar front).bind fun n => readDigits base n back := by
  induction front generalizing sofar with
  | nil => rfl
  | cons c cs ih =>
      rw [List.cons_append, readDigits, readDigits]
      cases digitIn base c with
      | none => rfl
      | some digit => exact ih _

theorem digitValue_digitChar {digit : Nat} (small : digit < 16) :
    digitValue (Nat.digitChar digit) = some digit := by
  revert digit
  decide

theorem digitIn_digitChar {base digit : Nat} (sixteen : base ≤ 16) (small : digit < base) :
    digitIn base (Nat.digitChar digit) = some digit := by
  rw [digitIn, digitValue_digitChar (by omega), Option.filter_some, if_pos (decide_eq_true small)]

theorem readDigits_toDigits {base : Nat} (two : 1 < base) (sixteen : base ≤ 16) (n : Nat) :
    readDigits base 0 (Nat.toDigits base n) = some n := by
  induction n using Nat.strongRecOn with
  | ind n ih =>
      rw [Nat.toDigits_eq_if two]
      split
      · rename_i small
        simp [readDigits, digitIn_digitChar sixteen small]
      · rename_i large
        have shorter : n / base < n := Nat.div_lt_self (by omega) two
        have last := digitIn_digitChar sixteen (Nat.mod_lt n (by omega))
        simp [readDigits_append, ih _ shorter, readDigits, last, Nat.div_add_mod']

theorem readDigits_replicate_zero {base : Nat} (two : 1 < base) (sixteen : base ≤ 16)
    (count : Nat) : readDigits base 0 (List.replicate count '0') = some 0 := by
  induction count with
  | zero => rfl
  | succ count ih =>
      have zero : digitIn base '0' = some 0 := digitIn_digitChar sixteen (Nat.zero_lt_of_lt two)
      simpa [List.replicate_succ, readDigits, zero] using ih

theorem denotes_digits {base : Nat} (two : 1 < base) (sixteen : base ≤ 16) (width n : Nat) :
    Denotes base (digits base width n).toList n := by
  rw [← readDigits_eq_some_iff_denotes, digits, String.toList_ofList, List.leftpad,
    readDigits_append, readDigits_replicate_zero two sixteen]
  exact readDigits_toDigits two sixteen n

theorem digits_ne_nil (base width n : Nat) : (digits base width n).toList ≠ [] := by
  rw [digits, String.toList_ofList, List.leftpad]
  exact List.append_ne_nil_of_right_ne_nil _ Nat.toDigits_ne_nil

def decimal : Int → List Char
  | .ofNat n => Nat.toDigits 10 n
  | .negSucc n => '-' :: Nat.toDigits 10 (n + 1)

theorem isDigit_of_mem_toDigits {n : Nat} {c : Char} (member : c ∈ Nat.toDigits 10 n) :
    c.isDigit = true :=
  Nat.isDigit_of_mem_toDigits (by decide) (by decide) member

theorem denotes_toDigits (n : Nat) : Denotes 10 (Nat.toDigits 10 n) n :=
  readDigits_eq_some_iff_denotes.mp (readDigits_toDigits (by decide) (by decide) n)

end EightBit.Text
