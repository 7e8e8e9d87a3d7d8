import EightBit.Text
import EightBit.Text.Number

namespace EightBit.Text

theorem toNat_toUpper (c : Char) :
    c.toUpper.toNat = if 97 ≤ c.toNat ∧ c.toNat ≤ 122 then c.toNat - 32 else c.toNat := by
  unfold Char.toUpper
  split
  · rename_i small
    change 97 ≤ c.val.toNat ∧ c.val.toNat ≤ 122 at small
    have gap : ('A'.val - 'a'.val).toNat = 2 ^ 32 - 32 := rfl
    change (c.val + ('A'.val - 'a'.val)).toNat =
      if 97 ≤ c.val.toNat ∧ c.val.toNat ≤ 122 then c.val.toNat - 32 else c.val.toNat
    rw [if_pos small, UInt32.toNat_add, gap]
    omega
  · rename_i other
    exact (if_neg other).symm

theorem toNat_toLower (c : Char) :
    c.toLower.toNat = if 65 ≤ c.toNat ∧ c.toNat ≤ 90 then c.toNat + 32 else c.toNat := by
  unfold Char.toLower
  split
  · rename_i capital
    change 65 ≤ c.val.toNat ∧ c.val.toNat ≤ 90 at capital
    have gap : ('a'.val - 'A'.val).toNat = 32 := rfl
    change (c.val + ('a'.val - 'A'.val)).toNat =
      if 65 ≤ c.val.toNat ∧ c.val.toNat ≤ 90 then c.val.toNat + 32 else c.val.toNat
    rw [if_pos capital, UInt32.toNat_add, gap]
    omega
  · rename_i other
    exact (if_neg other).symm

theorem toLower_toUpper (c : Char) : c.toUpper.toLower = c.toLower := by
  rw [← Char.toNat_inj, toNat_toLower, toNat_toLower, toNat_toUpper]
  grind

theorem toUpper_toLower (c : Char) : c.toLower.toUpper = c.toUpper := by
  rw [← Char.toNat_inj, toNat_toUpper, toNat_toUpper, toNat_toLower]
  grind

theorem map_toUpper_eq_iff {first second : List Char} :
    first.map Char.toUpper = second.map Char.toUpper ↔
      first.map Char.toLower = second.map Char.toLower := by
  constructor
  · intro same
    have lowered := congrArg (List.map Char.toLower) same
    simpa only [List.map_map, Function.comp_def, toLower_toUpper] using lowered
  · intro same
    have raised := congrArg (List.map Char.toUpper) same
    simpa only [List.map_map, Function.comp_def, toUpper_toLower] using raised

theorem digitValue_toUpper (c : Char) : digitValue c.toUpper = digitValue c := by
  have le (first second : Char) : first ≤ second ↔ first.toNat ≤ second.toNat := Iff.rfl
  simp only [digitValue, le, toNat_toUpper, Char.reduceToNat]
  grind

theorem readDigits_toUpper (base sofar : Nat) (cs : List Char) :
    readDigits base sofar (cs.map Char.toUpper) = readDigits base sofar cs := by
  induction cs generalizing sofar with
  | nil => rfl
  | cons c cs ih => simp [readDigits, digitIn, digitValue_toUpper, ih]

theorem upperCase_inj {first second : List Char} :
    upperCase first = upperCase second ↔ first.map Char.toUpper = second.map Char.toUpper :=
  String.ofList_inj

end EightBit.Text
