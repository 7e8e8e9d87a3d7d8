import EightBit.Text
import Mathlib.Tactic.SplitIfs

namespace EightBit.Text

theorem cons_ofNat_lt_cons_iff {a b : Nat} {xs ys : List UInt8} (left : a < 256)
    (right : b < 256) :
    UInt8.ofNat a :: xs < UInt8.ofNat b :: ys ↔ a < b ∨ a = b ∧ xs < ys := by
  rw [List.cons_lt_cons_iff, UInt8.lt_iff_toNat_lt, ← UInt8.toNat_inj,
    UInt8.toNat_ofNat_of_lt' left, UInt8.toNat_ofNat_of_lt' right]

theorem utf8EncodeChar_append_lt {c d : Char} (less : c < d) (xs ys : List UInt8) :
    String.utf8EncodeChar c ++ xs < String.utf8EncodeChar d ++ ys := by
  have order : c.val.toNat < d.val.toNat := UInt32.lt_iff_toNat_lt.mp less
  have last : d.val.toNat < 0x110000 := by
    rcases d.valid with low | high
    · exact Nat.lt_trans low (by decide)
    · exact high.2
  have digits (n : Nat) : n / 4096 = n / 64 / 64 ∧ n / 262144 = n / 64 / 64 / 64 := by omega
  simp only [String.utf8EncodeChar]
  generalize c.val.toNat = v at order
  generalize d.val.toNat = w at order last
  -- Where the lengths differ, the leading byte of the shorter one is smaller; where they are the
  -- same, the bytes are the digits of the code points to base 64, the highest one first.
  split_ifs <;>
    simp (disch := omega) only [List.cons_append, List.nil_append, cons_ofNat_lt_cons_iff, digits]
      <;> omega

theorem bytes_lt_of_lt {first second : List Char} (less : first < second) :
    bytes first < bytes second := by
  induction less with
  | @nil c cs =>
      obtain ⟨lead, rest, encoded⟩ := List.exists_cons_of_ne_nil (@String.utf8EncodeChar_ne_nil c)
      rw [bytes, bytes, List.flatMap_nil, List.flatMap_cons, encoded]
      exact List.nil_lt_cons lead _
  | cons _ ih =>
      rw [bytes, bytes, List.flatMap_cons, List.flatMap_cons]
      exact List.append_left_lt ih
  | rel less =>
      rw [bytes, bytes, List.flatMap_cons, List.flatMap_cons]
      exact utf8EncodeChar_append_lt less _ _

end EightBit.Text
