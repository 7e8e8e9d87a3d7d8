import EightBit.Expr

namespace EightBit

def wrapped (number : Int) : Int := number.bmod 0x10000000000000000

theorem wrapped_emod_byte (number : Int) : wrapped (number % 0x100) = number % 0x100 :=
  Int.bmod_eq_of_le (by omega) (by omega)

theorem toInt_and_byte (value : Int64) : (value &&& 0xFF).toInt = value.toInt % 0x100 := by
  have bits : (value &&& 0xFF).toBitVec.toNat = value.toBitVec.toNat % 0x100 := by
    rw [Int64.toBitVec_and, BitVec.toNat_and]
    exact Nat.and_two_pow_sub_one_eq_mod _ 8
  have signed (other : Int64) : other.toInt = other.toBitVec.toInt := rfl
  have below := value.toBitVec.isLt
  rw [signed, signed, BitVec.toInt_eq_toNat_cond, BitVec.toInt_eq_toNat_cond, bits]
  split <;> split <;> omega

theorem toInt_shiftRight_byte (value : Int64) : (value >>> 8).toInt = value.toInt / 0x100 := by
  have shifted : (value >>> 8).toInt = value.toInt >>> (8 : Nat) :=
    BitVec.toInt_sshiftRight
  rw [shifted]
  exact Int.shiftRight_eq_div_pow value.toInt 8

namespace UnaryOp

theorem toInt_apply_low (value : Int64) : (low.apply value).toInt = value.toInt % 0x100 :=
  toInt_and_byte value

theorem toInt_apply_high (value : Int64) :
    (high.apply value).toInt = value.toInt / 0x100 % 0x100 := by
  rw [apply, toInt_and_byte, toInt_shiftRight_byte]

/-- The operation in whole numbers, which have no bounds. A byte is taken of the 64 bits that the
operand has: the lowest eight of them, or the eight above. -/
def onWhole : UnaryOp → Int → Int
  | low, number => wrapped number % 0x100
  | high, number => wrapped number / 0x100 % 0x100
  | negate, number => -number

theorem toInt_apply {value : Int64} {number : Int} (held : value.toInt = wrapped number)
    (op : UnaryOp) : (op.apply value).toInt = wrapped (op.onWhole number) := by
  cases op with
  | low => rw [toInt_apply_low, held, onWhole, wrapped_emod_byte]
  | high => rw [toInt_apply_high, held, onWhole, wrapped_emod_byte]
  | negate =>
      calc
        (negate.apply value).toInt = wrapped (-value.toInt) := Int64.toInt_neg value
        _ = wrapped (-number) := by rw [held, wrapped, wrapped, wrapped, Int.bmod_neg_bmod]

end UnaryOp

namespace BinaryOp

def onWhole : BinaryOp → Int → Int → Int
  | add, left, right => left + right
  | subtract, left, right => left - right

theorem toInt_apply {first second : Int64} {left right : Int}
    (heldLeft : first.toInt = wrapped left) (heldRight : second.toInt = wrapped right)
    (op : BinaryOp) :
    (op.apply first second).toInt = wrapped (op.onWhole left right) := by
  cases op with
  | add =>
      calc
        (add.apply first second).toInt = wrapped (first.toInt + second.toInt) :=
          Int64.toInt_add first second
        _ = wrapped (left + right) := by
          rw [heldLeft, heldRight]
          exact (Int.add_bmod left right _).symm
  | subtract =>
      calc
        (subtract.apply first second).toInt = wrapped (first.toInt - second.toInt) :=
          Int64.toInt_sub first second
        _ = wrapped (left - right) := by
          rw [heldLeft, heldRight]
          exact (Int.sub_bmod left right _).symm

end BinaryOp

namespace Expr

def whole (known : Ident → Int64) : Expr → Int
  | number value => value.toInt
  | symbol ident => (known ident).toInt
  | unary op operand => op.onWhole (operand.whole known)
  | binary op left right => op.onWhole (left.whole known) (right.whole known)

end Expr

end EightBit
