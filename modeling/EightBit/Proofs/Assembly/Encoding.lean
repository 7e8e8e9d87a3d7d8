import EightBit.Assembly
import EightBit.Proofs.Layout.Extent

namespace EightBit.Placed

variable {symbols : SymbolTable} {placed : Placed} {bytes : List UInt8}

theorem length_operandBytes {mode : AddressingMode} {span : Span} {value : Int64}
    (encoded : placed.operandBytes mode span value = .ok bytes) :
    bytes.length = mode.operandLength := by
  cases mode with
  | implied | immediate | zeroPage | absolute | absoluteX | absoluteY | indirectY =>
      cases encoded
      rfl
  | relative =>
      simp only [operandBytes] at encoded
      split at encoded
      · cases encoded
        rfl
      · cases encoded

theorem length_itemBytes {items : List DataItem}
    (encoded : placed.itemBytes symbols items = .ok bytes) : bytes.length = itemsExtent items := by
  induction items generalizing bytes with
  | nil =>
      cases encoded
      rfl
  | cons item rest ih =>
      cases item with
      | value expr =>
          rcases ok_of_bind encoded with ⟨value, -, after⟩
          obtain ⟨more, later, done⟩ := ok_of_bind after
          cases done
          rw [List.length_cons, ih later, itemsExtent, DataItem.extent, Nat.add_comm]
      | string text =>
          obtain ⟨more, later, done⟩ := ok_of_bind encoded
          cases done
          rw [List.length_append, Text.length_bytes, ih later, itemsExtent, DataItem.extent]

theorem length_wordBytes {values : List Expr}
    (encoded : placed.wordBytes symbols values = .ok bytes) : bytes.length = 2 * values.length := by
  induction values generalizing bytes with
  | nil =>
      cases encoded
      rfl
  | cons expr rest ih =>
      rcases ok_of_bind encoded with ⟨value, -, after⟩
      obtain ⟨more, later, done⟩ := ok_of_bind after
      cases done
      rw [List.length_append, ih later, List.length_cons, word]
      simp only [List.length_cons, List.length_nil]
      omega

theorem length_instructionBytes {mnemonic : Mnemonic} {mode : AddressingMode}
    {operand : Option Located} (complete : operand = none ↔ mode = .implied)
    (encoded : placed.instructionBytes symbols mnemonic mode operand = .ok bytes) :
    bytes.length = mode.size := by
  unfold instructionBytes at encoded
  split at encoded
  · cases encoded
  · split at encoded
    · cases encoded
      rw [complete.mp rfl]
      rfl
    · rcases ok_of_bind encoded with ⟨value, -, after⟩
      obtain ⟨more, operandBytes, done⟩ := ok_of_bind after
      cases done
      rw [List.length_cons, length_operandBytes operandBytes, AddressingMode.size, Nat.add_comm]

theorem length_encode (complete : placed.content.Complete)
    (encoded : placed.encode symbols = .ok bytes) : bytes.length = placed.content.extent := by
  unfold encode at encoded
  split at encoded
  · rename_i mnemonic mode operand same
    rw [same] at complete ⊢
    exact length_instructionBytes complete encoded
  · rename_i items same
    rw [same]
    exact length_itemBytes encoded
  · rename_i values same
    rw [same]
    exact length_wordBytes encoded
  · rename_i text same
    cases encoded
    rw [same, List.length_append, Text.length_bytes]
    rfl

theorem toNat_toUInt64 (value : Int64) :
    (value.toUInt64.toNat : Int) = value.toInt % 0x10000000000000000 := by
  have signed : value.toInt = value.toBitVec.toInt := rfl
  have pattern : value.toUInt64.toNat = value.toBitVec.toNat := rfl
  have below : value.toBitVec.toNat < 0x10000000000000000 := value.toBitVec.isLt
  rw [signed, pattern, BitVec.toInt_eq_toNat_cond]
  split <;> omega

theorem toNat_lowByte_eq (value : Int64) :
    ((lowByte value).toNat : Int) = value.toInt % 0x100 := by
  have pattern := toNat_toUInt64 value
  rw [lowByte, UInt64.toNat_toUInt8]
  omega

theorem toNat_highByte_eq (value : Int64) :
    ((highByte value).toNat : Int) = value.toInt / 0x100 % 0x100 := by
  have pattern := toNat_toUInt64 value
  have shifted : (value.toUInt64 >>> 8).toNat = value.toUInt64.toNat / 0x100 := by
    rw [UInt64.toNat_shiftRight]
    exact Nat.shiftRight_eq_div_pow _ _
  rw [highByte, UInt64.toNat_toUInt8, shifted]
  omega

theorem toNat_lowByte {value : Int64} (low : 0 ≤ value) (high : value ≤ 0xFF) :
    ((lowByte value).toNat : Int) = value.toInt := by
  have least : 0 ≤ value.toInt := Int64.le_iff_toInt_le.mp low
  have greatest : value.toInt ≤ 0xFF := Int64.le_iff_toInt_le.mp high
  rw [toNat_lowByte_eq]
  exact Int.emod_eq_of_lt least (Int.lt_add_one_of_le greatest)

theorem resolve_of_evaluate {expr : Expr} {value : Int64}
    (known : symbols.evaluate expr = .ok value) (placed : Placed) :
    placed.resolve symbols expr = .ok value := by
  rw [SymbolTable.evaluate] at known
  rw [resolve, known]

theorem encode_instruction {mnemonic : Mnemonic} {mode : AddressingMode} {located : Located}
    {opcode : UInt8} {value : Int64}
    (content : placed.content = .instruction mnemonic mode (some located))
    (coded : Instruction.encode? mnemonic mode = some opcode)
    (known : symbols.evaluate located.expr = .ok value)
    (made : placed.operandBytes mode located.span value = .ok bytes) :
    placed.encode symbols = .ok (opcode :: bytes) := by
  have resolved := resolve_of_evaluate known placed
  simp only [encode, content, instructionBytes, coded, resolved, bind, Except.bind, made]
  rfl

theorem encode_zeroPage {mnemonic : Mnemonic} {located : Located} {opcode : UInt8} {value : Int64}
    (content : placed.content = .instruction mnemonic .zeroPage (some located))
    (coded : Instruction.encode? mnemonic .zeroPage = some opcode)
    (known : symbols.evaluate located.expr = .ok value) :
    placed.encode symbols = .ok [opcode, lowByte value] :=
  encode_instruction content coded known rfl

end EightBit.Placed
