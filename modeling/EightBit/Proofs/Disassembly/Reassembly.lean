import EightBit.Proofs.Assembly.Emission
import EightBit.Proofs.Disassembly.Listing
import EightBit.Proofs.Layout.Modes

/-!
A listing that is assembled gives a binary which is read back as the same listing: every line
takes the place that the listing counts for it, and its bytes are read as its instruction.
-/
namespace EightBit

namespace Placed

theorem toInt_ofInt_of_small {value : Int} (low : -0x80 ≤ value) (high : value ≤ 0xFFFF) :
    (Int64.ofInt value).toInt = value :=
  Int64.toInt_ofInt_of_le (by omega) (by omega)

theorem toNat_lowByte_ofInt {value : Int} (low : 0 ≤ value) (high : value ≤ 0xFF) :
    ((lowByte (.ofInt value)).toNat : Int) = value := by
  rw [toNat_lowByte_eq, toInt_ofInt_of_small (by omega) (by omega)]
  omega

theorem toNat_halves_ofInt {value : Int} (low : 0 ≤ value) (high : value ≤ 0xFFFF) :
    0x100 * ((highByte (.ofInt value)).toNat : Int) + (lowByte (.ofInt value)).toNat = value := by
  rw [toNat_lowByte_eq, toNat_highByte_eq, toInt_ofInt_of_small (by omega) (by omega)]
  omega

theorem signed_lowByte_ofInt {distance : Int} (low : -128 ≤ distance) (high : distance ≤ 127) :
    (if lowByte (.ofInt distance) < 0x80 then ((lowByte (.ofInt distance)).toNat : Int)
      else (lowByte (.ofInt distance)).toNat - 0x100) = distance := by
  have byte : ((lowByte (.ofInt distance)).toNat : Int) = distance % 0x100 := by
    rw [toNat_lowByte_eq, toInt_ofInt_of_small (by omega) (by omega)]
  have half : lowByte (.ofInt distance) < 0x80 ↔ (lowByte (.ofInt distance)).toNat < 0x80 :=
    UInt8.lt_iff_toNat_lt
  by_cases positive : 0 ≤ distance
  · rw [if_pos (half.mpr (by omega))]
    omega
  · rw [if_neg (mt half.mp (by omega))]
    omega

theorem ofInt_sub_base (address : Nat) (distance : Int) :
    Int64.ofInt (address + 2 + distance) - Int64.ofNat (address + 2) = Int64.ofInt distance := by
  have base : Int64.ofNat (address + 2) = Int64.ofInt (address + 2) := by
    rw [← Int64.ofInt_eq_ofNat]
    rfl
  rw [base, ← Int64.ofInt_sub]
  congr 1
  omega

end Placed

namespace Listed

variable {listed : Listed}

theorem Encodable.operand_bounds (encodable : listed.Encodable) :
    -0x80 ≤ listed.operand ∧ listed.operand ≤ 0xFFFF := by
  obtain ⟨low, high⟩ := encodable.inRange
  generalize listed.mode = mode at low high
  cases mode <;> simp only [AddressingMode.operandRange] at low high <;> omega

theorem Encodable.toInt_operand (encodable : listed.Encodable) :
    (Int64.ofInt listed.operand).toInt = listed.operand :=
  Placed.toInt_ofInt_of_small encodable.operand_bounds.1 encodable.operand_bounds.2

theorem Encodable.natAbs_written_lt (encodable : listed.Encodable) {address : Nat}
    (inside : address ≤ 0x10000) : (listed.written address).natAbs < Token.numberLimit := by
  obtain ⟨low, high⟩ := encodable.operand_bounds
  unfold written Token.numberLimit
  split <;> omega

theorem Encodable.exists_operandBytes (encodable : listed.Encodable) (placed : Placed)
    (span : Span) :
    ∃ bytes, placed.operandBytes listed.mode span (.ofInt (listed.written placed.address)) =
        .ok bytes ∧
      listed.mode.operandOf? bytes = some listed.operand := by
  obtain ⟨low, high⟩ := encodable.inRange
  rcases listed with ⟨mnemonic, mode, operand⟩
  dsimp only at low high ⊢
  cases mode with
  | implied =>
      refine ⟨[], rfl, congrArg some ?_⟩
      exact Int.le_antisymm low high
  | immediate | zeroPage | indirectY =>
      exact ⟨_, rfl, congrArg some (Placed.toNat_lowByte_ofInt low high)⟩
  | absolute | absoluteX | absoluteY =>
      exact ⟨_, rfl, congrArg some (Placed.toNat_halves_ofInt low high)⟩
  | relative =>
      have small : (Int64.ofInt operand).toInt = operand := encodable.toInt_operand
      have near : -128 ≤ Int64.ofInt operand ∧ Int64.ofInt operand ≤ 127 := by
        rw [Int64.le_iff_toInt_le, Int64.le_iff_toInt_le, small]
        exact ⟨low, high⟩
      refine ⟨[Placed.lowByte (.ofInt operand)], ?_,
        congrArg some (Placed.signed_lowByte_ofInt low high)⟩
      simp only [Placed.operandBytes, written, Placed.ofInt_sub_base, near, and_self, ↓reduceIte]

/-- Bytes that are read as an instruction, whatever comes behind them. -/
def EncodedAs (listed : Listed) (bytes : List UInt8) : Prop :=
  bytes.length = listed.mode.size ∧
    ∀ rest, disassemble (bytes ++ rest) = (disassemble rest).map (listed :: ·)

theorem encodedAs_of_operandOf? {opcode : UInt8} {bytes : List UInt8}
    (coded : Instruction.encode? listed.mnemonic listed.mode = some opcode)
    (length : bytes.length = listed.mode.operandLength)
    (operand : listed.mode.operandOf? bytes = some listed.operand) :
    listed.EncodedAs (opcode :: bytes) := by
  constructor
  · rw [List.length_cons, length, AddressingMode.size, Nat.add_comm]
  · intro rest
    obtain ⟨instruction, decoded, mnemonic, mode⟩ := Instruction.decode?_of_encode? coded
    rw [List.cons_append, disassemble, decoded]
    simp only [mnemonic, mode, ← length, List.take_left, List.drop_left, operand, bind, pure,
      Option.bind_some]
    cases disassemble rest <;> rfl

def Records (address : Nat) (listed : Listed) (operand : Option Located) : Prop :=
  (listed.mode = .implied ∧ operand = none) ∨
    ∃ span, operand = some ⟨.literal (listed.written address), span⟩

theorem Encodable.exists_encode (encodable : listed.Encodable) {symbols : SymbolTable}
    {placed : Placed} {operand : Option Located} (records : listed.Records placed.address operand)
    (content : placed.content = .instruction listed.mnemonic listed.mode operand) :
    ∃ bytes, placed.encode symbols = .ok bytes ∧ listed.EncodedAs bytes := by
  obtain ⟨opcode, coded⟩ := Option.isSome_iff_exists.mp encodable.supported
  rcases records with ⟨implied, rfl⟩ | ⟨span, rfl⟩
  · obtain ⟨low, high⟩ := encodable.inRange
    rw [implied] at low high
    have zero : listed.operand = 0 := Int.le_antisymm high low
    refine ⟨[opcode], ?_, encodedAs_of_operandOf? coded ?_ ?_⟩
    · simp only [Placed.encode, content, Placed.instructionBytes, coded]
    · rw [implied]
      rfl
    · rw [implied, zero]
      rfl
  · obtain ⟨bytes, made, read⟩ := encodable.exists_operandBytes placed span
    have known : symbols.evaluate (.literal (listed.written placed.address)) =
        .ok (.ofInt (listed.written placed.address)) := Expr.eval_literal _ _
    exact ⟨opcode :: bytes, Placed.encode_instruction content coded known made,
      encodedAs_of_operandOf? coded (Placed.length_operandBytes made) read⟩

end Listed

namespace Layout

open Listed

variable {listed : Listed} {address : Nat}

theorem directMode_literal (encodable : listed.Encodable) (state : State) (address : Nat)
    (direct : listed.mode = .zeroPage ∨ listed.mode = .absolute ∨ listed.mode = .relative) :
    directMode state listed.mnemonic (.literal (listed.written address)) = listed.mode := by
  have known : state.eval (.literal listed.operand) = .ok (.ofInt listed.operand) :=
    Expr.eval_literal _ _
  have byte : 0 ≤ Int64.ofInt listed.operand ∧ Int64.ofInt listed.operand ≤ 0xFF ↔
      0 ≤ listed.operand ∧ listed.operand ≤ 0xFF := by
    rw [Int64.le_iff_toInt_le, Int64.le_iff_toInt_le, encodable.toInt_operand]
    rfl
  have supported := encodable.supported
  rcases direct with zeroPage | absolute | relative
  · have range := encodable.inRange
    rw [zeroPage] at supported range ⊢
    simp only [written, zeroPage]
    rcases directMode_cases state (.literal listed.operand) supported with ⟨mode, -⟩ | ⟨-, none⟩
    · exact mode
    · exact absurd ⟨_, known, byte.mpr range⟩ none
  · rw [absolute] at supported ⊢
    simp only [written, absolute]
    -- only where there is a short form does the value decide, and there it is too large
    by_cases short : listed.mnemonic.supports .zeroPage = true
    · have far := encodable.far absolute short
      rcases directMode_cases state (.literal listed.operand) short with
        ⟨-, value, found, small⟩ | ⟨mode, -⟩
      · cases known.symm.trans found
        have near := (byte.mp small).2
        omega
      · exact mode
    · have straight := Mnemonic.isBranch_of_supports_absolute supported
      simp only [directMode, straight, short, Bool.false_eq_true, ↓reduceIte]
  · rw [relative] at supported ⊢
    have branch : listed.mnemonic.isBranch = true := supported
    simp only [directMode, branch, ↓reduceIte]

theorem exists_shape (encodable : listed.Encodable) (state : State) {operands : List Operand}
    (kinds : operands.map (·.kind) =
      OperandKind.ofMode (listed.written address) listed.mode) :
    ∃ operand, shape? state listed.mnemonic operands = some (listed.mode, operand) ∧
      listed.Records address operand := by
  have direct := directMode_literal encodable state address
  rcases listed with ⟨mnemonic, mode, operand⟩
  dsimp only at kinds direct ⊢
  cases mode with
  | implied =>
      cases List.map_eq_nil_iff.mp kinds
      exact ⟨none, rfl, Or.inl ⟨rfl, rfl⟩⟩
  | immediate =>
      obtain ⟨⟨_, span⟩, rfl, rfl⟩ := List.map_eq_singleton_iff.mp kinds
      exact ⟨_, rfl, Or.inr ⟨span, rfl⟩⟩
  | zeroPage | absolute | relative =>
      obtain ⟨⟨_, span⟩, rfl, rfl⟩ := List.map_eq_singleton_iff.mp kinds
      refine ⟨_, ?_, Or.inr ⟨span, rfl⟩⟩
      rw [shape?, direct (by simp)]
  | absoluteX | absoluteY | indirectY =>
      obtain ⟨⟨_, span⟩, rest, rfl, rfl, index⟩ := List.map_eq_cons_iff.mp kinds
      obtain ⟨⟨_, _⟩, rfl, rfl⟩ := List.map_eq_singleton_iff.mp index
      exact ⟨_, rfl, Or.inr ⟨span, rfl⟩⟩

theorem exists_advance (encodable : listed.Encodable) {here : SourceLine} {before : State}
    (text : here.text = listed.line before.cursor.toNat)
    (fits : before.cursor.toNat + listed.mode.size ≤ 0x10000) :
    ∃ after placed bytes, Advance here before after [placed] ∧
      after.symbols = before.symbols ∧
      after.cursor.toNat = before.cursor.toNat + listed.mode.size ∧
      placed.address = before.cursor.toNat ∧ placed.encode before.symbols = .ok bytes ∧
      listed.EncodedAs bytes := by
  obtain ⟨ident, operands, parsed, named, kinds⟩ :=
    listed.parse_line (encodable.natAbs_written_lt (by omega : before.cursor.toNat ≤ 0x10000))
  obtain ⟨operand, shaped, records⟩ := exists_shape encodable before kinds
  have read : Line.parse here.text = .ok ⟨none, some (.instruction ident operands)⟩ := by
    rw [text, parsed]
  have mnemonic : Mnemonic.ofName? ident.name = some listed.mnemonic := by
    rw [named, Mnemonic.ofName?_name]
  have decided := Decides.instruction mnemonic shaped encodable.supported
  let content : Content := .instruction listed.mnemonic listed.mode operand
  let placed := before.put here (instructionSpan ident operands) content
  have sum : (before.cursor + content.size).toNat = before.cursor.toNat + listed.mode.size :=
    toNat_cursor_add (by omega) (by simp only [content, Content.extent]; omega)
  have inside : before.cursor + content.size ≤ addressLimit := by
    rw [UInt32.le_iff_toNat_le, sum]
    exact fits
  have address : placed.address = before.cursor.toNat := by
    have size : 0 < listed.mode.size := Nat.lt_add_right _ Nat.zero_lt_one
    simp only [placed, State.put, UInt32.toNat_mod, toNat_addressLimit]
    exact Nat.mod_eq_of_lt (by omega)
  obtain ⟨bytes, encoded, made⟩ : ∃ bytes, placed.encode before.symbols = .ok bytes ∧
      listed.EncodedAs bytes := encodable.exists_encode (address ▸ records) rfl
  exact ⟨_, placed, bytes, .statement read .unlabelled decided inside, rfl, sum, address, encoded,
    made⟩

theorem advances_blank {blank : List (List Char)} (empty : ∀ text ∈ blank, text = [])
    (number offset : Nat) (state : State) :
    Advances (SourceLine.listFrom number offset blank) state state [] := by
  induction blank generalizing number offset with
  | nil => exact .done
  | cons text rest ih =>
      have first : text = [] := empty text List.mem_cons_self
      have read : Line.parse text = .ok ⟨none, none⟩ := by rw [first, Line.parse_nil]
      have later := ih fun other member => empty other (List.mem_cons_of_mem _ member)
      exact .line (.bare read .unlabelled) (later _ _)

end Layout

/-- Statements that are encoded to the instructions of a listing, one behind the other from an
address on, and all their bytes. -/
inductive Carries (symbols : SymbolTable) :
    Nat → List Listed → List Placed → List UInt8 → Prop
  | nothing {address : Nat} : Carries symbols address [] [] []
  | instruction {listed : Listed} {rest : List Listed} {placed : Placed} {more : List Placed}
      {bytes code : List UInt8} (encoded : placed.encode symbols = .ok bytes)
      (made : listed.EncodedAs bytes)
      (later : Carries symbols (placed.address + listed.mode.size) rest more code) :
      Carries symbols placed.address (listed :: rest) (placed :: more) (bytes ++ code)

namespace Layout

theorem exists_advances {items : List Listed} (encodable : ∀ listed ∈ items, listed.Encodable)
    {blank : List (List Char)} (empty : ∀ text ∈ blank, text = []) (number offset : Nat)
    {before : State} (fits : before.cursor.toNat + totalSize items ≤ 0x10000) :
    ∃ after placed code, Advances (SourceLine.listFrom number offset
        (listingLines before.cursor.toNat items ++ blank)) before after placed ∧
      after.symbols = before.symbols ∧
      Carries before.symbols before.cursor.toNat items placed code := by
  induction items generalizing number offset before with
  | nil => exact ⟨before, [], [], advances_blank empty number offset before, rfl, .nothing⟩
  | cons listed rest ih =>
      rw [totalSize] at fits
      let here : SourceLine := ⟨number, offset, listed.line before.cursor.toNat⟩
      have written : here.text = listed.line before.cursor.toNat := rfl
      obtain ⟨next, placed, bytes, now, same, cursor, address, encoded, made⟩ :=
        exists_advance (encodable listed List.mem_cons_self) written (by omega)
      have others : ∀ other ∈ rest, other.Encodable :=
        fun other member => encodable other (List.mem_cons_of_mem _ member)
      have room : next.cursor.toNat + totalSize rest ≤ 0x10000 := by omega
      -- the cursor is now at the address that the listing counts for the next line
      obtain ⟨after, more, code, later, symbols, carries⟩ := ih others _ _ room
      rw [cursor, ← address, same] at carries
      rw [cursor] at later
      refine ⟨after, [placed] ++ more, bytes ++ code, .line now later, symbols.trans same, ?_⟩
      rw [← address]
      exact .instruction encoded made carries

end Layout

namespace Carries

variable {symbols : SymbolTable} {address : Nat} {items : List Listed} {statements : List Placed}
  {code : List UInt8}

theorem length_code (carries : Carries symbols address items statements code) :
    code.length = totalSize items := by
  induction carries with
  | nothing => rfl
  | instruction encoded made later ih => rw [List.length_append, made.1, ih, totalSize]

theorem disassemble_code (carries : Carries symbols address items statements code) :
    disassemble code = some items := by
  induction carries with
  | nothing => rw [disassemble]
  | instruction encoded made later ih =>
      rw [made.2, ih]
      rfl

theorem emit_of_free (carries : Carries symbols address items statements code) {image : Image}
    (fits : address + code.length ≤ 0x10000)
    (free : ∀ place, address ≤ place → image.get? place = none) :
    (Program.emit symbols image statements).errors = [] ∧
      (Program.emit symbols image statements).overwrites.map (·.address) = [] ∧
      ∀ place, (Program.emit symbols image statements).image.get? place =
        if place < address then image.get? place else code[place - address]? := by
  induction carries generalizing image with
  | nothing =>
      refine ⟨rfl, rfl, fun place => ?_⟩
      split
      · rfl
      · rename_i beyond
        exact free place (Nat.le_of_not_lt beyond)
  | @instruction listed rest placed more bytes code encoded made later ih =>
      rw [List.length_append] at fits
      rw [← made.1] at ih
      have inside : placed.address + bytes.length ≤ 0x10000 := by omega
      have written := Image.get?_writeAll_of_free placed.line inside free
      have clean := Image.overwrites_writeAll_of_free placed.line inside free
      rw [Program.emit_cons encoded]
      cases ran : image.writeAll placed.line placed.address bytes with | mk next overwrites => ?_
      rw [ran] at written clean
      -- behind the bytes just written the image is as free as it was behind the address
      have beyond : ∀ place, placed.address + bytes.length ≤ place → next.get? place = none := by
        intro place behind
        rw [written, if_neg (by omega), List.getElem?_eq_none (by omega)]
      obtain ⟨errors, others, stands⟩ := ih (by omega) beyond
      refine ⟨errors, ?_, fun place => ?_⟩
      · rw [List.map_append, clean, others]
        rfl
      · rw [stands, written, List.getElem?_append]
        by_cases before : place < placed.address
        · rw [if_pos (by omega), if_pos before, if_pos before]
        · by_cases within : place < placed.address + bytes.length
          · rw [if_pos within, if_neg before, if_neg before, if_pos (by omega)]
          · rw [if_neg within, if_neg before, if_neg (by omega), Nat.sub_sub]

end Carries

/-- Reassembling a disassembly gives the same instructions again: a listing that fits in memory
is assembled without overlaps, and its binary is read as the list it was written from. -/
theorem disassemble_assemble {items : List Listed} (encodable : ∀ listed ∈ items, listed.Encodable)
    (fits : totalSize items ≤ 0x10000) {ending : List Char}
    (ends : ending = [] ∨ ending = ['\n']) :
    ∃ program, assemble (listing items ++ ending) = .ok program ∧ program.overlaps = [] ∧
      disassemble program.image.toBinary = some items := by
  obtain ⟨blank, empty, lines⟩ := lines_listing items ends
  have room : Layout.State.initial.cursor.toNat + totalSize items ≤ 0x10000 := by
    rw [← Nat.zero_add (totalSize items)] at fits
    exact fits
  obtain ⟨after, statements, code, advances, symbols, carries⟩ :=
    Layout.exists_advances encodable empty 1 0 room
  have laid : (Layout.ofSource (listing items ++ ending)).1 = .ok ⟨statements, .empty⟩ := by
    refine Layout.ofSource_eq_ok_iff.mpr ⟨after, ?_, symbols.symm⟩
    rw [SourceLine.ofSource, lines]
    exact advances
  have inside : 0 + code.length ≤ 0x10000 := by
    rw [carries.length_code]
    exact room
  obtain ⟨errors, overlaps, stands⟩ := carries.emit_of_free inside fun place _ => Image.get?_empty place
  obtain ⟨program, assembled, image, overwritten⟩ := Program.assemble_of_layout laid errors
  have binary : program.image.toBinary = code := by
    apply Image.toBinary_of_get?
    intro place
    rw [image]
    exact stands place
  exact ⟨program, assembled, overwritten.trans overlaps, binary ▸ carries.disassemble_code⟩

theorem disassemble_assemble_below_zero :
    let items : List Listed :=
      [⟨.bne, .relative, -7⟩, ⟨.lda, .absolute, 256⟩, ⟨.jmp, .absolute, 9⟩,
        ⟨.lda, .zeroPage, 255⟩, ⟨.sta, .absoluteX, 65535⟩, ⟨.sta, .indirectY, 0⟩,
        ⟨.nop, .implied, 0⟩]
    let text := "BNE -5\nLDA 256\nJMP 9\nLDA 255\nSTA 65535,X\nSTA (0),Y\nNOP\n"
    ∃ program, assemble text.toList = .ok program ∧ program.overlaps = [] ∧
      disassemble program.image.toBinary = some items := by
  intro items text
  have encodable : ∀ listed ∈ items, listed.Encodable := by decide
  have fits : totalSize items ≤ 0x10000 := by decide
  have written : listing items ++ ['\n'] = text.toList := by decide +kernel
  rw [← written]
  exact disassemble_assemble encodable fits (Or.inr rfl)

end EightBit
