import EightBit.Proofs.Layout.Lines
import EightBit.Proofs.Line.RoundTrip
import EightBit.Proofs.Text.Positional

/-!
Listings of instructions: how they are written, one on each line, with all numbers in decimal, and
how they are read from a binary. The lines of a listing are read as they were written.
-/
namespace EightBit

/-- An instruction with its operand. The operand of a branch is its distance from the instruction
behind it; where the mode has no operand, it is zero. -/
structure Listed where
  mnemonic : Mnemonic
  mode : AddressingMode
  operand : Int
  deriving DecidableEq

namespace AddressingMode

def operandRange : AddressingMode → Int × Int
  | implied => (0, 0)
  | immediate | zeroPage | indirectY => (0, 0xFF)
  | absolute | absoluteX | absoluteY => (0, 0xFFFF)
  | relative => (-128, 127)

def operandText (value : Int) : AddressingMode → List Char
  | implied => []
  | immediate => '#' :: Text.decimal value
  | zeroPage | absolute | relative => Text.decimal value
  | absoluteX => Text.decimal value ++ [',', 'X']
  | absoluteY => Text.decimal value ++ [',', 'Y']
  | indirectY => '(' :: Text.decimal value ++ [')', ',', 'Y']

def operandOf? : AddressingMode → List UInt8 → Option Int
  | implied, [] => some 0
  | immediate, [byte] | zeroPage, [byte] | indirectY, [byte] => some byte.toNat
  | absolute, [low, high] | absoluteX, [low, high] | absoluteY, [low, high] =>
    some (0x100 * high.toNat + low.toNat)
  | relative, [byte] => some (if byte < 0x80 then byte.toNat else byte.toNat - 0x100)
  | _, _ => none

end AddressingMode

namespace Listed

/-- What a listing can have: instructions that exist, with operands that their bytes can hold. An
address in the zero page is not given two bytes where one would do. -/
structure Encodable (listed : Listed) : Prop where
  supported : listed.mnemonic.supports listed.mode = true
  inRange : listed.mode.operandRange.1 ≤ listed.operand ∧
    listed.operand ≤ listed.mode.operandRange.2
  far : listed.mode = .absolute → listed.mnemonic.supports .zeroPage = true →
    0x100 ≤ listed.operand

instance (listed : Listed) : Decidable listed.Encodable :=
  decidable_of_iff
    (listed.mnemonic.supports listed.mode = true ∧
      (listed.mode.operandRange.1 ≤ listed.operand ∧
        listed.operand ≤ listed.mode.operandRange.2) ∧
      (listed.mode = .absolute → listed.mnemonic.supports .zeroPage = true →
        0x100 ≤ listed.operand))
    ⟨fun ⟨supported, inRange, far⟩ => ⟨supported, inRange, far⟩,
      fun encodable => ⟨encodable.supported, encodable.inRange, encodable.far⟩⟩

/-- The number that is written for an operand: a branch is written with its target. -/
def written (address : Nat) (listed : Listed) : Int :=
  match listed.mode with
  | .relative => address + 2 + listed.operand
  | _ => listed.operand

def line (address : Nat) (listed : Listed) : List Char :=
  match listed.mode with
  | .implied => listed.mnemonic.name.toList
  | mode => listed.mnemonic.name.toList ++ ' ' :: mode.operandText (listed.written address)

end Listed

def totalSize : List Listed → Nat
  | [] => 0
  | listed :: rest => listed.mode.size + totalSize rest

def listingLines (address : Nat) : List Listed → List (List Char)
  | [] => []
  | listed :: rest => listed.line address :: listingLines (address + listed.mode.size) rest

def listing (items : List Listed) : List Char :=
  List.intercalate ['\n'] (listingLines 0 items)

/-- Reads a binary from its first byte to its last, one instruction after the other. -/
def disassemble : List UInt8 → Option (List Listed)
  | [] => some []
  | opcode :: rest => do
    let instruction ← Instruction.decode? opcode
    let operand ← instruction.mode.operandOf? (rest.take instruction.mode.operandLength)
    let later ← disassemble (rest.drop instruction.mode.operandLength)
    pure (⟨instruction.mnemonic, instruction.mode, operand⟩ :: later)
termination_by bytes => bytes.length
decreasing_by
  rw [List.length_drop, List.length_cons]
  omega

/-! The tree of an instruction whose operand is an integer, and its words. -/

section Operands

variable {value : Int} {mode : AddressingMode}

def OperandKind.listed (value : Int) (mode : AddressingMode) : List Operand :=
  (OperandKind.ofMode value mode).map fun kind => ⟨kind, ⟨0, 0⟩⟩

theorem toInt_ofNat_of_small {n : Nat} (small : n < Token.numberLimit) :
    (Int64.ofNat n).toInt = n := by
  rw [← Int64.ofInt_eq_ofNat]
  unfold Token.numberLimit at small
  exact Int64.toInt_ofInt_of_le (by omega) (by omega)

theorem Expr.written_literal (small : value.natAbs < Token.numberLimit) :
    (Expr.literal value).Written (Word.literal value) := by
  have numeral (n : Nat) : Word.Numeral n ⟨.decimal, Nat.toDigits 10 n⟩ :=
    .decimal Nat.toDigits_ne_nil (Text.denotes_toDigits n)
  cases value with
  | ofNat n => exact .number (toInt_ofNat_of_small small) (numeral n)
  | negSucc n => exact .unary (.number (toInt_ofNat_of_small small) (numeral (n + 1)))

theorem Expr.writable_literal (small : value.natAbs < Token.numberLimit) :
    (Expr.literal value).Writable := by
  have positive {n : Nat} (low : n < Token.numberLimit) : 0 ≤ (Int64.ofNat n).toInt := by
    rw [toInt_ofNat_of_small low]
    exact Int.natCast_nonneg n
  cases value with
  | ofNat n => exact positive small
  | negSucc n => exact ⟨positive small, rfl⟩

theorem Expr.eq_literal_of_bare {expr : Expr} (same : expr.bare = literal value) :
    expr = literal value := by
  cases value with
  | ofNat n =>
      cases expr with
      | number => exact same
      | symbol | unary | binary => cases same
  | negSucc n =>
      cases expr with
      | unary op operand =>
          obtain ⟨rfl, inner⟩ := Expr.unary.inj same
          cases operand with
          | number => exact same
          | symbol | unary | binary => cases inner
      | number | symbol | binary => cases same

theorem OperandKind.cases_of_mem_ofMode {kind : OperandKind} (member : kind ∈ ofMode value mode) :
    kind = .immediate (.literal value) ∨ kind = .value (.literal value) ∨
      kind = .indirect (.literal value) ∨ ∃ register, kind = .register register := by
  cases mode <;> simp only [ofMode, List.mem_cons, List.not_mem_nil, or_false] at member <;> grind

theorem OperandKind.bare_eq_self {kind : OperandKind} (member : kind.bare ∈ ofMode value mode) :
    kind.bare = kind := by
  cases kind with
  | register | string => rfl
  | immediate expr | value expr | indirect expr =>
      have same : expr.bare = .literal value := by
        simpa [bare] using cases_of_mem_ofMode member
      exact congrArg _ (same.trans (Expr.eq_literal_of_bare same).symm)

theorem kinds_eq_ofMode {operands : List Operand}
    (same : operands.map Operand.bare = (OperandKind.listed value mode).map Operand.bare) :
    operands.map (·.kind) = OperandKind.ofMode value mode := by
  have plain : (Expr.literal value).bare = .literal value := by cases value <;> rfl
  have kinds : operands.map (·.kind.bare) = OperandKind.ofMode value mode := by
    have forgotten := congrArg (List.map Operand.kind) same
    simp only [List.map_map] at forgotten
    refine Eq.trans forgotten ?_
    cases mode <;>
      simp [OperandKind.listed, OperandKind.ofMode, Operand.bare, OperandKind.bare, plain]
  rw [← kinds]
  apply List.map_congr_left
  intro operand member
  have among : operand.kind.bare ∈ OperandKind.ofMode value mode := by
    rw [← kinds]
    exact List.mem_map_of_mem member
  exact (OperandKind.bare_eq_self among).symm

theorem writtenOperands_listed (small : value.natAbs < Token.numberLimit) (mode : AddressingMode) :
    WrittenOperands (OperandKind.listed value mode) (Word.operands value mode) := by
  have literal := Expr.written_literal small
  cases mode with
  | implied => exact .none
  | immediate => exact .last (.immediate literal)
  | zeroPage | absolute | relative => exact .last (.value literal)
  | absoluteX | absoluteY => exact .comma (.value literal) (.last .register)
  | indirectY =>
      have written : WrittenOperands (OperandKind.listed value .indirectY)
          ((Word.openParen :: (Word.literal value ++ [Word.closeParen])) ++
            Word.comma :: [Word.name "Y"]) := .comma (.indirect literal) (.last .register)
      rwa [List.cons_append, List.append_assoc] at written

theorem writableOperands_listed (small : value.natAbs < Token.numberLimit)
    (mode : AddressingMode) : WritableOperands true (OperandKind.listed value mode) := by
  have literal := Expr.writable_literal small
  have direct : (OperandKind.value (.literal value)).Writable true := ⟨literal, nofun⟩
  cases mode with
  | implied => trivial
  | immediate => exact ⟨literal, trivial⟩
  | zeroPage | absolute | relative => exact ⟨direct, trivial⟩
  | absoluteX | absoluteY => exact ⟨direct, rfl, trivial⟩
  | indirectY => exact ⟨literal, rfl, trivial⟩

end Operands

namespace Word

variable {value : Int} {more : List Word} {rest : List Char}

theorem Spaced.literal (ends : ∀ c ∈ rest.head?, Token.continuesName c = false)
    (spaced : Spaced more rest) :
    Spaced (Word.literal value ++ more) (Text.decimal value ++ rest) := by
  cases value with
  | ofNat n => exact .tight (fun _ => ends) spaced
  | negSucc n =>
      exact .tight (apart_of_not_runsOn rfl _) (.tight (fun _ => ends) spaced)

theorem spaced_operandText (value : Int) (mode : AddressingMode) :
    Spaced (operands value mode) (mode.operandText value) := by
  have alone : Spaced (literal value) (Text.decimal value) := by
    have ends : ∀ c ∈ ([] : List Char).head?, Token.continuesName c = false := by simp
    have spaced : Spaced (literal value ++ []) (Text.decimal value ++ []) :=
      .literal ends spaced_nil
    rwa [List.append_nil, List.append_nil] at spaced
  have index (register : IndexRegister) :
      Spaced [comma, name register.name] (',' :: register.name.toList) := by
    have last : Spaced [name register.name] (register.name.toList ++ []) :=
      .tight (apart_nil _) spaced_nil
    rw [List.append_nil] at last
    exact .tight (apart_of_not_runsOn rfl _) last
  have x : Spaced [comma, name "X"] [',', 'X'] := index .x
  have y : Spaced [comma, name "Y"] [',', 'Y'] := index .y
  cases mode with
  | implied => exact spaced_nil
  | immediate => exact .tight (apart_of_not_runsOn rfl _) alone
  | zeroPage | absolute | relative => exact alone
  | absoluteX => exact .literal (by simp [Token.continuesName]) x
  | absoluteY => exact .literal (by simp [Token.continuesName]) y
  | indirectY =>
      have closed : Spaced [closeParen, comma, name "Y"] [')', ',', 'Y'] :=
        .tight (apart_of_not_runsOn rfl _) y
      exact .tight (apart_of_not_runsOn rfl _)
        (.literal (by simp [Token.continuesName]) closed)

end Word

namespace Text

theorem isDigit_or_minus_of_mem_decimal {value : Int} {c : Char} (member : c ∈ decimal value) :
    c.isDigit = true ∨ c = '-' := by
  cases value with
  | ofNat n => exact Or.inl (isDigit_of_mem_toDigits member)
  | negSucc n =>
      rcases List.mem_cons.mp member with rfl | digit
      · exact Or.inr rfl
      · exact Or.inl (isDigit_of_mem_toDigits digit)

theorem isBlank_of_mem_decimal {value : Int} {c : Char} (member : c ∈ decimal value) :
    Token.isBlank c = false := by
  rcases isDigit_or_minus_of_mem_decimal member with digit | rfl
  · exact (Token.ne_marks digit (by decide)).2.1
  · rfl

end Text

theorem AddressingMode.isBlank_of_mem_operandText {value : Int} {mode : AddressingMode} {c : Char}
    (member : c ∈ mode.operandText value) : Token.isBlank c = false := by
  have digits : ∀ d ∈ Text.decimal value, Token.isBlank d = false :=
    fun d digit => Text.isBlank_of_mem_decimal digit
  cases mode <;>
    simp only [operandText, List.cons_append, List.mem_cons, List.mem_append, List.not_mem_nil,
      or_false] at member
  case immediate =>
    rcases member with rfl | digit
    · rfl
    · exact digits c digit
  case zeroPage | absolute | relative => exact digits c member
  case absoluteX | absoluteY =>
    rcases member with digit | rfl | rfl
    · exact digits c digit
    · rfl
    · rfl
  case indirectY =>
    rcases member with rfl | digit | rfl | rfl | rfl
    · rfl
    · exact digits c digit
    · rfl
    · rfl
    · rfl

theorem Mnemonic.isName (mnemonic : Mnemonic) (span : Span) :
    Ident.IsName ⟨mnemonic.name, span⟩ := by
  obtain ⟨c, cs, name, first, others⟩ : ∃ c cs, mnemonic.name.toList = c :: cs ∧
      Token.isCapital c = true ∧ cs.all Token.continuesCapitals = true := by
    cases mnemonic <;> exact ⟨_, _, rfl, by decide, by decide⟩
  exact ⟨c, cs, name, first, List.all_eq_true.mp others⟩

namespace Listed

def tree (address : Nat) (listed : Listed) : Line :=
  ⟨none, some (.instruction ⟨listed.mnemonic.name, ⟨0, 0⟩⟩
    (OperandKind.listed (listed.written address) listed.mode))⟩

variable {address : Nat} {listed : Listed}

theorem writable_tree (small : (listed.written address).natAbs < Token.numberLimit) :
    (listed.tree address).Writable := by
  refine ⟨nofun, ?_, nofun⟩
  rintro statement ⟨⟩
  exact ⟨listed.mnemonic.isName ⟨0, 0⟩, writableOperands_listed small listed.mode⟩

theorem prints_line (small : (listed.written address).natAbs < Token.numberLimit) :
    (listed.tree address).Prints (listed.line address) := by
  refine ⟨_, .statement (.instruction (writtenOperands_listed small listed.mode)), ?_⟩
  have operands := Word.spaced_operandText (listed.written address) listed.mode
  by_cases implied : listed.mode = .implied
  · have alone : listed.line address = (Word.name listed.mnemonic.name).text ++ [] := by
      simp only [line, implied, List.append_nil]
      rfl
    rw [alone, implied]
    exact .tight (Word.apart_nil _) Word.spaced_nil
  · have parts : listed.line address = (Word.name listed.mnemonic.name).text ++
        (' ' :: listed.mode.operandText (listed.written address)) := by
      unfold line
      split
      · contradiction
      · rfl
    have apart : (Word.name listed.mnemonic.name).Apart
        (' ' :: listed.mode.operandText (listed.written address)) := by
      rintro - c ⟨⟩
      rfl
    rw [parts]
    exact .tight apart operands.blank

theorem newline_not_mem_line (address : Nat) (listed : Listed) : '\n' ∉ listed.line address := by
  have solid : '\n' ∉ listed.mnemonic.name.toList := by
    cases listed.mnemonic <;> decide
  unfold line
  split
  · exact solid
  · intro member
    rcases List.mem_append.mp member with early | late
    · exact solid early
    · rcases List.mem_cons.mp late with blank | text
      · cases blank
      · cases AddressingMode.isBlank_of_mem_operandText text

theorem parse_line (small : (listed.written address).natAbs < Token.numberLimit) :
    ∃ ident operands,
      Line.parse (listed.line address) = .ok ⟨none, some (.instruction ident operands)⟩ ∧
      ident.name = listed.mnemonic.name ∧
      operands.map (·.kind) = OperandKind.ofMode (listed.written address) listed.mode := by
  obtain ⟨line, parsed, same⟩ := Line.parse_of_prints (writable_tree small) (prints_line small)
  obtain ⟨statement, rfl, states⟩ := Line.exists_statement_of_bare_eq same
  cases statement with
  | constant | directive => cases states
  | instruction ident operands =>
      obtain ⟨names, others⟩ := Statement.instruction.inj states
      exact ⟨ident, operands, parsed, congrArg Ident.name names, kinds_eq_ofMode others⟩

end Listed

theorem newline_not_mem_listingLines (address : Nat) (items : List Listed) :
    ∀ text ∈ listingLines address items, '\n' ∉ text := by
  induction items generalizing address with
  | nil => nofun
  | cons listed rest ih =>
      intro text member
      rcases List.mem_cons.mp member with rfl | later
      · exact listed.newline_not_mem_line address
      · exact ih _ text later

theorem lines_listing (items : List Listed) {ending : List Char}
    (ends : ending = [] ∨ ending = ['\n']) :
    ∃ blank, (∀ text ∈ blank, text = []) ∧
      Text.lines (listing items ++ ending) = listingLines 0 items ++ blank :=
  Text.lines_intercalate (newline_not_mem_listingLines 0 items) ends

end EightBit
