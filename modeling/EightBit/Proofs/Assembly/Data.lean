import EightBit.Proofs.Assembly.Emission
import EightBit.Proofs.Layout.Lines
import EightBit.Proofs.Layout.Sizes
import EightBit.Proofs.Line.RoundTrip

namespace EightBit

variable {text written : List Char}

namespace Line

def terminated (text : List Char) : Line :=
  ⟨none, some (.directive ⟨".ASCIIZ", ⟨0, 0⟩⟩ [⟨.string text, ⟨0, 0⟩⟩])⟩

theorem writable_terminated (text : List Char) : (terminated text).Writable := by
  refine ⟨nofun, ?_, nofun⟩
  rintro statement ⟨⟩
  have directive : Ident.IsDirective ⟨".ASCIIZ", ⟨0, 0⟩⟩ :=
    ⟨['A', 'S', 'C', 'I', 'I', 'Z'], rfl, List.all_eq_true.mp rfl⟩
  exact ⟨directive, trivial, trivial⟩

theorem prints_terminated (escapes : Text.Escapes text written) :
    (terminated text).Prints (".ASCIIZ \"".toList ++ (written ++ ['"'])) := by
  refine ⟨_, .statement (.directive (.last (.string escapes))), ?_⟩
  have literal : Word.Spaced [.quoted written] (' ' :: ((Word.quoted written).text ++ [])) :=
    .wide nofun Word.spaced_nil
  have apart : (Word.directive ".ASCIIZ").Apart (' ' :: (Word.quoted written).text ++ []) := by
    rintro - c ⟨⟩
    rfl
  have spaced := Word.Spaced.tight apart literal
  rwa [List.append_nil] at spaced

theorem parse_terminated (escapes : Text.Escapes text written) :
    ∃ name span, parse (".ASCIIZ \"".toList ++ (written ++ ['"'])) =
        .ok ⟨none, some (.directive name [⟨.string text, span⟩])⟩ ∧
      name.name = ".ASCIIZ" := by
  obtain ⟨line, read, same⟩ :=
    parse_of_prints (writable_terminated text) (prints_terminated escapes)
  obtain ⟨statement, rfl, states⟩ := exists_statement_of_bare_eq same
  cases statement with
  | constant | instruction => cases states
  | directive name operands =>
      obtain ⟨names, listed⟩ := Statement.directive.inj states
      obtain ⟨⟨kind, span⟩, rfl, operand⟩ := List.map_eq_singleton_iff.mp listed
      have kinds : kind.bare = .string text := congrArg Operand.kind operand
      cases kind with
      | string other =>
          cases kinds
          exact ⟨name, span, read, congrArg Ident.name names⟩
      | immediate | value | indirect | register => cases kinds

end Line

namespace Layout

theorem advance_terminated {here : SourceLine} {name : Ident} {span : Span} {before : State}
    (read : Line.parse here.text = .ok ⟨none, some (.directive name [⟨.string text, span⟩])⟩)
    (named : name.name = ".ASCIIZ")
    (fits : before.cursor.toNat + Text.byteLength text < 0x10000) :
    Advance here before { before with cursor := before.cursor + (Content.terminated text).size }
      [before.put here name.span (.terminated text)] := by
  have directive : Directive.ofName? name.name = some .asciiz := by
    rw [named]
    rfl
  have sum : (before.cursor + (Content.terminated text).size).toNat =
      before.cursor.toNat + (Text.byteLength text + 1) :=
    toNat_cursor_add (by omega) (by simp only [Content.extent]; omega)
  have inside : before.cursor + (Content.terminated text).size ≤ addressLimit := by
    rw [UInt32.le_iff_toNat_le, sum]
    exact fits
  exact .statement read .unlabelled (.data directive (by decide) rfl) inside

end Layout

theorem Program.exists_assemble_of_single {source : List Char} {symbols : SymbolTable}
    {placed : Placed} {bytes : List UInt8}
    (laid : (Layout.ofSource source).1 = .ok ⟨[placed], symbols⟩)
    (first : placed.address = 0) (encoded : placed.encode symbols = .ok bytes)
    (fits : bytes.length ≤ 0x10000) :
    ∃ program, assemble source = .ok program ∧ program.image.toBinary = bytes := by
  have single : emit symbols .empty [placed] =
      ⟨(Image.empty.writeAll placed.line 0 bytes).1,
        (Image.empty.writeAll placed.line 0 bytes).2 ++ [], []⟩ := by
    rw [emit_cons encoded, first]
    rfl
  obtain ⟨program, assembled, image, -⟩ := assemble_of_layout laid (by rw [single])
  refine ⟨program, assembled, Image.toBinary_of_get? fun address => ?_⟩
  have inside : 0 + bytes.length ≤ 0x10000 := by omega
  have free : ∀ address, 0 ≤ address → Image.empty.get? address = none :=
    fun address _ => Image.get?_empty address
  rw [image, single, Image.get?_writeAll_of_free placed.line inside free, if_neg (by omega),
    Nat.sub_zero]

/-- Any text can be written as data: between double quotes, with its backslashes, double quotes
and line feeds escaped and any other escapes, it assembles to its bytes and a zero. -/
theorem assemble_text (text written : List Char) (fits : Text.byteLength text ≤ 65535)
    (escapes : Text.Escapes text written) :
    ∃ program, assemble (".ASCIIZ \"".toList ++ (written ++ ['"'])) = .ok program ∧
      program.image.toBinary = Text.bytes text ++ [0] := by
  obtain ⟨name, span, read, named⟩ := Line.parse_terminated escapes
  let here : SourceLine := ⟨1, 0, ".ASCIIZ \"".toList ++ (written ++ ['"'])⟩
  let placed := Layout.State.initial.put here name.span (.terminated text)
  have lines : SourceLine.ofSource here.text = [here] := by
    have one : '\n' ∉ here.text := by simp [here, escapes.newline_not_mem]
    rw [SourceLine.ofSource, Text.lines_of_not_mem one]
    rfl
  have room : Layout.State.initial.cursor.toNat + Text.byteLength text < 0x10000 := by
    have zero : Layout.State.initial.cursor.toNat = 0 := rfl
    omega
  have now : Layout.Advance here .initial _ [placed] :=
    Layout.advance_terminated read named room
  have advances := Layout.Advances.line now .done
  have laid : (Layout.ofSource here.text).1 = .ok ⟨[placed], .empty⟩ := by
    rw [← lines] at advances
    exact Layout.ofSource_eq_ok_iff.mpr ⟨_, advances, rfl⟩
  have address : placed.address = 0 := rfl
  have encoded : placed.encode .empty = .ok (Text.bytes text ++ [0]) := rfl
  have length : (Text.bytes text ++ [0]).length ≤ 0x10000 := by
    rw [List.length_append, Text.length_bytes, List.length_singleton]
    omega
  exact Program.exists_assemble_of_single laid address encoded length

theorem assemble_text_marks :
    let text := "é;'\"\\\n\t".toList
    Text.byteLength text ≤ 65535 ∧
      ∃ program, assemble ".ASCIIZ \"é;'\\\"\\\\\\n\t\"".toList = .ok program ∧
        program.image.toBinary = [0xC3, 0xA9, 0x3B, 0x27, 0x22, 0x5C, 0x0A, 0x09, 0] := by
  intro text
  have fits : Text.byteLength text ≤ 65535 := by decide
  exact ⟨fits, assemble_text text (Text.escape text) fits (Text.escapes_escape text)⟩

end EightBit
