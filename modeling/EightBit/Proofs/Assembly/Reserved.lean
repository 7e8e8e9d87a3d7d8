import Mathlib.Data.List.Basic
import EightBit.Proofs.Assembly.Encoding
import EightBit.Proofs.Image.Writes
import EightBit.Proofs.Layout.Sizes

namespace EightBit

namespace Layout

theorem fits_of_mem {source : List Char} {layout : Layout}
    (short : Text.byteLength source < 0x80000000) (laid : (ofSource source).1 = .ok layout) :
    ∀ placed ∈ layout.statements, placed.Fits := by
  rcases ofSource_eq_ok_iff.mp laid with ⟨final, advances, -⟩
  refine advances.fits (fun here member => ?_) (Nat.zero_le _)
  exact Nat.lt_of_le_of_lt (SourceLine.byteLength_text_le member) short

end Layout

theorem Placed.Fits.length_eq {placed : Placed} {symbols : SymbolTable} {bytes : List UInt8}
    (fits : placed.Fits) (encoded : placed.encode symbols = .ok bytes) :
    bytes.length = placed.size := by
  rw [fits.size_eq, Placed.length_encode fits.complete encoded]

open Layout in
/-- No 32-bit sum of the first pass wraps around, neither where a size is taken nor where the
cursor moves on, and the bytes of the second pass land in the interval of their statement. -/
theorem encode_fills_interval {source : List Char} {layout : Layout}
    (short : Text.byteLength source < 0x80000000) (laid : (ofSource source).1 = .ok layout) :
    (∀ front here back, SourceLine.ofSource source = front ++ here :: back →
      ∀ placed ∈ (step here (stateAfter front)).2.statements,
        ((stateAfter front).cursor + placed.content.size).toNat =
          (stateAfter front).cursor.toNat + placed.content.extent) ∧
    ∀ placed ∈ layout.statements, placed.size = placed.content.extent ∧
      ∀ bytes, placed.encode layout.symbols = .ok bytes →
        bytes.length = placed.size ∧ placed.address + bytes.length ≤ 0x10000 ∧
        ∀ (image : Image) (address : Nat),
          (image.writeAll placed.line placed.address bytes).1.get? address =
            if placed.address ≤ address ∧ address < placed.address + placed.size then
              bytes[address - placed.address]?
            else image.get? address := by
  constructor
  · intro front here back split placed member
    rcases advances_around laid split with ⟨next, final, early, now, late, first, advance, -⟩
    rcases succeeds_step_iff.mpr advance with ⟨events, ran⟩
    rw [ran] at member
    have member' : here ∈ SourceLine.ofSource source := by
      rw [split]
      exact List.mem_append_right _ List.mem_cons_self
    have within := Nat.lt_of_le_of_lt (SourceLine.byteLength_text_le member') short
    exact (advance.fits within (first.cursor_le (Nat.zero_le _)) placed member).2
  · intro placed member
    have fits := fits_of_mem short laid placed member
    refine ⟨fits.size_eq, fun bytes encoded => ?_⟩
    have length := fits.length_eq encoded
    have inside : placed.address + bytes.length ≤ 0x10000 := by
      rw [length]
      exact fits.inside
    refine ⟨length, inside, fun image address => ?_⟩
    rw [Image.get?_writeAll inside, length]

theorem encode_fills_interval_at_end :
    let source := ".WORD 1,2\n.ORG $FFFD\n.BYTE \"hi\",33".toList
    let front := (SourceLine.ofSource source).take 2
    let last : Placed := ⟨3, 21, 0xFFFD, ⟨0, 5⟩, .bytes [.string ['h', 'i'], .value (.number 33)]⟩
    ∃ layout, (Layout.ofSource source).1 = .ok layout ∧
      ((Layout.stateAfter front).cursor + last.content.size).toNat = 0x10000 ∧
      last ∈ layout.statements ∧ last.encode layout.symbols = .ok [104, 105, 33] ∧
      last.size = 3 ∧ last.address + 3 ≤ 0x10000 := by
  intro source front last
  have short : Text.byteLength source < 0x80000000 := by decide +kernel
  obtain ⟨layout, laid, member, encoded⟩ : ∃ layout, (Layout.ofSource source).1 = .ok layout ∧
      last ∈ layout.statements ∧ last.encode layout.symbols = .ok [104, 105, 33] :=
    ⟨⟨[⟨1, 0, 0, ⟨0, 5⟩, .words [.number 1, .number 2]⟩, last], .empty⟩, by decide +kernel,
      by decide +kernel, by decide +kernel⟩
  rcases encode_fills_interval short laid with ⟨sums, sizes⟩
  rcases sizes last member with ⟨exact, filled⟩
  rcases filled _ encoded with ⟨length, inside, -⟩
  have split : SourceLine.ofSource source = front ++ ⟨3, 21, ".BYTE \"hi\",33".toList⟩ :: [] := rfl
  have sum := sums front _ [] split last (by decide +kernel)
  refine ⟨layout, laid, sum.trans ?_, member, encoded, length.symm, inside⟩
  decide +kernel

end EightBit
