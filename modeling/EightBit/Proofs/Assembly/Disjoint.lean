import EightBit.Proofs.Assembly.Emission
import EightBit.Proofs.Layout.Growth

namespace EightBit

namespace Layout

theorem complete_of_mem {source : List Char} {layout : Layout}
    (laid : (ofSource source).1 = .ok layout) :
    ∀ placed ∈ layout.statements, placed.content.Complete := by
  intro placed member
  obtain ⟨front, here, back, next, now, -, advance, among⟩ := exists_line_of_mem laid member
  cases advance with
  | bare | constant | origin => cases among
  | statement read bound decided fits =>
      rw [List.mem_singleton] at among
      rw [among]
      exact decided.complete

theorem fits_of_small {source : List Char} {layout : Layout}
    (laid : (ofSource source).1 = .ok layout)
    (small : ∀ placed ∈ layout.statements, placed.content.extent ≤ 0x10000) :
    ∀ placed ∈ layout.statements, placed.Fits := by
  obtain ⟨final, advances, -⟩ := ofSource_eq_ok_iff.mp laid
  apply advances.fits_of_extent _ (Nat.zero_le _)
  intro placed member
  have bound := small placed member
  omega

end Layout

namespace Program

variable {symbols : SymbolTable} {image : Image} {statements : List Placed}

theorem length_le_of_no_overwrites
    (clean : (emit symbols image statements).errors = [])
    (disjoint : (emit symbols image statements).overwrites.map (·.address) = []) :
    ∀ placed ∈ statements, ∀ bytes, placed.encode symbols = .ok bytes →
      bytes.length ≤ 0x10000 := by
  induction statements generalizing image with
  | nil =>
      intro placed member
      cases member
  | cons first rest ih =>
      obtain ⟨bytes, encoded⟩ := encode_of_emit clean first List.mem_cons_self
      rw [emit_cons encoded] at clean disjoint
      rw [List.map_append, List.append_eq_nil_iff] at disjoint
      intro placed member other made
      rcases List.mem_cons.mp member with rfl | later
      · cases encoded.symm.trans made
        exact Image.length_le_of_no_overwrites disjoint.1
      · exact ih clean disjoint.2 placed later other made

/-- What the image of a program without overlaps has of its layout. -/
structure Holds (layout : Layout) (image : Image) : Prop where
  fits : ∀ placed ∈ layout.statements, placed.Fits
  encodes : ∀ placed ∈ layout.statements, Encodes layout.symbols placed
  bytes {placed : Placed} {address : Nat} (member : placed ∈ layout.statements)
    (covers : placed.Covers address) :
    image.get? address = placed.byteAt? layout.symbols address
  below {address : Nat} (written : (image.get? address).isSome) : address < 0x10000

theorem holds_of_disjoint {source : List Char} {program : Program}
    (assembled : assemble source = .ok program) (disjoint : program.overlaps = []) :
    ∃ layout, (Layout.ofSource source).1 = .ok layout ∧ Holds layout program.image := by
  obtain ⟨layout, laid, clean, image, overlaps⟩ := layout_of_assemble assembled
  rw [overlaps] at disjoint
  have complete := Layout.complete_of_mem laid
  have fits : ∀ placed ∈ layout.statements, placed.Fits := by
    apply Layout.fits_of_small laid
    intro placed member
    obtain ⟨bytes, encoded⟩ := encode_of_emit clean placed member
    rw [← Placed.length_encode (complete placed member) encoded]
    exact length_le_of_no_overwrites clean disjoint placed member bytes encoded
  have encodes : ∀ placed ∈ layout.statements, Encodes layout.symbols placed := by
    intro placed member
    obtain ⟨bytes, encoded⟩ := encode_of_emit clean placed member
    have length := (fits placed member).length_eq encoded
    refine ⟨bytes, encoded, length, ?_⟩
    rw [length]
    exact (fits placed member).inside
  have once (address : Nat) : (covering layout.statements address).length ≤ 1 := by
    have none : Image.repeats [] (writes layout.statements) = [] := by
      refine Eq.trans (overwrites_emit encodes fun address => ?_).symm disjoint
      rw [Image.get?_empty]
      exact iff_of_false List.not_mem_nil Bool.false_ne_true
    have count := Image.count_repeats [] (writes layout.statements) address
    rw [none, if_neg List.not_mem_nil, count_writes, List.count_nil] at count
    omega
  refine ⟨layout, laid, fits, encodes, ?_, ?_⟩
  · intro placed address member covers
    have among := mem_covering_iff.mpr ⟨member, covers⟩
    have alone : covering layout.statements address = [placed] := by
      obtain ⟨other, same⟩ := List.length_eq_one_iff.mp
        (Nat.le_antisymm (once address) (List.length_pos_of_mem among))
      rw [same, List.mem_singleton] at among
      rw [same, among]
    rw [image, get?_emit encodes, alone]
    rfl
  · intro address written
    rw [image, get?_emit encodes] at written
    cases last : (covering layout.statements address).getLast? with
    | none =>
        rw [last, Image.get?_empty] at written
        cases written
    | some placed =>
        obtain ⟨member, low, high⟩ := mem_covering_iff.mp (List.mem_of_getLast? last)
        exact Nat.lt_of_lt_of_le high (fits placed member).inside

theorem Holds.get? {layout : Layout} {image : Image} (holds : Holds layout image)
    {placed : Placed} (member : placed ∈ layout.statements) {bytes : List UInt8}
    (encoded : placed.encode layout.symbols = .ok bytes) {index : Nat}
    (below : index < bytes.length) : image.get? (placed.address + index) = some bytes[index] := by
  have length := (holds.fits placed member).length_eq encoded
  have covers : placed.Covers (placed.address + index) :=
    ⟨Nat.le_add_right _ _, Nat.add_lt_add_left (length ▸ below) _⟩
  rw [holds.bytes member covers, Placed.byteAt?_of_encode encoded, Nat.add_sub_cancel_left,
    List.getElem?_eq_getElem below]

end Program

end EightBit
