import EightBit.Proofs.Assembly.Reserved
import EightBit.Proofs.Image.Trace

/-!
The image of a program: an address holds the byte of the last statement that covers it, and was
written once for each statement that does.
-/
namespace EightBit

def Placed.Covers (placed : Placed) (address : Nat) : Prop :=
  placed.address ≤ address ∧ address < placed.address + placed.size

instance (placed : Placed) (address : Nat) : Decidable (placed.Covers address) :=
  inferInstanceAs (Decidable (_ ∧ _))

def Placed.byteAt? (symbols : SymbolTable) (placed : Placed) (address : Nat) : Option UInt8 :=
  match placed.encode symbols with
  | .ok bytes => bytes[address - placed.address]?
  | .error _ => none

theorem Placed.byteAt?_of_encode {symbols : SymbolTable} {placed : Placed} {bytes : List UInt8}
    (encoded : placed.encode symbols = .ok bytes) (address : Nat) :
    placed.byteAt? symbols address = bytes[address - placed.address]? := by
  rw [byteAt?, encoded]

def covering (statements : List Placed) (address : Nat) : List Placed :=
  statements.filter (·.Covers address)

def writes (statements : List Placed) : List Nat :=
  statements.flatMap fun placed => List.range' placed.address placed.size

theorem covering_cons (placed : Placed) (rest : List Placed) (address : Nat) :
    covering (placed :: rest) address =
      if placed.Covers address then placed :: covering rest address else covering rest address := by
  rw [covering, List.filter_cons]
  exact if_congr decide_eq_true_iff rfl rfl

theorem mem_covering_iff {statements : List Placed} {address : Nat} {placed : Placed} :
    placed ∈ covering statements address ↔ placed ∈ statements ∧ placed.Covers address := by
  rw [covering, List.mem_filter, decide_eq_true_iff]

theorem writes_cons (placed : Placed) (rest : List Placed) :
    writes (placed :: rest) = List.range' placed.address placed.size ++ writes rest :=
  List.flatMap_cons

theorem count_writes (statements : List Placed) (address : Nat) :
    (writes statements).count address = (covering statements address).length := by
  induction statements with
  | nil => rfl
  | cons placed rest ih =>
      have once : (List.range' placed.address placed.size).count address =
          if placed.Covers address then 1 else 0 := by
        rw [List.Nodup.count List.nodup_range']
        exact if_congr List.mem_range'_1 rfl rfl
      rw [writes_cons, List.count_append, ih, once, covering_cons]
      by_cases covers : placed.Covers address
      · rw [if_pos covers, if_pos covers, List.length_cons, Nat.add_comm]
      · rw [if_neg covers, if_neg covers, Nat.zero_add]

namespace Program

variable {symbols : SymbolTable} {image : Image} {statements : List Placed}

/-- Every statement has bytes, and they fill its interval. -/
def Encodes (symbols : SymbolTable) (placed : Placed) : Prop :=
  ∃ bytes, placed.encode symbols = .ok bytes ∧ bytes.length = placed.size ∧
    placed.address + bytes.length ≤ 0x10000

theorem emit_cons {placed : Placed} {bytes : List UInt8}
    (encoded : placed.encode symbols = .ok bytes) (rest : List Placed) :
    emit symbols image (placed :: rest) =
      let (written, overwrites) := image.writeAll placed.line placed.address bytes
      let later := emit symbols written rest
      { later with overwrites := overwrites ++ later.overwrites } := by
  rw [emit, encoded]

theorem encode_of_emit (clean : (emit symbols image statements).errors = []) :
    ∀ placed ∈ statements, ∃ bytes, placed.encode symbols = .ok bytes := by
  induction statements generalizing image with
  | nil =>
      intro placed member
      cases member
  | cons first rest ih =>
      cases encoded : first.encode symbols with
      | error error =>
          rw [emit, encoded] at clean
          cases clean
      | ok bytes =>
          rw [emit_cons encoded] at clean
          intro placed member
          rcases List.mem_cons.mp member with rfl | later
          · exact ⟨bytes, encoded⟩
          · exact ih clean placed later

theorem Encodes.emit_cons {placed : Placed} (encodes : Encodes symbols placed) (image : Image)
    (rest : List Placed) : ∃ written : Image,
      (emit symbols image (placed :: rest)).image = (emit symbols written rest).image ∧
      (emit symbols image (placed :: rest)).overwrites.map (·.address) =
        (List.range' placed.address placed.size).filter
            (fun address => (image.get? address).isSome) ++
          (emit symbols written rest).overwrites.map (·.address) ∧
      ∀ address, written.get? address =
        if placed.Covers address then placed.byteAt? symbols address else image.get? address := by
  rcases encodes with ⟨bytes, encoded, length, inside⟩
  refine ⟨(image.writeAll placed.line placed.address bytes).1, ?_, ?_, ?_⟩
  · rw [Program.emit_cons encoded]
  · rw [Program.emit_cons encoded, ← length, ← Image.overwrites_writeAll inside]
    exact List.map_append
  · intro address
    rw [Image.get?_writeAll inside, length, Placed.byteAt?_of_encode encoded]
    rfl

theorem Encodes.isSome_byteAt? {placed : Placed} {address : Nat}
    (encodes : Encodes symbols placed) (covers : placed.Covers address) :
    (placed.byteAt? symbols address).isSome := by
  rcases encodes with ⟨bytes, encoded, length, -⟩
  have inside : address - placed.address < bytes.length := by
    rw [length]
    rcases covers with ⟨low, high⟩
    omega
  rw [Placed.byteAt?_of_encode encoded, List.getElem?_eq_getElem inside]
  rfl

/-- The last statement over an address wins, and the image shows through where there is none. -/
theorem get?_emit (encodes : ∀ placed ∈ statements, Encodes symbols placed) (address : Nat) :
    (emit symbols image statements).image.get? address =
      match (covering statements address).getLast? with
      | some placed => placed.byteAt? symbols address
      | none => image.get? address := by
  induction statements generalizing image with
  | nil => rfl
  | cons placed rest ih =>
      rcases (encodes placed List.mem_cons_self).emit_cons image rest with ⟨written, goes, -, bytes⟩
      rw [goes, ih fun other member => encodes other (List.mem_cons_of_mem _ member), bytes,
        covering_cons]
      by_cases covers : placed.Covers address
      · rw [if_pos covers, if_pos covers, List.getLast?_cons]
        cases (covering rest address).getLast? with
        | none => rfl
        | some last => rfl
      · rw [if_neg covers, if_neg covers]

theorem overwrites_emit {seen : List Nat}
    (encodes : ∀ placed ∈ statements, Encodes symbols placed)
    (known : ∀ address, address ∈ seen ↔ (image.get? address).isSome) :
    (emit symbols image statements).overwrites.map (·.address) =
      Image.repeats seen (writes statements) := by
  induction statements generalizing image seen with
  | nil => rfl
  | cons placed rest ih =>
      have now := encodes placed List.mem_cons_self
      rcases now.emit_cons image rest with ⟨written, -, goes, bytes⟩
      have later : ∀ other ∈ rest, Encodes symbols other :=
        fun other member => encodes other (List.mem_cons_of_mem _ member)
      have again : (List.range' placed.address placed.size).filter
            (fun address => (image.get? address).isSome) =
          (List.range' placed.address placed.size).filter (· ∈ seen) := by
        refine List.filter_congr fun address member => ?_
        rw [Bool.eq_iff_iff, ← known address, decide_eq_true_iff]
      have grown : ∀ address,
          address ∈ List.range' placed.address placed.size ++ seen ↔
            (written.get? address).isSome := by
        intro address
        rw [List.mem_append, List.mem_range'_1, bytes, known]
        by_cases covers : placed.Covers address
        · rw [if_pos covers]
          exact iff_of_true (Or.inl covers) (now.isSome_byteAt? covers)
        · rw [if_neg covers]
          exact or_iff_right covers
      rw [goes, again, ih later grown, writes_cons, Image.repeats_append,
        Image.repeats_of_nodup List.nodup_range']

theorem layout_of_assemble {source : List Char} {program : Program}
    (assembled : assemble source = .ok program) :
    ∃ layout, (Layout.ofSource source).1 = .ok layout ∧
      (emit layout.symbols .empty layout.statements).errors = [] ∧
      program.image = (emit layout.symbols .empty layout.statements).image ∧
      program.overlaps =
        (emit layout.symbols .empty layout.statements).overwrites.map (·.address) := by
  rw [assemble, assembleTelling] at assembled
  split at assembled
  · cases assembled
  · rename_i layout events laid
    refine ⟨layout, by rw [laid], ?_⟩
    split at assembled
    · cases assembled
    · rename_i made more built
      cases assembled
      rw [ofLayout] at built
      split at built
      · rename_i clean
        cases built
        exact ⟨List.isEmpty_iff.mp clean, rfl, rfl⟩
      · cases built

theorem assemble_of_layout {source : List Char} {layout : Layout}
    (laid : (Layout.ofSource source).1 = .ok layout)
    (clean : (emit layout.symbols .empty layout.statements).errors = []) :
    ∃ program, assemble source = .ok program ∧
      program.image = (emit layout.symbols .empty layout.statements).image ∧
      program.overlaps =
        (emit layout.symbols .empty layout.statements).overwrites.map (·.address) := by
  cases ran : Layout.ofSource source with | mk outcome events => ?_
  rw [ran] at laid
  cases laid
  refine ⟨⟨_, _, layout.symbols.sort⟩, ?_, rfl, rfl⟩
  rw [assemble, assembleTelling, ran]
  simp only [ofLayout, clean, List.isEmpty_nil, ↓reduceIte]

theorem encodes_of_emit {source : List Char} {layout : Layout} {image : Image}
    (short : Text.byteLength source < 0x80000000) (laid : (Layout.ofSource source).1 = .ok layout)
    (clean : (emit layout.symbols image layout.statements).errors = []) :
    ∀ placed ∈ layout.statements, Encodes layout.symbols placed := by
  intro placed member
  have fits := Layout.fits_of_mem short laid placed member
  rcases encode_of_emit clean placed member with ⟨bytes, encoded⟩
  have length := fits.length_eq encoded
  refine ⟨bytes, encoded, length, ?_⟩
  rw [length]
  exact fits.inside

/-- The image of a program, told from its layout: the last statement over an address has the byte
there, every other one was written over, and the binary is the image with zeros in its gaps. -/
theorem image_holds_last_statement {source : List Char} {program : Program}
    (short : Text.byteLength source < 0x80000000) (assembled : assemble source = .ok program) :
    ∃ layout, (Layout.ofSource source).1 = .ok layout ∧
      (∀ address,
        (program.image.get? address = none ↔ covering layout.statements address = []) ∧
        (∀ earlier last, covering layout.statements address = earlier ++ [last] →
          ∃ bytes byte, last.encode layout.symbols = .ok bytes ∧
            bytes[address - last.address]? = some byte ∧
            program.image.get? address = some byte) ∧
        program.overlaps.count address = (covering layout.statements address).length - 1) ∧
      program.overlaps = Image.repeats [] (writes layout.statements) ∧
      (∀ address, (program.image.get? address).isSome → address < program.image.stop) ∧
      (program.image.stop = 0 ∨
        ∃ last, program.image.stop = last + 1 ∧ (program.image.get? last).isSome) ∧
      program.image.toBinary.length = program.image.stop ∧
      ∀ address < program.image.stop,
        program.image.toBinary[address]? = some ((program.image.get? address).getD 0) := by
  rcases layout_of_assemble assembled with ⟨layout, laid, clean, image, overlaps⟩
  have encodes := encodes_of_emit short laid clean
  have trace : program.overlaps = Image.repeats [] (writes layout.statements) := by
    rw [overlaps]
    refine overwrites_emit encodes fun address => ?_
    rw [Image.get?_empty]
    exact iff_of_false List.not_mem_nil Bool.false_ne_true
  have read (address : Nat) : program.image.get? address =
      match (covering layout.statements address).getLast? with
      | some placed => placed.byteAt? layout.symbols address
      | none => Image.empty.get? address := by
    rw [image]
    exact get?_emit encodes address
  have stands {address : Nat} {placed : Placed}
      (member : placed ∈ covering layout.statements address) :
      ∃ bytes byte, placed.encode layout.symbols = .ok bytes ∧
        bytes[address - placed.address]? = some byte := by
    rcases mem_covering_iff.mp member with ⟨among, covers⟩
    have now := encodes placed among
    rcases Option.isSome_iff_exists.mp (now.isSome_byteAt? covers) with ⟨byte, found⟩
    rcases now with ⟨bytes, encoded, -⟩
    rw [Placed.byteAt?_of_encode encoded] at found
    exact ⟨bytes, byte, encoded, found⟩
  refine ⟨layout, laid, fun address => ⟨?_, ?_, ?_⟩, trace, fun address => Image.lt_stop_of_isSome,
    Image.stop_eq_zero_or _, Image.length_toBinary _, fun address => Image.getElem?_toBinary⟩
  · rw [read]
    cases final : (covering layout.statements address).getLast? with
    | none => exact iff_of_true (Image.get?_empty address) (List.getLast?_eq_none_iff.mp final)
    | some last =>
        have member := List.mem_of_getLast? final
        rcases stands member with ⟨bytes, byte, encoded, found⟩
        dsimp only
        rw [Placed.byteAt?_of_encode encoded, found]
        exact iff_of_false nofun (List.ne_nil_of_mem member)
  · intro earlier last covers
    have member : last ∈ covering layout.statements address := by
      rw [covers]
      exact List.mem_append_right _ List.mem_cons_self
    rcases stands member with ⟨bytes, byte, encoded, found⟩
    refine ⟨bytes, byte, encoded, found, ?_⟩
    rw [read, covers, List.getLast?_concat]
    exact (Placed.byteAt?_of_encode encoded address).trans found
  · rw [trace, Image.count_repeats, if_neg List.not_mem_nil, count_writes]

theorem image_holds_last_statement_overlap :
    let source := ".ORG 4\n.WORD 1, 2\n.ORG 5\n.BYTE 9\n.ORG 5\n.BYTE 7".toList
    ∃ program, assemble source = .ok program ∧ program.image.get? 3 = none ∧
      program.image.get? 5 = some 7 ∧ program.overlaps = [5, 5] ∧
      program.overlaps.count 5 = 2 ∧ program.image.toBinary.length = program.image.stop := by
  intro source
  have short : Text.byteLength source < 0x80000000 := by decide +kernel
  have accepted : (assemble source).isOk = true := by decide +kernel
  let last : Placed := ⟨6, 40, 5, ⟨0, 5⟩, .bytes [.value (.number 7)]⟩
  let expected : Layout :=
    ⟨[⟨2, 7, 4, ⟨0, 5⟩, .words [.number 1, .number 2]⟩,
      ⟨4, 25, 5, ⟨0, 5⟩, .bytes [.value (.number 9)]⟩, last], .empty⟩
  have same : (Layout.ofSource source).1 = .ok expected := by decide +kernel
  cases assembled : assemble source with
  | error reason =>
      rw [assembled] at accepted
      cases accepted
  | ok program =>
      rcases image_holds_last_statement short assembled with
        ⟨layout, laid, bytes, trace, -, -, length, -⟩
      cases same.symm.trans laid
      have empty := (bytes 3).1.mpr (by decide +kernel)
      rcases (bytes 5).2.1 (expected.statements.take 2) last (by decide +kernel) with
        ⟨encoded, byte, made, stands, found⟩
      have seven : last.encode expected.symbols = .ok [7] := by decide +kernel
      cases seven.symm.trans made
      cases stands
      refine ⟨program, rfl, empty, found, trace.trans (by decide +kernel), ?_, length⟩
      exact (bytes 5).2.2.trans (by decide +kernel)

end Program

end EightBit
