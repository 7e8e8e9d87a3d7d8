import EightBit.Proofs.Assembly.Encoding
import EightBit.Proofs.Assembly.Replaced
import EightBit.Proofs.Layout.ByteLines

/-!
Lines of bytes, split and joined. The items of one line write what lines with one item each write,
as long as their size does not wrap around.
-/
namespace EightBit

theorem itemsExtent_of_bare {items others : List DataItem}
    (same : items.map DataItem.bare = others.map DataItem.bare) :
    itemsExtent items = itemsExtent others := by
  have bares (items : List DataItem) :
      itemsExtent (items.map DataItem.bare) = itemsExtent items := by
    induction items with
    | nil => rfl
    | cons item rest ih =>
        rw [List.map_cons, itemsExtent, itemsExtent, ih]
        cases item <;> rfl
  rw [← bares items, same, bares others]

namespace Placed

variable {symbols : SymbolTable} {placed : Placed} {item : DataItem} {rest : List DataItem}
  {bytes : List UInt8}

theorem itemBytes_cons_eq_ok_iff :
    placed.itemBytes symbols (item :: rest) = .ok bytes ↔
      ∃ now later, placed.itemBytes symbols [item] = .ok now ∧
        placed.itemBytes symbols rest = .ok later ∧ bytes = now ++ later := by
  cases item with
  | value expr =>
      simp only [itemBytes, bind, Except.bind, pure, Except.pure]
      cases placed.resolve symbols expr <;> cases placed.itemBytes symbols rest <;>
        simp [eq_comm]
  | string text =>
      simp only [itemBytes, bind, Except.bind, pure, Except.pure]
      cases placed.itemBytes symbols rest <;> simp [eq_comm]

theorem itemBytes_moved {other : Placed} {items : List DataItem}
    (encoded : placed.itemBytes symbols items = .ok bytes) :
    other.itemBytes symbols items = .ok bytes :=
  itemBytes_of_values (fun _ _ known => known) encoded

end Placed

namespace Program

variable {symbols : SymbolTable}

theorem log?_singleton_eq_some_iff {placed : Placed} {cells : List (Nat × UInt8)} :
    log? symbols [placed] = some cells ↔
      ∃ bytes, placed.encode symbols = .ok bytes ∧ cells = cellsFrom placed.address bytes := by
  rw [log?_cons_eq_some_iff]
  constructor
  · rintro ⟨bytes, _, encoded, ⟨⟩, rfl⟩
    exact ⟨bytes, encoded, List.append_nil _⟩
  · rintro ⟨bytes, encoded, rfl⟩
    exact ⟨bytes, [], encoded, rfl, (List.append_nil _).symm⟩

theorem log?_cons_congr {rest others : List Placed} (placed : Placed)
    (same : log? symbols rest = log? symbols others) :
    log? symbols (placed :: rest) = log? symbols (placed :: others) := by
  rw [log?, log?, same]

theorem log?_split {whole now later : Placed} {item : DataItem} {rest : List DataItem}
    (all : whole.content = .bytes (item :: rest)) (first : now.content = .bytes [item])
    (others : later.content = .bytes rest) (start : now.address = whole.address)
    (next : later.address % 0x10000 = (whole.address + item.extent) % 0x10000) :
    log? symbols [now, later] = log? symbols [whole] := by
  refine Option.ext fun cells => ?_
  rw [log?_cons_eq_some_iff, log?_singleton_eq_some_iff]
  simp only [log?_singleton_eq_some_iff, Placed.encode, all, first, others, start]
  have behind {bytes : List UInt8} (encoded : now.itemBytes symbols [item] = .ok bytes)
      (more : List UInt8) : cellsFrom whole.address bytes ++ cellsFrom later.address more =
        cellsFrom whole.address (bytes ++ more) := by
    have length : bytes.length = item.extent := Placed.length_itemBytes encoded
    rw [cellsFrom_append, length, cellsFrom_congr next]
  constructor
  · rintro ⟨bytes, _, encoded, ⟨more, encoded', rfl⟩, rfl⟩
    exact ⟨bytes ++ more, Placed.itemBytes_cons_eq_ok_iff.mpr
      ⟨bytes, more, Placed.itemBytes_moved encoded, Placed.itemBytes_moved encoded', rfl⟩,
      behind encoded more⟩
  · rintro ⟨_, made, rfl⟩
    obtain ⟨bytes, more, encoded, encoded', rfl⟩ := Placed.itemBytes_cons_eq_ok_iff.mp made
    have mine : now.itemBytes symbols [item] = .ok bytes := Placed.itemBytes_moved encoded
    exact ⟨bytes, _, mine, ⟨more, Placed.itemBytes_moved encoded', rfl⟩, (behind mine more).symm⟩

end Program

namespace Layout

def State.behind (state : State) (items : List DataItem) : State :=
  { state with cursor := state.cursor + (Content.bytes items).size }

theorem State.behind_nil (state : State) : state.behind [] = state := by
  rw [behind, Content.size, List.foldl_nil, UInt32.add_zero]

theorem State.behind_cons (state : State) (item : DataItem) (rest : List DataItem) :
    state.behind (item :: rest) = (state.behind [item]).behind rest := by
  have size : (Content.bytes (item :: rest)).size =
      (Content.bytes [item]).size + (Content.bytes rest).size := by
    apply UInt32.toNat_inj.mp
    rw [UInt32.toNat_add, Content.toNat_size, Content.toNat_size, Content.toNat_size]
    simp only [Content.extent, itemsExtent]
    omega
  simp only [behind, size, UInt32.add_assoc]

theorem State.toNat_cursor_behind {state : State} (items : List DataItem)
    (low : state.cursor.toNat ≤ 0x10000) (small : itemsExtent items < 0xFFFF0000) :
    (state.behind items).cursor.toNat = state.cursor.toNat + itemsExtent items := by
  rw [behind, UInt32.toNat_add, Content.toNat_size, Content.extent]
  omega

theorem advance_bytes_iff (here : SourceLine) {items : List DataItem}
    (places : Line.PlacesBytes here.text items) :
    ∃ span, ∀ before after placed, Advance here before after placed ↔
      (before.behind items).cursor.toNat ≤ 0x10000 ∧ after = before.behind items ∧
        placed = [before.put here span (.bytes items)] := by
  obtain ⟨name, operands, read, named, content⟩ := places
  refine ⟨name.span, fun before after placed => ?_⟩
  have limit : (before.behind items).cursor.toNat ≤ 0x10000 ↔
      before.cursor + (Content.bytes items).size ≤ addressLimit := by
    rw [UInt32.le_iff_toNat_le, toNat_addressLimit, State.behind]
  rw [limit, State.behind, ← succeeds_push_iff, ← succeeds_step_iff, succeeds_step_of_read read,
    place_data named (by decide), succeeds_bindLabel_then_iff]
  constructor
  · rintro ⟨middle, bound, success⟩
    cases bound
    obtain ⟨other, same, pushed⟩ := succeeds_placeData_iff.mp success
    cases content.symm.trans same
    exact pushed
  · intro pushed
    exact ⟨before, .unlabelled, succeeds_placeData_iff.mpr ⟨_, content, pushed⟩⟩

theorem State.address_put (state : State) (here : SourceLine) (span : Span) (content : Content) :
    (state.put here span content).address = state.cursor.toNat % 0x10000 :=
  UInt32.toNat_mod _ _

section Parted

variable {lines : List SourceLine} {items : List DataItem} {before : State}

theorem Advances.of_parted
    (parted : List.Forall₂ (fun here item => Line.PlacesBytes here.text [item]) lines items)
    (low : before.cursor.toNat ≤ 0x10000) (small : itemsExtent items < 0xFFFF0000)
    {after : State} {placed : List Placed} (advances : Advances lines before after placed) :
    (before.behind items).cursor.toNat ≤ 0x10000 ∧ after = before.behind items ∧
      ∀ symbols here span, Program.log? symbols placed =
        Program.log? symbols [before.put here span (.bytes items)] := by
  induction parted generalizing before placed with
  | nil =>
      cases advances
      rw [State.behind_nil]
      exact ⟨low, rfl, fun _ _ _ => rfl⟩
  | @cons line item _ others now later ih =>
      cases advances with
      | line advance advances =>
          obtain ⟨span, exact⟩ := advance_bytes_iff line now
          obtain ⟨fits, rfl, rfl⟩ := (exact _ _ _).mp advance
          rw [itemsExtent] at small
          have single : itemsExtent [item] = item.extent := rfl
          have next := State.toNat_cursor_behind [item] low (by omega)
          obtain ⟨room, rfl, logs⟩ := ih fits (by omega) advances
          rw [State.behind_cons]
          refine ⟨room, rfl, fun symbols here span => ?_⟩
          -- what is behind the first item is one statement by now, and joins the first
          refine (Program.log?_cons_congr _ (logs symbols here span)).trans
            (Program.log?_split rfl rfl rfl ?_ ?_)
          · rw [State.address_put, State.address_put]
          · rw [State.address_put, State.address_put, next, single]
            omega

theorem exists_advances_of_parted
    (parted : List.Forall₂ (fun here item => Line.PlacesBytes here.text [item]) lines items)
    (room : before.cursor.toNat + itemsExtent items ≤ 0x10000) :
    ∃ after placed, Advances lines before after placed := by
  induction parted generalizing before with
  | nil => exact ⟨before, [], .done⟩
  | @cons line item _ others now later ih =>
      rw [itemsExtent] at room
      have single : itemsExtent [item] = item.extent := rfl
      have low : before.cursor.toNat ≤ 0x10000 := by omega
      have next := State.toNat_cursor_behind [item] low (by omega)
      obtain ⟨span, exact⟩ := advance_bytes_iff line now
      have advance := (exact before _ _).mpr ⟨by omega, rfl, rfl⟩
      have left : (before.behind [item]).cursor.toNat + itemsExtent others ≤ 0x10000 := by omega
      obtain ⟨after, placed, advances⟩ := ih left
      exact ⟨after, _, .line advance advances⟩

end Parted

section SameItems

variable {items others : List DataItem} {state other : State}

theorem State.SameAs.behind (alike : state.SameAs other)
    (same : items.map DataItem.bare = others.map DataItem.bare) :
    (state.behind items).SameAs (other.behind others) := by
  have size : (Content.bytes items).size = (Content.bytes others).size := by
    rw [← Content.size_bare, Content.bare, same, ← Content.bare, Content.size_bare]
  refine ⟨?_, alike.meanings⟩
  rw [State.behind, State.behind, alike.cursor, size]

theorem State.SameAs.sameLog_put (alike : state.SameAs other)
    (same : items.map DataItem.bare = others.map DataItem.bare) (here there : SourceLine)
    (span span' : Span) :
    Program.SameLog [state.put here span (.bytes items)]
      [other.put there span' (.bytes others)] := by
  refine Program.sameLog_of_sameCode (.cons ⟨?_, ?_⟩ .nil)
  · rw [State.address_put, State.address_put, alike.cursor]
  · exact congrArg Content.bytes same

end SameItems

section Joined

variable {text : List Char} {texts : List (List Char)} {items others : List DataItem}
  (joined : Line.PlacesBytes text items)
  (parted : List.Forall₂ (fun text item => Line.PlacesBytes text [item]) texts others)
  (same : items.map DataItem.bare = others.map DataItem.bare)
  (small : itemsExtent items < 0xFFFF0000)

include joined parted same small

theorem refines_parted : Refines [text] texts := by
  intro lines lines' written written' before before' after placed alike low advances
  obtain ⟨here, rfl, rfl⟩ := List.map_eq_singleton_iff.mp written
  have single : List.Forall₂ (fun here item => Line.PlacesBytes here.text [item]) lines' others :=
    List.forall₂_map_left_iff.mp (written' ▸ parted)
  have extent := itemsExtent_of_bare same
  cases advances with
  | line now later =>
      cases later
      obtain ⟨span, exact⟩ := advance_bytes_iff here joined
      obtain ⟨fits, rfl, rfl⟩ := (exact _ _ _).mp now
      have room : before'.cursor.toNat + itemsExtent others ≤ 0x10000 := by
        rwa [State.toNat_cursor_behind items low small, alike.cursor, extent] at fits
      obtain ⟨after', placed', advances'⟩ := exists_advances_of_parted single room
      obtain ⟨-, rfl, log⟩ := advances'.of_parted single (alike.cursor ▸ low) (extent ▸ small)
      refine ⟨_, placed', advances', alike.behind same, fun table other meanings => ?_⟩
      rw [log other here span]
      exact alike.sameLog_put same here here span span meanings

theorem refines_joined : Refines texts [text] := by
  intro lines lines' written written' before before' after placed alike low advances
  obtain ⟨there, rfl, rfl⟩ := List.map_eq_singleton_iff.mp written'
  have single : List.Forall₂ (fun here item => Line.PlacesBytes here.text [item]) lines others :=
    List.forall₂_map_left_iff.mp (written ▸ parted)
  have extent := itemsExtent_of_bare same
  obtain ⟨room, rfl, log⟩ := advances.of_parted single low (extent ▸ small)
  obtain ⟨span, exact⟩ := advance_bytes_iff there joined
  have moved := alike.behind same.symm
  have fits : (before'.behind items).cursor.toNat ≤ 0x10000 := by rwa [← moved.cursor]
  have advance := (exact before' _ _).mpr ⟨fits, rfl, rfl⟩
  refine ⟨_, _, .line advance .done, moved, fun table other meanings => ?_⟩
  rw [log table there span]
  exact alike.sameLog_put same.symm there there span span meanings

end Joined

end Layout

namespace ByteOperand

variable {texts : List (List Char)} {items : List DataItem}

theorem exists_parted (operands : List.Forall₂ ByteOperand texts items) :
    ∃ placed, List.Forall₂ (fun text item => Line.PlacesBytes text [item])
        (texts.map byteLine) placed ∧
      placed.map DataItem.bare = items.map DataItem.bare := by
  induction operands with
  | nil => exact ⟨[], .nil, rfl⟩
  | cons first later ih =>
      obtain ⟨now, places, bare⟩ := first.placesBytes .nil (List.forall_mem_nil _)
      obtain ⟨item, rfl, same⟩ := List.map_eq_singleton_iff.mp bare
      rw [List.intercalate_singleton] at places
      obtain ⟨others, parted, bares⟩ := ih
      exact ⟨item :: others, .cons places parted, congrArg₂ List.cons same bares⟩

end ByteOperand

/-- The first source has a line of bytes where the other has a line for each operand of it. -/
structure SplitBytes (texts : List (List Char)) (items : List DataItem)
    (source parted : List Char) : Prop where
  many : 2 ≤ texts.length
  operands : List.Forall₂ ByteOperand texts items
  lines : ∃ before after,
    Text.lines source = before ++ byteLine (List.intercalate [','] texts) :: after ∧
      Text.lines parted = before ++ (texts.map byteLine ++ after)

/-- Splitting a line of bytes changes nothing, if no operand behind a comma is the name of an index
register alone and the size of the line cannot wrap around: both sources are assembled, to the same
bytes, overlaps and values, or neither is. -/
theorem assemble_split_bytes {texts : List (List Char)} {items : List DataItem}
    {source parted : List Char} (split : SplitBytes texts items source parted)
    (names : ∀ item ∈ items.tail, item.isRegisterName = false)
    (small : itemsExtent items < 0xFFFF0000) :
    Agree (fun _ _ => True) Program.SameOutput (assemble source) (assemble parted) := by
  obtain ⟨many, operands, before, after, joined, single⟩ := split
  obtain ⟨others, places, bares⟩ := ByteOperand.exists_parted operands
  cases operands with
  | nil => cases many
  | cons first later =>
      obtain ⟨placed, whole, same⟩ := first.placesBytes later names
      have alike := same.trans bares.symm
      have within := itemsExtent_of_bare same ▸ small
      have there := Layout.refines_parted whole places alike within
      have back := Layout.refines_joined whole places alike within
      have front := Layout.Refines.refl before
      have behind := Layout.Refines.refl after
      rw [← List.singleton_append] at joined
      refine agree_assemble_of_refines ?_ ?_
      · rw [joined, single]
        exact front.append (there.append behind)
      · rw [joined, single]
        exact front.append (back.append behind)

theorem assemble_split_bytes_listed :
    let texts := ["n".toList, " \"a,b\"".toList, " 'c'+n ".toList]
    let source := "n = 7\n.BYTE n, \"a,b\", 'c'+n \nend: JMP end".toList
    let parted := "n = 7\n.BYTE n\n.BYTE  \"a,b\"\n.BYTE  'c'+n \nend: JMP end".toList
    ∃ items, SplitBytes texts items source parted ∧
      (∀ item ∈ items.tail, item.isRegisterName = false) ∧ itemsExtent items < 0xFFFF0000 ∧
      (assemble source).isOk = true ∧
      Agree (fun _ _ => True) Program.SameOutput (assemble source) (assemble parted) := by
  intro texts source parted
  let name : Ident := ⟨".BYTE", ⟨0, 5⟩⟩
  let first : Expr := .symbol ⟨"N", ⟨6, 1⟩⟩
  let last : Expr := .binary .add (.number 99) (.symbol ⟨"N", ⟨11, 1⟩⟩)
  let items : List DataItem := [.value first, .string "a,b".toList, .value last]
  have one : ByteOperand "n".toList (.value first) :=
    ⟨by decide +kernel, name, ⟨.value first, ⟨6, 1⟩⟩, by decide +kernel, rfl⟩
  have two : ByteOperand " \"a,b\"".toList (.string "a,b".toList) :=
    ⟨by decide +kernel, name, ⟨.string "a,b".toList, ⟨7, 5⟩⟩, by decide +kernel, rfl⟩
  have three : ByteOperand " 'c'+n ".toList (.value last) :=
    ⟨by decide +kernel, name, ⟨.value last, ⟨7, 5⟩⟩, by decide +kernel, rfl⟩
  have split : SplitBytes texts items source parted :=
    ⟨by decide, .cons one (.cons two (.cons three .nil)), ["n = 7".toList],
      ["end: JMP end".toList], by decide +kernel, by decide +kernel⟩
  have names : ∀ item ∈ items.tail, item.isRegisterName = false := by decide
  exact ⟨items, split, names, by decide, by decide +kernel,
    assemble_split_bytes split names (by decide)⟩

/-! What is excluded: the name of a register behind a comma, and a line with so many bytes that its
size wraps around. -/

namespace Layout

variable {source text : List Char} {items : List DataItem}

theorem toNat_cursor_initial_behind (items : List DataItem) :
    (State.initial.behind items).cursor.toNat = itemsExtent items % 0x100000000 := by
  rw [State.behind, UInt32.toNat_add, Content.toNat_size, Content.extent]
  have zero : State.initial.cursor.toNat = 0 := rfl
  omega

theorem ofSource_of_placesBytes (single : Text.lines source = [source])
    (places : Line.PlacesBytes source items)
    (room : itemsExtent items % 0x100000000 ≤ 0x10000) :
    ∃ placed, (ofSource source).1 = .ok ⟨[placed], .empty⟩ ∧ placed.content = .bytes items := by
  obtain ⟨span, exact⟩ := advance_bytes_iff ⟨1, 0, source⟩ places
  have advance := (exact .initial _ _).mpr ⟨by rwa [toNat_cursor_initial_behind], rfl, rfl⟩
  refine ⟨State.initial.put ⟨1, 0, source⟩ span (.bytes items),
    ofSource_eq_ok_iff.mpr ⟨State.initial.behind items, ?_, rfl⟩, rfl⟩
  rw [SourceLine.ofSource, single]
  exact .line advance .done

theorem room_of_placesBytes {rest : List (List Char)} (lines : Text.lines source = text :: rest)
    (places : Line.PlacesBytes text items) {layout : Layout}
    (laid : (ofSource source).1 = .ok layout) : itemsExtent items % 0x100000000 ≤ 0x10000 := by
  obtain ⟨final, advances, -⟩ := ofSource_eq_ok_iff.mp laid
  rw [SourceLine.ofSource, lines] at advances
  generalize layout.statements = statements at advances
  cases advances with
  | line now later =>
      obtain ⟨span, exact⟩ := advance_bytes_iff ⟨1, 0, text⟩ places
      rw [← toNat_cursor_initial_behind]
      exact ((exact _ _ _).mp now).1

end Layout

/-- Two texts of half 2^32 bytes are assembled on one line, where their size wraps around to
nothing, and not on lines of their own. -/
theorem split_halves {cs written : List Char} (escapes : Text.Escapes cs written)
    (half : Text.byteLength cs = 0x80000000) :
    let text := (Word.quoted written).text
    let source := byteLine (List.intercalate [','] [text, text])
    let parted := byteLine text ++ '\n' :: byteLine text
    SplitBytes [text, text] [.string cs, .string cs] source parted ∧
      (assemble source).isOk = true ∧ (assemble parted).isOk = false := by
  intro text source parted
  have operand : ByteOperand text (.string cs) := .quoted escapes
  have free : '\n' ∉ text := by simp [text, Word.quoted, escapes.newline_not_mem]
  have clear {operands : List Char} (none : '\n' ∉ operands) : '\n' ∉ byteLine operands := by
    intro member
    rcases List.mem_append.mp member with front | back
    · exact absurd front (by decide)
    · exact none back
  have pair : '\n' ∉ List.intercalate [','] [text, text] := by
    rw [List.intercalate_cons_cons, List.intercalate_singleton, List.mem_append, List.mem_append,
      List.mem_singleton, not_or, not_or]
    exact ⟨⟨free, by decide⟩, free⟩
  have joined : Text.lines source = [source] := Text.lines_of_not_mem (clear pair)
  have single : Text.lines parted = [byteLine text, byteLine text] := by
    rw [Text.lines_append_newline (clear free), Text.lines_of_not_mem (clear free)]
  refine ⟨⟨le_rfl, .cons operand (.cons operand .nil), [], [], joined, single⟩, ?_, ?_⟩
  · obtain ⟨items, places, bares⟩ := operand.placesBytes (.cons operand .nil)
      (List.forall_mem_singleton.mpr rfl)
    -- both halves together are 2^32, which is no size at all
    have room : itemsExtent items % 0x100000000 ≤ 0x10000 := by
      simp only [itemsExtent_of_bare bares, itemsExtent, DataItem.extent, half]
      decide
    obtain ⟨placed, laid, content⟩ := Layout.ofSource_of_placesBytes joined places room
    have strings : items = [.string cs, .string cs] := by
      obtain ⟨first, rest, rfl, one, others⟩ := List.map_eq_cons_iff.mp bares
      obtain ⟨second, rfl, two⟩ := List.map_eq_singleton_iff.mp others
      rw [DataItem.eq_string_of_bare one, DataItem.eq_string_of_bare two]
    have encoded : placed.encode .empty = .ok (Text.bytes cs ++ (Text.bytes cs ++ [])) := by
      rw [Placed.encode, content, strings]
      rfl
    have logged := Program.log?_singleton_eq_some_iff.mpr ⟨_, encoded, rfl⟩
    rw [Program.assemble_eq_ok_iff.mpr ⟨_, _, laid, logged, rfl⟩]
    rfl
  · cases assembled : assemble parted with
    | error error => rfl
    | ok program =>
        obtain ⟨layout, cells, laid, -⟩ := Program.assemble_eq_ok_iff.mp assembled
        obtain ⟨items, places, bares⟩ := operand.placesBytes .nil (List.forall_mem_nil _)
        rw [List.intercalate_singleton] at places
        have room := Layout.room_of_placesBytes single places laid
        simp only [itemsExtent_of_bare bares, itemsExtent, DataItem.extent, half] at room
        contradiction

theorem Text.byteLength_replicate (n : Nat) (c : Char) :
    Text.byteLength (List.replicate n c) = n * c.utf8Size := by
  induction n with
  | zero => rw [Nat.zero_mul, List.replicate_zero, Text.byteLength]
  | succ n ih => rw [List.replicate_succ, Text.byteLength, ih, Nat.succ_mul, Nat.add_comm]

/-- Behind the comma X is the register, and on a line of its own the constant. The two long texts
are laid out on one line only. -/
theorem split_bytes_apart :
    (let source := "X = 5\n.BYTE 1,X".toList
      let parted := "X = 5\n.BYTE 1\n.BYTE X".toList
      (∃ items, SplitBytes ["1".toList, "X".toList] items source parted ∧
        itemsExtent items < 0xFFFF0000) ∧
        (assemble source).isOk = false ∧ (assemble parted).isOk = true) ∧
    let text := (Word.quoted (List.replicate 0x80000000 'a')).text
    let source := byteLine (List.intercalate [','] [text, text])
    let parted := byteLine text ++ '\n' :: byteLine text
    (∃ items, SplitBytes [text, text] items source parted ∧
      ∀ item ∈ items.tail, item.isRegisterName = false) ∧
      (assemble source).isOk = true ∧ (assemble parted).isOk = false := by
  constructor
  · let name : Ident := ⟨".BYTE", ⟨0, 5⟩⟩
    let constant : Expr := .symbol ⟨"X", ⟨6, 1⟩⟩
    have one : ByteOperand "1".toList (.value (.number 1)) :=
      ⟨by decide +kernel, name, ⟨.value (.number 1), ⟨6, 1⟩⟩, by decide +kernel, rfl⟩
    have two : ByteOperand "X".toList (.value constant) :=
      ⟨by decide +kernel, name, ⟨.value constant, ⟨6, 1⟩⟩, by decide +kernel, rfl⟩
    exact ⟨⟨_, ⟨le_rfl, .cons one (.cons two .nil), ["X = 5".toList], [], by decide +kernel,
      by decide +kernel⟩, by decide⟩, by decide +kernel, by decide +kernel⟩
  · have letters : ∀ c ∈ List.replicate 0x80000000 'a', c ≠ '\\' ∧ c ≠ '"' ∧ c ≠ '\n' := by
      intro c member
      rw [List.eq_of_mem_replicate member]
      decide
    obtain ⟨split, accepted, rejected⟩ :=
      split_halves (Text.escapes_self letters) (Text.byteLength_replicate 0x80000000 'a')
    exact ⟨⟨_, split, List.forall_mem_singleton.mpr rfl⟩, accepted, rejected⟩

end EightBit
