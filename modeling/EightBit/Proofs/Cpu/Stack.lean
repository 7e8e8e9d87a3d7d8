import Mathlib.Data.List.Nodup
import EightBit.Proofs.Cpu.Calls

/-!
The stack keeps the last 256 bytes that were pushed. The stack pointer goes around its page, so a
byte more takes the place of the oldest one.
-/
namespace EightBit

inductive StackMove where
  | push (byte : UInt8)
  | pop
  deriving DecidableEq

namespace StackMove

def isPush : StackMove → Bool
  | push _ => true
  | pop => false

def pushesThenPops (bytes : List UInt8) (pops : Nat) : List StackMove :=
  bytes.map push ++ List.replicate pops pop

/-- The moves on a list of bytes, the newest first, that forgets all but 256 of them: the bytes that
are popped, in order, and those that are left. There is nothing to pop from the empty list. -/
def onList : List StackMove → List UInt8 → Option (List UInt8 × List UInt8)
  | [], kept => some ([], kept)
  | push byte :: rest, kept => onList rest ((byte :: kept).take 0x100)
  | pop :: _, [] => none
  | pop :: rest, byte :: kept => (onList rest kept).map fun (popped, left) => (byte :: popped, left)

theorem countP_pushesThenPops (bytes : List UInt8) (pops : Nat) :
    (pushesThenPops bytes pops).countP isPush = bytes.length := by
  have pushed : (bytes.map push).countP isPush = bytes.length := by
    rw [List.countP_map]
    exact congrFun List.countP_true bytes
  have popped : (List.replicate pops pop).countP isPush = 0 := by
    rw [List.countP_replicate]
    rfl
  rw [pushesThenPops, List.countP_append, pushed, popped, Nat.add_zero]

theorem onList_pushes (bytes : List UInt8) (rest : List StackMove) (kept : List UInt8) :
    onList (bytes.map push ++ rest) (kept.take 0x100) =
      onList rest ((bytes.reverse ++ kept).take 0x100) := by
  induction bytes generalizing kept with
  | nil => rfl
  | cons byte bytes ih =>
      have newest : (byte :: kept.take 0x100).take 0x100 = (byte :: kept).take 0x100 := by
        rw [List.take_succ_cons, List.take_take]
        rfl
      rw [List.map_cons, List.cons_append, onList, newest, ih, List.reverse_cons,
        List.append_assoc, List.singleton_append]

theorem onList_pops {kept : List UInt8} {pops : Nat} (enough : pops ≤ kept.length) :
    onList (List.replicate pops pop) kept = some (kept.take pops, kept.drop pops) := by
  induction pops generalizing kept with
  | zero => rfl
  | succ pops ih =>
      cases kept with
      | nil => exact absurd enough (Nat.not_succ_le_zero pops)
      | cons byte kept =>
          rw [List.replicate_succ, onList, ih (Nat.le_of_succ_le_succ enough)]
          rfl

theorem onList_pushesThenPops {bytes : List UInt8} {pops : Nat} (known : pops ≤ bytes.length)
    (few : pops ≤ 0x100) :
    onList (pushesThenPops bytes pops) [] =
      some (bytes.reverse.take pops, (bytes.reverse.take 0x100).drop pops) := by
  have enough : pops ≤ (bytes.reverse.take 0x100).length := by
    rw [List.length_take, List.length_reverse]
    omega
  have pushed := onList_pushes bytes (List.replicate pops pop) []
  rw [List.take_nil, List.append_nil] at pushed
  rw [pushesThenPops, pushed, onList_pops enough, List.take_take, Nat.min_eq_left few]

end StackMove

def Registers.stackPlaces (registers : Registers) (depth : Nat) : List Nat :=
  (List.range' 1 depth).map registers.stackPlace

namespace Cpu

def push (cpu : Cpu) (byte : UInt8) : Cpu :=
  { cpu with
    memory := commit cpu.memory [(cpu.registers.stackAddress, byte)]
    registers := { cpu.registers with sp := cpu.registers.sp - 1 } }

def pop (cpu : Cpu) : UInt8 × Cpu :=
  let registers := { cpu.registers with sp := cpu.registers.sp + 1 }
  (cpu.memory.at16 registers.stackAddress, { cpu with registers })

def moves : List StackMove → Cpu → List UInt8 × Cpu
  | [], cpu => ([], cpu)
  | .push byte :: rest, cpu => moves rest (cpu.push byte)
  | .pop :: rest, cpu =>
    let (byte, after) := cpu.pop
    let (popped, last) := moves rest after
    (byte :: popped, last)

def stackMoves (cpu : Cpu) (instruction : Instruction) : List StackMove :=
  let back := (cpu.registers.pc.toNat + 2) % 0x10000
  match instruction.mnemonic with
  | .pha => [.push cpu.registers.a]
  | .jsr => [.push (UInt8.ofNat (back / 0x100)), .push (UInt8.ofNat (back % 0x100))]
  | .pla => [.pop]
  | .rts => [.pop, .pop]
  | _ => []

def topmost (cpu : Cpu) (depth : Nat) : List UInt8 :=
  (cpu.registers.stackPlaces depth).map cpu.cell

end Cpu

namespace Registers

theorem stackPlace_zero (registers : Registers) :
    registers.stackPlace 0 = registers.stackAddress.toNat := by
  rw [toNat_stackAddress, stackPlace, Nat.add_zero, Nat.mod_eq_of_lt registers.sp.toNat_lt]

theorem stackPlaces_succ (registers : Registers) (depth : Nat) :
    registers.stackPlaces (depth + 1) = registers.stackPlace 1 ::
      { registers with sp := registers.sp + 1 }.stackPlaces depth := by
  have higher (above : Nat) : registers.stackPlace (1 + above) =
      { registers with sp := registers.sp + 1 }.stackPlace above := by
    have next : (registers.sp + 1).toNat = (registers.sp.toNat + 1) % 0x100 :=
      UInt8.toNat_add registers.sp 1
    rw [stackPlace, stackPlace, next]
    omega
  rw [stackPlaces, List.range'_succ, List.map_cons, ← List.map_add_range', List.map_map,
    stackPlaces]
  exact congrArg _ (List.map_congr_left fun above _ => higher above)

theorem nodup_stackPlaces (registers : Registers) {depth : Nat} (fits : depth ≤ 0x100) :
    (registers.stackPlaces depth).Nodup := by
  refine List.Nodup.map_on ?_ List.nodup_range'
  intro first inside second within same
  rw [List.mem_range'_1] at inside within
  unfold stackPlace at same
  omega

end Registers

namespace Cpu

variable {cpu : Cpu} {instruction : Instruction}

@[simp]
theorem moves_push (cpu : Cpu) (byte : UInt8) (rest : List StackMove) :
    cpu.moves (.push byte :: rest) = (cpu.push byte).moves rest := rfl

@[simp]
theorem moves_pop (cpu : Cpu) (rest : List StackMove) :
    cpu.moves (.pop :: rest) =
      (cpu.pop.1 :: (cpu.pop.2.moves rest).1, (cpu.pop.2.moves rest).2) := rfl

theorem toNat_sp_push (cpu : Cpu) (byte : UInt8) :
    (cpu.push byte).registers.sp.toNat = (0xFF + cpu.registers.sp.toNat) % 0x100 :=
  UInt8.toNat_sub _ 1

theorem toNat_sp_pop (cpu : Cpu) :
    cpu.pop.2.registers.sp.toNat = (cpu.registers.sp.toNat + 1) % 0x100 :=
  UInt8.toNat_add _ 1

theorem memory_push (cpu : Cpu) (byte : UInt8) :
    (cpu.push byte).memory = cpu.memory.store (cpu.registers.stackPlace 0) byte := by
  have plain : MemoryMap.isFont cpu.registers.stackAddress.toNat = false := by
    rw [← Registers.stackPlace_zero]
    exact isFont_stackPlace _ 0
  rw [push, Registers.stackPlace_zero]
  dsimp only
  rw [commit, plain]
  rfl

theorem byte_push_of_ne {byte : UInt8} {address : Nat}
    (apart : address ≠ cpu.registers.stackPlace 0) :
    (cpu.push byte).memory.byte address = cpu.memory.byte address := by
  rw [memory_push, Memory.byte_store_of_ne _ apart]

theorem stackPlace_lt (registers : Registers) (above : Nat) :
    0x100 ≤ registers.stackPlace above ∧ registers.stackPlace above < 0x200 := by
  unfold Registers.stackPlace
  omega

theorem fst_pop (cpu : Cpu) : cpu.pop.1 = cpu.cell (cpu.registers.stackPlace 1) := by
  rw [pop, at16_eq_cell, Registers.toNat_stackAddress_add]
  rfl

theorem topmost_succ (cpu : Cpu) (depth : Nat) :
    cpu.topmost (depth + 1) = cpu.pop.1 :: cpu.pop.2.topmost depth := by
  rw [topmost, Registers.stackPlaces_succ, List.map_cons, fst_pop]
  rfl

theorem topmost_push (room : 0x200 ≤ cpu.memory.size) (byte : UInt8) {depth : Nat}
    (fits : depth < 0x100) :
    (cpu.push byte).topmost (depth + 1) = byte :: cpu.topmost depth := by
  have level : { (cpu.push byte).registers with sp := (cpu.push byte).registers.sp + 1 } =
      cpu.registers := by
    rw [push]
    dsimp only
    rw [UInt8.sub_add_cancel]
  have first : (cpu.push byte).registers.stackPlace 1 = cpu.registers.stackPlace 0 := by
    rw [Registers.stackPlace, Registers.stackPlace, toNat_sp_push]
    omega
  have inside := stackPlace_lt cpu.registers 0
  have newest : (cpu.push byte).cell (cpu.registers.stackPlace 0) = byte := by
    rw [cell, memory_push, Memory.byte_store, Nat.mod_eq_of_lt (by omega), if_pos ⟨rfl, by omega⟩]
  -- the places of fewer than 256 bytes do not come around to the new one
  have others : ∀ place ∈ cpu.registers.stackPlaces depth,
      (cpu.push byte).cell place = cpu.cell place := by
    intro place member
    obtain ⟨above, within, rfl⟩ := List.mem_map.mp member
    rw [List.mem_range'_1] at within
    rw [cell, cell, byte_push_of_ne]
    unfold Registers.stackPlace
    omega
  rw [topmost, Registers.stackPlaces_succ, level, first, List.map_cons, newest,
    List.map_congr_left others, topmost]

theorem take_topmost (cpu : Cpu) (count depth : Nat) :
    (cpu.topmost depth).take count = cpu.topmost (min count depth) := by
  induction count generalizing cpu depth with
  | zero =>
      rw [Nat.zero_min]
      rfl
  | succ count ih =>
      cases depth with
      | zero => rfl
      | succ depth =>
          rw [topmost_succ, List.take_succ_cons, ih, Nat.succ_min_succ, topmost_succ]

/-- The machine has these bytes on its stack, the newest first. -/
structure Holds (cpu : Cpu) (kept : List UInt8) : Prop where
  room : 0x200 ≤ cpu.memory.size
  fits : kept.length ≤ 0x100
  here : cpu.topmost kept.length = kept

theorem Holds.push {kept : List UInt8} (holds : cpu.Holds kept) (byte : UInt8) :
    (cpu.push byte).Holds ((byte :: kept).take 0x100) := by
  obtain ⟨room, fits, here⟩ := holds
  have size : (cpu.push byte).memory.size = cpu.memory.size := by
    rw [memory_push, Memory.size_store]
  refine ⟨by rwa [size], List.length_take_le _ _, ?_⟩
  have few : min 0xFF kept.length < 0x100 := by omega
  have length : ((byte :: kept).take 0x100).length = min 0xFF kept.length + 1 := by
    rw [List.length_take, List.length_cons]
    omega
  rw [length, topmost_push room byte few, ← take_topmost, here, List.take_succ_cons]

theorem Holds.pop {byte : UInt8} {kept : List UInt8} (holds : cpu.Holds (byte :: kept)) :
    cpu.pop.1 = byte ∧ cpu.pop.2.Holds kept := by
  obtain ⟨room, fits, here⟩ := holds
  rw [List.length_cons, topmost_succ] at here
  obtain ⟨newest, others⟩ := List.cons_eq_cons.mp here
  exact ⟨newest, room, Nat.le_of_succ_le fits, others⟩

theorem Holds.moves {moves : List StackMove} {kept popped left : List UInt8}
    (holds : cpu.Holds kept) (done : StackMove.onList moves kept = some (popped, left)) :
    (cpu.moves moves).1 = popped ∧ (cpu.moves moves).2.Holds left := by
  induction moves generalizing cpu kept popped with
  | nil =>
      cases done
      exact ⟨rfl, holds⟩
  | cons move rest ih =>
      cases move with
      | push byte => exact ih (holds.push byte) done
      | pop =>
          cases kept with
          | nil => cases done
          | cons byte kept =>
              obtain ⟨newest, others⟩ := holds.pop
              obtain ⟨⟨later, last⟩, below, same⟩ := Option.map_eq_some_iff.mp done
              cases same
              obtain ⟨taken, after⟩ := ih others below
              exact ⟨List.cons_eq_cons.mpr ⟨newest, taken⟩, after⟩

theorem moves_change_only (moves : List StackMove) (cpu : Cpu) :
    let after := (cpu.moves moves).2
    after = { cpu with
      memory := after.memory, registers := { cpu.registers with sp := after.registers.sp } } ∧
    after.memory.size = cpu.memory.size ∧
    ∀ address, address < 0x100 ∨ 0x200 ≤ address →
      after.memory.byte address = cpu.memory.byte address := by
  induction moves generalizing cpu with
  | nil => exact ⟨rfl, rfl, fun _ _ => rfl⟩
  | cons move rest ih =>
      cases move with
      | push byte =>
          obtain ⟨others, size, outside⟩ := ih (cpu.push byte)
          refine ⟨others, size.trans ?_, fun address away => (outside address away).trans ?_⟩
          · rw [memory_push, Memory.size_store]
          · have place := stackPlace_lt cpu.registers 0
            exact byte_push_of_ne (by omega)
      | pop => exact ih cpu.pop.2

theorem toNat_sp_moves (moves : List StackMove) (cpu : Cpu) :
    (cpu.moves moves).2.registers.sp.toNat =
      (cpu.registers.sp.toNat + (cpu.moves moves).1.length +
        0xFF * moves.countP StackMove.isPush) % 0x100 := by
  induction moves generalizing cpu with
  | nil => exact (Nat.mod_eq_of_lt cpu.registers.sp.toNat_lt).symm
  | cons move rest ih =>
      cases move with
      | push byte =>
          rw [moves_push, ih, toNat_sp_push, List.countP_cons_of_pos rfl]
          omega
      | pop =>
          rw [moves_pop, ih, toNat_sp_pop, List.length_cons,
            List.countP_cons_of_neg Bool.false_ne_true]
          omega

theorem sp_step (found : cpu.instruction? = some instruction) :
    cpu.step.registers.sp = (cpu.moves (cpu.stackMoves instruction)).2.registers.sp := by
  rw [registers_step found, stackMoves]
  cases named : instruction.mnemonic with
  | pha | pla =>
      rw [outcome, perform, named]
      rfl
  | jsr =>
      rw [outcome, perform, named]
      change cpu.registers.sp - 2 = cpu.registers.sp - 1 - 1
      rw [UInt8.sub_eq_add_neg, UInt8.sub_eq_add_neg, UInt8.sub_eq_add_neg, UInt8.add_assoc]
      rfl
  | rts =>
      rw [outcome, perform, named]
      exact (UInt8.add_assoc _ 1 1).symm
  | _ => exact keptBy_perform.sp (by rw [named]; decide)

theorem stored_of_pha (found : cpu.instruction? = some instruction)
    (pushes : instruction.mnemonic = .pha) :
    cpu.stored = [(cpu.registers.stackPlace 0, cpu.registers.a)] := by
  apply stored_of_writes found
  · rw [writes, pushes]
  · exact List.forall_mem_singleton.mpr (isFont_stackPlace _ _)

theorem stored_of_pop (found : cpu.instruction? = some instruction)
    (pops : instruction.mnemonic ∈ [.pla, .rts]) : cpu.stored = [] := by
  apply stored_of_writes found
  · apply writes_of_not_mem
    revert pops
    cases instruction.mnemonic <;> decide
  · exact List.forall_mem_nil _

theorem memory_step_of_stackMoves (found : cpu.instruction? = some instruction)
    (uses : instruction.mnemonic ∈ [.pha, .pla, .jsr, .rts]) :
    cpu.step.memory = (cpu.moves (cpu.stackMoves instruction)).2.memory := by
  rw [memory_step, stackMoves]
  cases named : instruction.mnemonic with
  | pha =>
      rw [stored_of_pha found named, moves_push]
      exact (memory_push _ _).symm
  | jsr =>
      have below (byte : UInt8) :
          (cpu.push byte).registers.stackPlace 0 = cpu.registers.stackPlace 0xFF := by
        rw [Registers.stackPlace, Registers.stackPlace, toNat_sp_push]
        omega
      rw [stored_of_jsr found named, moves_push, moves_push]
      refine (Eq.trans (memory_push _ _) ?_).symm
      rw [below, memory_push]
      rfl
  | pla | rts =>
      rw [stored_of_pop found (by rw [named]; decide)]
      rfl
  | _ =>
      rw [named] at uses
      exact absurd uses (by decide)

theorem popped_of_pla (found : cpu.instruction? = some instruction)
    (pulls : instruction.mnemonic = .pla) :
    (cpu.moves (cpu.stackMoves instruction)).1 = [cpu.step.registers.a] := by
  rw [registers_step found, stackMoves, outcome, perform, pulls]
  rfl

/-- A return pops the address in front of the place where it goes on, its low byte first. -/
theorem popped_of_rts (found : cpu.instruction? = some instruction)
    (returns : instruction.mnemonic = .rts) :
    ∃ low high, (cpu.moves (cpu.stackMoves instruction)).1 = [low, high] ∧
      cpu.step.registers.pc = wordOf low high + 1 := by
  refine ⟨cpu.pop.1, cpu.pop.2.pop.1, ?_, ?_⟩
  · rw [stackMoves, returns]
    rfl
  · have next : cpu.pop.2.registers.stackPlace 1 = cpu.registers.stackPlace 2 := by
      rw [Registers.stackPlace, Registers.stackPlace, toNat_sp_pop]
      omega
    rw [(step_of_rts found returns).1, fst_pop, fst_pop, next]
    rfl

/-- The stack keeps the last 256 bytes. They are popped in the opposite order in which they were
pushed, which brings the stack pointer back to where it was. Only cells of the page of the stack
change, and the bytes that were not popped yet lie in cells of their own. This is the stack of the
instructions that push and pop. -/
theorem stack_keeps_last_pushed {cpu : Cpu} (room : 0x200 ≤ cpu.memory.size) :
    (∀ bytes : List UInt8, bytes.length ≤ 0x100 →
      let taken := cpu.moves (StackMove.pushesThenPops bytes bytes.length)
      taken.1 = bytes.reverse ∧ taken.2.registers = cpu.registers) ∧
    (∀ bytes : List UInt8, 0x100 < bytes.length →
      (cpu.moves (StackMove.pushesThenPops bytes 0x100)).1 = bytes.reverse.take 0x100) ∧
    (∀ moves popped left, StackMove.onList moves [] = some (popped, left) →
      let taken := cpu.moves moves
      let places := taken.2.registers.stackPlaces left.length
      taken.1 = popped ∧ places.map taken.2.cell = left ∧ places.Nodup ∧
        ∀ place ∈ places, 0x100 ≤ place ∧ place < 0x200) ∧
    (∀ moves, let taken := cpu.moves moves
      taken.2 = { cpu with
        memory := taken.2.memory
        registers := { cpu.registers with sp := taken.2.registers.sp } } ∧
      taken.2.memory.size = cpu.memory.size ∧
      (∀ address, address < 0x100 ∨ 0x200 ≤ address →
        taken.2.memory.byte address = cpu.memory.byte address) ∧
      (taken.1.length = moves.countP StackMove.isPush →
        taken.2.registers.sp = cpu.registers.sp)) ∧
    ∀ instruction, cpu.instruction? = some instruction →
      let taken := cpu.moves (cpu.stackMoves instruction)
      cpu.step.registers.sp = taken.2.registers.sp ∧
      (instruction.mnemonic ∈ [.pha, .pla, .jsr, .rts] → cpu.step.memory = taken.2.memory) ∧
      (instruction.mnemonic = .pla → taken.1 = [cpu.step.registers.a]) ∧
      (instruction.mnemonic = .rts → ∃ low high, taken.1 = [low, high] ∧
        cpu.step.registers.pc = wordOf low high + 1) := by
  have empty : cpu.Holds [] := ⟨room, Nat.zero_le _, rfl⟩
  have level (moves : List StackMove)
      (balanced : (cpu.moves moves).1.length = moves.countP StackMove.isPush) :
      (cpu.moves moves).2.registers.sp = cpu.registers.sp := by
    have around := toNat_sp_moves moves cpu
    have within := cpu.registers.sp.toNat_lt
    apply UInt8.toNat_inj.mp
    omega
  refine ⟨?_, ?_, ?_, ?_, ?_⟩
  · intro bytes few
    have order := (empty.moves (StackMove.onList_pushesThenPops (Nat.le_refl _) few)).1
    rw [← List.length_reverse, List.take_length, List.length_reverse] at order
    refine ⟨order, ?_⟩
    obtain ⟨others, -, -⟩ := moves_change_only (StackMove.pushesThenPops bytes bytes.length) cpu
    rw [others, level _ (by rw [order, StackMove.countP_pushesThenPops, List.length_reverse])]
  · intro bytes many
    exact (empty.moves (StackMove.onList_pushesThenPops (Nat.le_of_lt many) (Nat.le_refl _))).1
  · intro moves popped left done
    obtain ⟨order, -, few, here⟩ := empty.moves done
    refine ⟨order, here, Registers.nodup_stackPlaces _ few, fun place member => ?_⟩
    obtain ⟨above, -, rfl⟩ := List.mem_map.mp member
    exact stackPlace_lt _ above
  · intro moves
    obtain ⟨others, size, outside⟩ := moves_change_only moves cpu
    exact ⟨others, size, outside, level moves⟩
  · intro instruction found
    exact ⟨sp_step found, memory_step_of_stackMoves found, popped_of_pla found, popped_of_rts found⟩

theorem stack_keeps_last_pushed_around_page :
    let cpu : Cpu :=
      { blank with
        memory := blank.memory.storeAll 0x0300 [0x48]
        registers := { Registers.initial with a := 9, sp := 1, pc := 0x0300 } }
    let many := (List.range 0x101).map UInt8.ofNat
    let moves : List StackMove := [.push 5, .push 6, .pop, .push 7, .push 8, .pop]
    (cpu.moves (StackMove.pushesThenPops [1, 2, 3] 3)).1 = [3, 2, 1] ∧
      (cpu.moves (StackMove.pushesThenPops many 0x100)).1 = many.reverse.take 0x100 ∧
      (cpu.moves moves).1 = [6, 8] ∧
      (cpu.moves moves).2.registers.stackPlaces 2 = [0x100, 0x101] ∧
      ([0x100, 0x101].map (cpu.moves moves).2.cell) = [7, 5] ∧
      cpu.step.memory = (cpu.moves [.push 9]).2.memory := by
  intro cpu many moves
  have room : 0x200 ≤ cpu.memory.size := by decide +kernel
  have found : cpu.instruction? = some ⟨0x48, .pha, .implied, 3⟩ := by decide +kernel
  have done : StackMove.onList moves [] = some ([6, 8], [7, 5]) := by decide
  have places : (cpu.moves moves).2.registers.stackPlaces 2 = [0x100, 0x101] := by decide +kernel
  obtain ⟨ordered, last, kept, -, steps⟩ := stack_keeps_last_pushed room
  obtain ⟨popped, left, -⟩ := kept moves _ _ done
  obtain ⟨-, memory, -⟩ := steps _ found
  have length : 0x100 < many.length := by
    rw [List.length_map, List.length_range]
    decide
  exact ⟨(ordered [1, 2, 3] (by decide)).1, last many length, popped, places, places ▸ left,
    memory (by decide)⟩

end Cpu

end EightBit
