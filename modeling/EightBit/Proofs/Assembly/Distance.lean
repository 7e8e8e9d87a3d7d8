import Mathlib.Data.List.Basic
import EightBit.Proofs.Assembly.Encoding
import EightBit.Proofs.Layout.Growth

/-!
Distances of branches. They are computed in 64 bits, and no value is too large for that; but one
close to the least of all has a distance below that, which the second pass either takes for a huge
positive one or, with guarded arithmetic, breaks down at.
-/
namespace EightBit

/-- What the first pass makes sure of for a statement, however long the source is. -/
structure Placed.Recorded (placed : Placed) : Prop where
  address_lt : placed.address < 0x10000
  complete : placed.content.Complete
  coded {mnemonic : Mnemonic} {mode : AddressingMode} {operand : Option Located} :
    placed.content = .instruction mnemonic mode operand →
    (Instruction.encode? mnemonic mode).isSome = true

namespace Layout

variable {source : List Char} {layout : Layout} {placed : Placed}

theorem State.put_address_lt (state : State) (here : SourceLine) (span : Span)
    (content : Content) : (state.put here span content).address < 0x10000 := by
  have limit : addressLimit.toNat = 0x10000 := rfl
  rw [State.put, UInt32.toNat_mod, limit]
  exact Nat.mod_lt _ (by decide)

theorem Decides.coded {state : State} {statement : Statement} {span : Span} {content : Content}
    {mnemonic : Mnemonic} {mode : AddressingMode} {operand : Option Located}
    (decided : Decides state statement span content)
    (same : content = .instruction mnemonic mode operand) :
    (Instruction.encode? mnemonic mode).isSome = true := by
  cases decided with
  | data named places read =>
      subst same
      cases dataContent_cases read
  | instruction named shaped supported =>
      cases same
      exact supported

theorem recorded_of_mem (laid : (ofSource source).1 = .ok layout)
    (member : placed ∈ layout.statements) : placed.Recorded := by
  obtain ⟨front, here, back, next, now, -, advance, among⟩ := exists_line_of_mem laid member
  cases advance with
  | bare | constant | origin => cases among
  | statement read bound decided fits =>
      rw [List.mem_singleton] at among
      subst among
      exact ⟨State.put_address_lt _ _ _ _, decided.complete, decided.coded⟩

end Layout

namespace Placed

variable {symbols : SymbolTable} {placed : Placed} {mnemonic : Mnemonic} {located : Located}
  {value : Int64} {distance : Int}

theorem toInt_sub_ofNat_of_le {base : Nat} (small : base < 0x8000000000000000)
    (high : -0x8000000000000000 ≤ value.toInt - base) :
    (value - Int64.ofNat base).toInt = value.toInt - base := by
  have below := value.toInt_lt
  rw [Int64.toInt_sub, Int64.toInt_ofNat_of_lt small]
  apply Int.bmod_eq_of_le <;> omega

theorem toInt_sub_ofNat_of_lt {base : Nat} (small : base < 0x8000000000000000)
    (low : value.toInt - base < -0x8000000000000000) :
    (value - Int64.ofNat base).toInt = value.toInt - base + 0x10000000000000000 := by
  have above := value.le_toInt
  rw [Int64.toInt_sub, Int64.toInt_ofNat_of_lt small, ← Int.add_bmod_right]
  apply Int.bmod_eq_of_le <;> omega

theorem distance?_branch
    (content : placed.content = .instruction mnemonic .relative (some located))
    (known : symbols.evaluate located.expr = .ok value) :
    placed.distance? symbols = some (value.toInt - (placed.address + 2)) := by
  simp only [distance?, content, resolve_of_evaluate known placed]
  rfl

theorem branch_of_distance? (found : placed.distance? symbols = some distance) :
    ∃ mnemonic located value, placed.content = .instruction mnemonic .relative (some located) ∧
      symbols.evaluate located.expr = .ok value ∧
      distance = value.toInt - (placed.address + 2) := by
  unfold distance? at found
  split at found
  · rename_i mnemonic located content
    cases known : symbols.evaluate located.expr with
    | error ident =>
        rw [SymbolTable.evaluate] at known
        simp [resolve, known, Except.toOption] at found
    | ok value =>
        rw [resolve_of_evaluate known] at found
        exact ⟨mnemonic, located, value, content, known, (Option.some.inj found).symm⟩
  · cases found

/-- Distances can be too small for 64 bits, never too large. -/
theorem overflows_iff (found : placed.distance? symbols = some distance) :
    placed.overflows symbols = true ↔ distance < -0x8000000000000000 := by
  obtain ⟨mnemonic, located, value, -, -, rfl⟩ := branch_of_distance? found
  have least : Int64.minValue.toInt = -0x8000000000000000 := rfl
  have greatest : Int64.maxValue.toInt = 0x7FFFFFFFFFFFFFFF := rfl
  have below := value.toInt_lt
  rw [overflows, found, Option.any_some, decide_eq_true_iff, least, greatest]
  omega

theorem in_reach_iff (distance : Int64) :
    (-128 ≤ distance ∧ distance ≤ 127) ↔ (-128 ≤ distance.toInt ∧ distance.toInt ≤ 127) := by
  rw [Int64.le_iff_toInt_le, Int64.le_iff_toInt_le]
  rfl

theorem Recorded.toInt_reported (recorded : placed.Recorded)
    (content : placed.content = .instruction mnemonic .relative (some located))
    (known : symbols.evaluate located.expr = .ok value) :
    (value - Int64.ofNat (placed.address + 2)).toInt = value.toInt - (placed.address + 2) +
      if placed.overflows symbols then 0x10000000000000000 else 0 := by
  have small := recorded.address_lt
  have tiny : placed.address + 2 < 0x8000000000000000 := by omega
  have overflows := overflows_iff (distance?_branch content known)
  split
  · rename_i low
    exact toInt_sub_ofNat_of_lt tiny (overflows.mp low)
  · rename_i high
    rw [Int.add_zero]
    exact toInt_sub_ofNat_of_le tiny (Int.not_lt.mp fun low => high (overflows.mpr low))

theorem exists_operandBytes {mode : AddressingMode} (span : Span)
    (reach : mode = .relative → -128 ≤ (value - Int64.ofNat (placed.address + 2)).toInt ∧
      (value - Int64.ofNat (placed.address + 2)).toInt ≤ 127) :
    ∃ bytes, placed.operandBytes mode span value = .ok bytes := by
  cases mode with
  | implied | immediate | zeroPage | absolute | absoluteX | absoluteY | indirectY =>
      exact ⟨_, rfl⟩
  | relative =>
      simp only [operandBytes]
      rw [if_pos ((in_reach_iff _).mpr (reach rfl))]
      exact ⟨_, rfl⟩

theorem Recorded.encode_branch (recorded : placed.Recorded)
    (content : placed.content = .instruction mnemonic .relative (some located))
    (known : symbols.evaluate located.expr = .ok value)
    (far : ¬ (-128 ≤ (value - Int64.ofNat (placed.address + 2)).toInt ∧
      (value - Int64.ofNat (placed.address + 2)).toInt ≤ 127)) :
    placed.encode symbols = .error ⟨.branchOutOfRange (value - Int64.ofNat (placed.address + 2)),
      placed.line, located.span.shift placed.offset⟩ := by
  obtain ⟨opcode, coded⟩ := Option.isSome_iff_exists.mp (recorded.coded content)
  have resolved := resolve_of_evaluate known placed
  simp only [encode, content, instructionBytes, coded, resolved, bind, Except.bind, operandBytes]
  rw [if_neg fun near => far ((in_reach_iff _).mp near)]

end Placed

section Guarded

variable {source : List Char} {layout : Layout}

theorem assembleGuarded_of_bounded (laid : (Layout.ofSource source).1 = .ok layout)
    (bounded : ∀ placed ∈ layout.statements, placed.overflows layout.symbols = false) :
    (assembleGuarded source).1 = .ok (assemble source) := by
  have none : layout.statements.any (·.overflows layout.symbols) = false := by
    simpa using bounded
  cases ran : Layout.ofSource source with | mk result events => ?_
  rw [ran] at laid
  subst laid
  simp only [assembleGuarded, ran, none, Bool.false_eq_true, ↓reduceIte, assemble]

theorem assembleGuarded_of_overflows {placed : Placed}
    (laid : (Layout.ofSource source).1 = .ok layout) (member : placed ∈ layout.statements)
    (overflows : placed.overflows layout.symbols = true) :
    (assembleGuarded source).1 = .error .subtractionOverflow := by
  have some : layout.statements.any (·.overflows layout.symbols) = true :=
    List.any_eq_true.mpr ⟨placed, member, overflows⟩
  cases ran : Layout.ofSource source with | mk result events => ?_
  rw [ran] at laid
  subst laid
  simp only [assembleGuarded, ran, some, ↓reduceIte]

theorem assembleGuarded_eq_error_iff (laid : (Layout.ofSource source).1 = .ok layout) :
    (assembleGuarded source).1 = .error .subtractionOverflow ↔
      ∃ placed ∈ layout.statements, placed.overflows layout.symbols = true := by
  constructor
  · intro broke
    by_contra none
    have bounded : ∀ placed ∈ layout.statements, placed.overflows layout.symbols = false := by
      intro placed member
      exact Bool.eq_false_iff.mpr fun overflows => none ⟨placed, member, overflows⟩
    rw [assembleGuarded_of_bounded laid bounded] at broke
    cases broke
  · rintro ⟨placed, member, overflows⟩
    exact assembleGuarded_of_overflows laid member overflows

/-- The distance of a branch leaves the 64 bits if its target is too close to the least value.
Guarded arithmetic breaks down at it, and otherwise a distance is reported that is too large by
2^64. Every other distance that is reported is exact. -/
theorem distance_exact_unless_overflows (laid : (Layout.ofSource source).1 = .ok layout) :
    ((assembleGuarded source).1 = .error .subtractionOverflow ↔
      ∃ placed ∈ layout.statements, placed.overflows layout.symbols = true) ∧
    ∀ placed ∈ layout.statements, ∀ mnemonic located value,
      placed.content = .instruction mnemonic .relative (some located) →
      layout.symbols.evaluate located.expr = .ok value →
      (placed.overflows layout.symbols = true ↔
        value.toInt < -0x8000000000000000 + (placed.address + 2)) ∧
      (placed.overflows layout.symbols = false →
        ∀ error, placed.encode layout.symbols = .error error → ∃ reported : Int64,
          error = ⟨.branchOutOfRange reported, placed.line, located.span.shift placed.offset⟩ ∧
          reported.toInt = value.toInt - (placed.address + 2)) ∧
      (placed.overflows layout.symbols = true → ∃ reported : Int64,
        placed.encode layout.symbols = .error
          ⟨.branchOutOfRange reported, placed.line, located.span.shift placed.offset⟩ ∧
        reported.toInt = value.toInt - (placed.address + 2) + 0x10000000000000000) := by
  refine ⟨assembleGuarded_eq_error_iff laid, ?_⟩
  intro placed member mnemonic located value content known
  have recorded := Layout.recorded_of_mem laid member
  have overflows := Placed.overflows_iff (Placed.distance?_branch content known)
  have exact := recorded.toInt_reported content known
  refine ⟨overflows.trans Int.sub_lt_iff, ?_, ?_⟩
  · intro bounded error failed
    rw [bounded, if_neg Bool.false_ne_true, Int.add_zero] at exact
    refine ⟨_, ?_, exact⟩
    by_cases near : -128 ≤ (value - Int64.ofNat (placed.address + 2)).toInt ∧
        (value - Int64.ofNat (placed.address + 2)).toInt ≤ 127
    · obtain ⟨opcode, coded⟩ := Option.isSome_iff_exists.mp (recorded.coded content)
      obtain ⟨bytes, made⟩ := Placed.exists_operandBytes located.span fun _ => near
      rw [Placed.encode_instruction content coded known made] at failed
      cases failed
    · rw [recorded.encode_branch content known near] at failed
      exact (Except.error.inj failed).symm
  · intro low
    rw [low, if_pos rfl] at exact
    have least := value.le_toInt
    have small := recorded.address_lt
    exact ⟨_, recorded.encode_branch content known (by omega), exact⟩

def leastBranch : Placed :=
  ⟨1, 0, 0, ⟨0, 24⟩, .instruction .bne .relative (some
    ⟨.binary .subtract (.unary .negate (.number 0x7FFFFFFFFFFFFFFF)) (.number 1), ⟨4, 20⟩⟩)⟩

theorem laid_leastBranch :
    (Layout.ofSource "BNE -$7FFFFFFFFFFFFFFF-1".toList).1 = .ok ⟨[leastBranch], .empty⟩ := by
  decide +kernel

theorem distance_exact_unless_overflows_least :
    ∃ layout, (Layout.ofSource "BNE -$7FFFFFFFFFFFFFFF-1".toList).1 = .ok layout ∧
      (assembleGuarded "BNE -$7FFFFFFFFFFFFFFF-1".toList).1 = .error .subtractionOverflow ∧
      ∃ placed ∈ layout.statements, ∃ reported : Int64, placed.encode layout.symbols =
        .error ⟨.branchOutOfRange reported, 1, ⟨4, 20⟩⟩ ∧
        reported.toInt = -0x8000000000000000 - 2 + 0x10000000000000000 := by
  obtain ⟨breaks, statements⟩ := distance_exact_unless_overflows laid_leastBranch
  have member := List.mem_singleton_self leastBranch
  have overflows : leastBranch.overflows .empty = true := by decide +kernel
  obtain ⟨-, -, wrong⟩ :=
    statements leastBranch member _ _ Int64.minValue rfl (by decide +kernel)
  obtain ⟨reported, failed, wrapped⟩ := wrong overflows
  exact ⟨_, laid_leastBranch, breaks.mpr ⟨_, member, overflows⟩, _, member, reported, failed,
    wrapped⟩

/-- It is not so that every distance is a number of 64 bits, that guarded arithmetic always has an
answer, and that what is reported is always the distance. -/
theorem exists_overflowing_distance :
    ¬ ∀ source layout, (Layout.ofSource source).1 = .ok layout →
      (∃ result, (assembleGuarded source).1 = .ok result) ∧
      ∀ placed ∈ layout.statements, ∀ distance, placed.distance? layout.symbols = some distance →
        (Int64.minValue.toInt ≤ distance ∧ distance ≤ Int64.maxValue.toInt) ∧
        ∀ reported line span,
          placed.encode layout.symbols = .error ⟨.branchOutOfRange reported, line, span⟩ →
          reported.toInt = distance := by
  intro claim
  obtain ⟨-, exact⟩ := claim _ _ laid_leastBranch
  obtain ⟨⟨low, -⟩, -⟩ := exact leastBranch (List.mem_singleton_self _)
    (-0x8000000000000000 - 2) (by decide +kernel)
  revert low
  decide

end Guarded

end EightBit
