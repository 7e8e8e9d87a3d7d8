import EightBit.Proofs.Assembly.Alike

namespace EightBit

def SymbolTable.ValuesIn (few many : SymbolTable) : Prop :=
  ∀ expr value, few.evaluate expr = .ok value → many.evaluate expr = .ok value

namespace Placed

variable {few many : SymbolTable} {placed other : Placed} {bytes : List UInt8}

/-- Statements at the same address whose contents mean the same. -/
structure SameCode (placed other : Placed) : Prop where
  address : placed.address = other.address
  content : placed.content.bare = other.content.bare

theorem SameCode.refl (placed : Placed) : placed.SameCode placed := ⟨rfl, rfl⟩

section Values

variable (kept : few.ValuesIn many)

include kept

theorem resolve_of_values {expr : Expr} {value : Int64}
    (resolved : placed.resolve few expr = .ok value) : other.resolve many expr = .ok value :=
  resolve_of_evaluate (kept expr value (evaluate_of_resolve resolved)) other

theorem itemBytes_of_values {items : List DataItem}
    (encoded : placed.itemBytes few items = .ok bytes) :
    other.itemBytes many items = .ok bytes := by
  induction items generalizing bytes with
  | nil => exact encoded
  | cons item rest ih =>
      cases item with
      | value expr =>
          obtain ⟨value, resolved, after⟩ := ok_of_bind encoded
          obtain ⟨more, later, done⟩ := ok_of_bind after
          simp only [itemBytes, resolve_of_values kept resolved, ih later, bind, Except.bind]
          exact done
      | string text =>
          obtain ⟨more, later, done⟩ := ok_of_bind encoded
          simp only [itemBytes, ih later, bind, Except.bind]
          exact done

theorem wordBytes_of_values {values : List Expr}
    (encoded : placed.wordBytes few values = .ok bytes) :
    other.wordBytes many values = .ok bytes := by
  induction values generalizing bytes with
  | nil => exact encoded
  | cons expr rest ih =>
      obtain ⟨value, resolved, after⟩ := ok_of_bind encoded
      obtain ⟨more, later, done⟩ := ok_of_bind after
      simp only [wordBytes, resolve_of_values kept resolved, ih later, bind, Except.bind]
      exact done

omit kept in
theorem operandBytes_of_address (same : placed.address = other.address) {mode : AddressingMode}
    {span : Span} {value : Int64} (encoded : placed.operandBytes mode span value = .ok bytes) :
    other.operandBytes mode span value = .ok bytes := by
  cases mode with
  | relative =>
      simp only [operandBytes, ← same] at encoded ⊢
      split at encoded
      · rename_i near
        rw [if_pos near]
        exact encoded
      · cases encoded
  | _ => exact encoded

theorem instructionBytes_of_values (same : placed.address = other.address) {mnemonic : Mnemonic}
    {mode : AddressingMode} {operand : Option Located}
    (encoded : placed.instructionBytes few mnemonic mode operand = .ok bytes) :
    other.instructionBytes many mnemonic mode operand = .ok bytes := by
  unfold instructionBytes at encoded ⊢
  cases coded : Instruction.encode? mnemonic mode with
  | none =>
      rw [coded] at encoded
      cases encoded
  | some opcode =>
      simp only [coded] at encoded ⊢
      cases operand with
      | none => exact encoded
      | some located =>
          obtain ⟨value, resolved, after⟩ := ok_of_bind encoded
          obtain ⟨more, made, done⟩ := ok_of_bind after
          simp only [resolve_of_values kept resolved, operandBytes_of_address same made, bind,
            Except.bind]
          exact done

theorem encode_of_content (address : placed.address = other.address)
    (content : placed.content = other.content) (encoded : placed.encode few = .ok bytes) :
    other.encode many = .ok bytes := by
  unfold encode at encoded ⊢
  rw [← content]
  generalize placed.content = shared at encoded
  cases shared with
  | instruction mnemonic mode operand => exact instructionBytes_of_values kept address encoded
  | bytes items => exact itemBytes_of_values kept encoded
  | words values => exact wordBytes_of_values kept encoded
  | terminated text => exact encoded

theorem SameCode.encode (same : placed.SameCode other) (encoded : placed.encode few = .ok bytes) :
    other.encode many = .ok bytes := by
  obtain ⟨_, bare, rfl⟩ := (placed.agree_encode few).exists_ok encoded
  have address : placed.bare.address = other.bare.address := same.address
  have moved : other.bare.encode many = .ok bytes :=
    encode_of_content kept address same.content bare
  have agree := other.agree_encode many
  rw [moved] at agree
  generalize other.encode many = outcome at agree
  cases agree with
  | ok equal => rw [equal]

end Values

end Placed

theorem SymbolTable.Grows.valuesIn {lines : Nat → Prop} {small large : SymbolTable}
    (grows : Grows lines small large) : small.ValuesIn large :=
  fun _ _ known => grows.evaluate known

end EightBit
