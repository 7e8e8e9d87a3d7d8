import EightBit.Proofs.Assembly.Encoding
import EightBit.Proofs.Expr.Whole

/-!
Words as bytes. A statement of words is one of twice as many bytes: of each value its low byte, then
its high one. Nothing that the second pass gives tells them apart.
-/
namespace EightBit

/-- The bytes of words, as items of their own: the low one of each value, then the high one. -/
def halves (values : List Expr) : List DataItem :=
  values.flatMap fun expr => [.value (.unary .low expr), .value (.unary .high expr)]

theorem halves_cons (expr : Expr) (rest : List Expr) :
    halves (expr :: rest) =
      .value (.unary .low expr) :: .value (.unary .high expr) :: halves rest := rfl

theorem itemsExtent_halves (values : List Expr) :
    itemsExtent (halves values) = 2 * values.length := by
  induction values with
  | nil => rfl
  | cons expr rest ih =>
      rw [halves_cons, itemsExtent, itemsExtent, ih, List.length_cons]
      simp only [DataItem.extent]
      omega

theorem Content.size_halves (values : List Expr) :
    (bytes (halves values)).size = (words values).size := by
  apply UInt32.toNat_inj.mp
  rw [toNat_size, toNat_size, extent, extent, itemsExtent_halves]

namespace Placed

variable {symbols : SymbolTable}

theorem lowByte_low (value : Int64) : lowByte (UnaryOp.low.apply value) = lowByte value := by
  have low := toNat_lowByte_eq value
  have again := toNat_lowByte_eq (UnaryOp.low.apply value)
  rw [UnaryOp.toInt_apply_low] at again
  apply UInt8.toNat_inj.mp
  omega

/-- A shift that keeps the sign and one that does not have the same byte at the end. -/
theorem lowByte_high (value : Int64) : lowByte (UnaryOp.high.apply value) = highByte value := by
  have high := toNat_highByte_eq value
  have shifted := toNat_lowByte_eq (UnaryOp.high.apply value)
  rw [UnaryOp.toInt_apply_high] at shifted
  apply UInt8.toNat_inj.mp
  omega

theorem resolve_unary (placed : Placed) (op : UnaryOp) (expr : Expr) :
    placed.resolve symbols (.unary op expr) = (placed.resolve symbols expr).map op.apply := by
  rw [resolve, resolve, Expr.eval_unary]
  cases expr.eval fun ident => symbols.value? ident.name <;> rfl

theorem itemBytes_halves (placed : Placed) (values : List Expr) :
    placed.itemBytes symbols (halves values) = placed.wordBytes symbols values := by
  induction values with
  | nil => rfl
  | cons expr rest ih =>
      rw [halves_cons, itemBytes, itemBytes, wordBytes, resolve_unary, resolve_unary, ih]
      cases placed.resolve symbols expr with
      | error fault => rfl
      | ok value =>
          simp only [Except.map, bind, Except.bind, lowByte_low, lowByte_high]
          cases placed.wordBytes symbols rest <;> rfl

theorem wordBytes_withContent (placed : Placed) (content : Content) (values : List Expr) :
    { placed with content }.wordBytes symbols values = placed.wordBytes symbols values := by
  induction values with
  | nil => rfl
  | cons expr rest ih =>
      rw [wordBytes, wordBytes, ih]
      rfl

theorem encode_halves (placed : Placed) (values : List Expr) :
    { placed with content := .bytes (halves values) }.encode symbols =
      { placed with content := .words values }.encode symbols := by
  rw [encode, encode]
  dsimp only
  rw [itemBytes_halves, wordBytes_withContent, ← wordBytes_withContent placed (.words values)]

end Placed

namespace Program

theorem emit_replace {symbols : SymbolTable} {one other : Placed}
    (code : one.encode symbols = other.encode symbols) (line : one.line = other.line)
    (address : one.address = other.address) (image : Image) (front back : List Placed) :
    emit symbols image (front ++ one :: back) = emit symbols image (front ++ other :: back) := by
  induction front generalizing image with
  | nil => rw [List.nil_append, List.nil_append, emit, emit, code, line, address]
  | cons first rest ih => simp only [List.cons_append, emit, ih]

/-- Words can be replaced by their bytes anywhere in a layout: the statement keeps its size, and the
second pass gives the same program, or the same list of faults. -/
theorem words_are_low_and_high_bytes (symbols : SymbolTable) (front back : List Placed)
    (placed : Placed) (values : List Expr) :
    let words : Placed := { placed with content := .words values }
    let bytes : Placed := { placed with content := .bytes (halves values) }
    bytes.size = words.size ∧
      ofLayout ⟨front ++ bytes :: back, symbols⟩ = ofLayout ⟨front ++ words :: back, symbols⟩ ∧
      bytes.overflows symbols = words.overflows symbols := by
  intro words bytes
  have size : bytes.size = words.size := congrArg UInt32.toNat (Content.size_halves values)
  have code : bytes.encode symbols = words.encode symbols := Placed.encode_halves placed values
  have same (image : Image) :
      emit symbols image (front ++ bytes :: back) = emit symbols image (front ++ words :: back) :=
    emit_replace code rfl rfl image front back
  have count : (front ++ bytes :: back).length = (front ++ words :: back).length := by
    rw [List.length_append, List.length_append, List.length_cons, List.length_cons]
  refine ⟨size, ?_, rfl⟩
  rw [ofLayout, ofLayout]
  dsimp only
  rw [same, count]

end Program

end EightBit
