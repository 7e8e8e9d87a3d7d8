import EightBit.Text

namespace EightBit

structure Ident where
  name : String
  span : Span
  deriving DecidableEq

inductive UnaryOp where
  | low
  | high
  | negate
  deriving DecidableEq

inductive BinaryOp where
  | add
  | subtract
  deriving DecidableEq

inductive Expr where
  | number (value : Int64)
  | symbol (ident : Ident)
  | unary (op : UnaryOp) (operand : Expr)
  | binary (op : BinaryOp) (left right : Expr)
  deriving DecidableEq

def UnaryOp.apply : UnaryOp → Int64 → Int64
  | low, value => value &&& 0xFF
  | high, value => (value >>> 8) &&& 0xFF
  | negate, value => -value

def BinaryOp.apply : BinaryOp → Int64 → Int64 → Int64
  | add, left, right => left + right
  | subtract, left, right => left - right

namespace Expr

def symbols : Expr → List Ident
  | number _ => []
  | symbol ident => [ident]
  | unary _ operand => operand.symbols
  | binary _ left right => left.symbols ++ right.symbols

/-- The value under a `lookup` that may have effects. Symbols are looked up in the order they are
written, until one has no value. -/
def evalM {m : Type → Type} [Monad m] (lookup : Ident → m (Option Int64)) :
    Expr → ExceptT Ident m Int64
  | number value => pure value
  | symbol ident => do
    match ← ExceptT.lift (lookup ident) with
    | some value => pure value
    | none => throw ident
  | unary op operand => do
    let value ← evalM lookup operand
    pure (op.apply value)
  | binary op left right => do
    let first ← evalM lookup left
    let second ← evalM lookup right
    pure (op.apply first second)

def eval (lookup : Ident → Option Int64) (expr : Expr) : Except Ident Int64 :=
  Id.run (expr.evalM (m := Id) fun ident => pure (lookup ident)).run

def lookedUp (lookup : Ident → Option Int64) (expr : Expr) : List Ident :=
  let record (ident : Ident) : StateM (List Ident) (Option Int64) := do
    modify (· ++ [ident])
    pure (lookup ident)
  ((expr.evalM record).run.run []).2

variable (lookup : Ident → Option Int64)

theorem eval_number (value : Int64) : (number value).eval lookup = .ok value := rfl

theorem eval_symbol (ident : Ident) :
    (symbol ident).eval lookup = (lookup ident).elim (.error ident) .ok := by
  simp only [eval, evalM, ExceptT.lift, ExceptT.mk, ExceptT.run, bind, ExceptT.bind, pure]
  cases lookup ident <;> rfl

theorem eval_unary (op : UnaryOp) (operand : Expr) :
    (unary op operand).eval lookup = (operand.eval lookup).map op.apply := by
  simp only [eval, evalM, ExceptT.run, bind, ExceptT.bind, ExceptT.mk, Id.run]
  cases operand.evalM (m := Id) fun ident => pure (lookup ident) <;> rfl

theorem eval_binary (op : BinaryOp) (left right : Expr) :
    (binary op left right).eval lookup =
      (left.eval lookup).bind fun first => (right.eval lookup).map (op.apply first) := by
  simp only [eval, evalM, ExceptT.run, bind, ExceptT.bind, ExceptT.mk, Id.run]
  cases left.evalM (m := Id) fun ident => pure (lookup ident) with
  | error ident => rfl
  | ok first =>
    simp only [ExceptT.bindCont, Except.bind]
    cases right.evalM (m := Id) fun ident => pure (lookup ident) <;> rfl

end Expr

end EightBit
