import EightBit.Instruction
import EightBit.Line.Parser
import EightBit.Proofs.Token.Words

namespace EightBit

/-- An integer in an expression. A negative one is the negation of a number. -/
def Expr.literal : Int → Expr
  | .ofNat n => .number (Int64.ofNat n)
  | .negSucc n => .unary .negate (.number (Int64.ofNat (n + 1)))

theorem Expr.eval_literal (lookup : Ident → Option Int64) (value : Int) :
    (literal value).eval lookup = .ok (Int64.ofInt value) := by
  cases value with
  | ofNat n => rfl
  | negSucc n =>
      have negated : -Int64.ofNat (n + 1) = Int64.ofInt (Int.negSucc n) := by
        rw [Int.negSucc_eq, Int64.ofInt_neg, ← Int64.ofInt_eq_ofNat]
        rfl
      rw [literal, eval_unary, eval_number, ← negated]
      rfl

namespace Word

def literal : Int → List Word
  | .ofNat n => [⟨.decimal, Nat.toDigits 10 n⟩]
  | .negSucc n => [⟨.minus, ['-']⟩, ⟨.decimal, Nat.toDigits 10 (n + 1)⟩]

def hash : Word := ⟨.hash, ['#']⟩

def comma : Word := ⟨.comma, [',']⟩

def openParen : Word := ⟨.openParen, ['(']⟩

def closeParen : Word := ⟨.closeParen, [')']⟩

def name (text : String) : Word := ⟨.identifier, text.toList⟩

def operands (value : Int) : AddressingMode → List Word
  | .implied => []
  | .immediate => hash :: literal value
  | .zeroPage | .absolute | .relative => literal value
  | .absoluteX => literal value ++ [comma, name "X"]
  | .absoluteY => literal value ++ [comma, name "Y"]
  | .indirectY => openParen :: literal value ++ [closeParen, comma, name "Y"]

end Word

def OperandKind.ofMode (value : Int) : AddressingMode → List OperandKind
  | .implied => []
  | .immediate => [.immediate (.literal value)]
  | .zeroPage | .absolute | .relative => [.value (.literal value)]
  | .absoluteX => [.value (.literal value), .register .x]
  | .absoluteY => [.value (.literal value), .register .y]
  | .indirectY => [.indirect (.literal value), .register .y]

namespace Line

theorem parse_nil : parse [] = .ok ⟨none, none⟩ := by
  have nothing : Token.significantTokens [] = [] := by
    rw [Token.significantTokens, Token.tokens, Token.tokensFrom]
    rfl
  rw [parse, nothing]
  rfl

end Line

end EightBit
