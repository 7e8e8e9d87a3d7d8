import EightBit.Expr
import EightBit.Token

namespace EightBit

inductive IndexRegister where
  | x
  | y
  deriving DecidableEq

def IndexRegister.name : IndexRegister → String
  | x => "X"
  | y => "Y"

inductive OperandKind where
  | immediate (expr : Expr)
  | value (expr : Expr)
  | indirect (expr : Expr)
  | register (register : IndexRegister)
  | string (text : List Char)
  deriving DecidableEq

structure Operand where
  kind : OperandKind
  span : Span
  deriving DecidableEq

inductive Directive where
  | org
  | byte
  | word
  | asciiz
  deriving DecidableEq

namespace Directive

def all : List Directive := [org, byte, word, asciiz]

def name : Directive → String
  | org => ".ORG"
  | byte => ".BYTE"
  | word => ".WORD"
  | asciiz => ".ASCIIZ"

def ofName? (name : String) : Option Directive := all.find? (·.name = name)

end Directive

inductive Statement where
  | constant (name : Ident) (value : Expr)
  | directive (name : Ident) (operands : List Operand)
  | instruction (name : Ident) (operands : List Operand)
  deriving DecidableEq

structure Line where
  label : Option Ident
  statement : Option Statement
  deriving DecidableEq

def Line.isEmpty (line : Line) : Bool := line.label.isNone && line.statement.isNone

inductive LineFault where
  | unexpectedCharacter (text : String)
  | unterminatedLiteral
  | labelledConstant
  | expectedStatement (found : TokenKind)
  | trailing (found : TokenKind)
  | expected (wanted : TokenKind) (found : Option TokenKind)
  | expectedOperand
  | expectedExpression (found : Option TokenKind)
  | characterCount
  | misplacedString
  | missingDigits
  | numberTooLarge (text : String)
  deriving DecidableEq

structure LineError where
  fault : LineFault
  span : Span
  deriving DecidableEq

def LineFault.message : LineFault → String
  | unexpectedCharacter text => "unexpected character `" ++ text ++ "`"
  | unterminatedLiteral => "unterminated literal"
  | labelledConstant => "a constant definition cannot be labelled"
  | expectedStatement found =>
    "expected an instruction, directive or constant, found " ++ found.describe
  | trailing found => "unexpected " ++ found.describe ++ " at end of line"
  | expected wanted found =>
    "expected " ++ wanted.describe ++ ", found " ++ found.elim "end of line" TokenKind.describe
  | expectedOperand => "expected an operand"
  | expectedExpression none => "expected an expression"
  | expectedExpression (some found) => "expected an expression, found " ++ found.describe
  | characterCount => "character literals hold exactly one character"
  | misplacedString => "strings are only allowed as directive operands"
  | missingDigits => "expected digits after prefix"
  | numberTooLarge text => "number `" ++ text ++ "` is too large"

end EightBit
