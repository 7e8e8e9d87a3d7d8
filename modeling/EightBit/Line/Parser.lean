import EightBit.Line
import EightBit.Text.Number

namespace EightBit

/-- What a reader made of some tokens: a value, the byte after the last of them, and the tokens
it left. -/
structure Reading (α : Type) where
  value : α
  stop : Nat
  rest : List Token

namespace Token

def ident (token : Token) : Ident := ⟨Text.upperCase token.text, token.span⟩

def meaning (token : Token) : List Char := Text.unescape token.text.tail.dropLast

def unary? (token : Token) : Option UnaryOp :=
  match token.kind with
  | .less => some .low
  | .greater => some .high
  | .minus => some .negate
  | _ => none

def binary? (token : Token) : Option BinaryOp :=
  match token.kind with
  | .plus => some .add
  | .minus => some .subtract
  | _ => none

def numberLimit : Nat := 0x8000000000000000

def number (token : Token) (base : Nat) (digits : List Char) : Except LineError Expr :=
  if digits.isEmpty then .error ⟨.missingDigits, token.span⟩
  else match (Text.readDigits base 0 digits).filter (· < numberLimit) with
    | some n => .ok (.number (Int64.ofNat n))
    | none => .error ⟨.numberTooLarge (String.ofList token.text), token.span⟩

def leaf (token : Token) : Except LineError Expr :=
  match token.kind with
  | .identifier => .ok (.symbol token.ident)
  | .hexadecimal => token.number 16 token.text.tail
  | .binary => token.number 2 token.text.tail
  | .decimal => token.number 10 token.text
  | .character _ =>
    match token.meaning with
    | [c] => .ok (.number (Int64.ofNat c.toNat))
    | _ => .error ⟨.characterCount, token.span⟩
  | .string _ => .error ⟨.misplacedString, token.span⟩
  | kind => .error ⟨.expectedExpression (some kind), token.span⟩

def check (token : Token) : Except LineError Unit :=
  match token.kind with
  | .unknown => .error ⟨.unexpectedCharacter (String.ofList token.text), token.span⟩
  | .string false | .character false => .error ⟨.unterminatedLiteral, token.span⟩
  | _ => .ok ()

end Token

namespace Line

def readTerm (eol : Nat) : List Token → Except LineError (Reading Expr)
  | [] => .error ⟨.expectedExpression none, ⟨eol, 0⟩⟩
  | token :: rest =>
    match token.unary? with
    | some op => (readTerm eol rest).map fun inner => ⟨.unary op inner.value, inner.stop, inner.rest⟩
    | none => token.leaf.map fun expr => ⟨expr, token.stop, rest⟩

theorem readTerm_shorter {eol : Nat} {tokens : List Token} {reading : Reading Expr}
    (read : readTerm eol tokens = .ok reading) : reading.rest.length < tokens.length := by
  induction tokens generalizing reading with
  | nil => cases read
  | cons token rest ih =>
    rw [readTerm] at read
    split at read
    · cases inner : readTerm eol rest with
      | error => simp [inner, Except.map] at read
      | ok found =>
        simp only [inner, Except.map, Except.ok.injEq] at read
        have := ih inner
        simp only [← read, List.length_cons]
        omega
    · cases value : token.leaf with
      | error => simp [value, Except.map] at read
      | ok expr =>
        simp only [value, Except.map, Except.ok.injEq] at read
        simp [← read]

/-- Reads on after an expression as long as operators of two operands follow; they bind from the
left. -/
def readOperators (eol : Nat) (left : Reading Expr) : Except LineError (Reading Expr) :=
  match _after : left.rest with
  | [] => .ok left
  | next :: more =>
    match next.binary? with
    | none => .ok left
    | some op =>
      match _found : readTerm eol more with
      | .error error => .error error
      | .ok right =>
        readOperators eol ⟨.binary op left.value right.value, right.stop, right.rest⟩
termination_by left.rest.length
decreasing_by
  have := readTerm_shorter _found
  simp only [_after, List.length_cons]
  omega

theorem readOperators_rest_le {eol : Nat} {left reading : Reading Expr}
    (read : readOperators eol left = .ok reading) : reading.rest.length ≤ left.rest.length := by
  fun_induction readOperators eol left with
  | case1 | case2 => cases read; exact Nat.le_refl _
  | case3 => cases read
  | case4 left next more rest op _ right found ih =>
    have later := ih read
    have shorter := readTerm_shorter found
    simp only [rest, List.length_cons] at later ⊢
    omega

def readExpression (eol : Nat) (tokens : List Token) : Except LineError (Reading Expr) :=
  (readTerm eol tokens).bind (readOperators eol)

theorem readExpression_shorter {eol : Nat} {tokens : List Token} {reading : Reading Expr}
    (read : readExpression eol tokens = .ok reading) : reading.rest.length < tokens.length := by
  cases first : readTerm eol tokens with
  | error => simp [readExpression, first, Except.bind] at read
  | ok left =>
    simp only [readExpression, first, Except.bind] at read
    exact Nat.lt_of_le_of_lt (readOperators_rest_le read) (readTerm_shorter first)

/-- An index register is an X or a Y that is not the first operand and stands alone between
commas; anywhere else these are names like any other. -/
def indexRegister? (first : Bool) (token : Token) (rest : List Token) : Option IndexRegister :=
  if first ∨ token.kind ≠ .identifier ∨ rest.head?.any (·.kind ≠ .comma) then none
  else if token.ident.name = "X" then some .x
  else if token.ident.name = "Y" then some .y
  else none

def readOperandKind (eol : Nat) (first : Bool) (token : Token) (rest : List Token) :
    Except LineError (Reading OperandKind) :=
  match token.kind with
  | .hash => do
    let inner ← readExpression eol rest
    pure ⟨.immediate inner.value, inner.stop, inner.rest⟩
  | .openParen => do
    let inner ← readExpression eol rest
    match inner.rest with
    | [] => .error ⟨.expected .closeParen none, ⟨eol, 0⟩⟩
    | next :: more =>
      if next.kind = .closeParen then pure ⟨.indirect inner.value, next.stop, more⟩
      else .error ⟨.expected .closeParen (some next.kind), next.span⟩
  | .string _ => pure ⟨.string token.meaning, token.stop, rest⟩
  | _ =>
    match indexRegister? first token rest with
    | some register => pure ⟨.register register, token.stop, rest⟩
    | none => do
      let inner ← readExpression eol (token :: rest)
      pure ⟨.value inner.value, inner.stop, inner.rest⟩

def readOperand (eol : Nat) (first : Bool) : List Token → Except LineError (Reading Operand)
  | [] => .error ⟨.expectedOperand, ⟨eol, 0⟩⟩
  | token :: rest => do
    let kind ← readOperandKind eol first token rest
    pure ⟨⟨kind.value, .between token.start kind.stop⟩, kind.stop, kind.rest⟩

theorem readOperandKind_rest_le {eol : Nat} {first : Bool} {token : Token} {rest : List Token}
    {reading : Reading OperandKind} (read : readOperandKind eol first token rest = .ok reading) :
    reading.rest.length ≤ rest.length := by
  unfold readOperandKind at read
  split at read
  · cases inner : readExpression eol rest with
    | error => simp [inner, bind, Except.bind] at read
    | ok found =>
      have := readExpression_shorter inner
      simp only [inner, bind, Except.bind, pure, Except.pure, Except.ok.injEq] at read
      simp only [← read]
      omega
  · cases inner : readExpression eol rest with
    | error => simp [inner, bind, Except.bind] at read
    | ok found =>
      have shorter := readExpression_shorter inner
      simp only [inner, bind, Except.bind, pure, Except.pure] at read
      split at read
      · cases read
      · rename_i next more left
        split at read
        · simp only [Except.ok.injEq] at read
          simp only [left, List.length_cons] at shorter
          simp only [← read]
          omega
        · cases read
  · simp only [pure, Except.pure, Except.ok.injEq] at read
    simp [← read]
  · split at read
    · simp only [pure, Except.pure, Except.ok.injEq] at read
      simp [← read]
    · cases inner : readExpression eol (token :: rest) with
      | error => simp [inner, bind, Except.bind] at read
      | ok found =>
        have := readExpression_shorter inner
        simp only [inner, bind, Except.bind, pure, Except.pure, Except.ok.injEq] at read
        simp only [← read]
        simp only [List.length_cons] at this
        omega

theorem readOperand_shorter {eol : Nat} {first : Bool} {tokens : List Token}
    {reading : Reading Operand} (read : readOperand eol first tokens = .ok reading) :
    reading.rest.length < tokens.length := by
  cases tokens with
  | nil => cases read
  | cons token rest =>
    cases kind : readOperandKind eol first token rest with
    | error => simp [readOperand, kind, bind, Except.bind] at read
    | ok found =>
      have := readOperandKind_rest_le kind
      simp only [readOperand, kind, bind, Except.bind, pure, Except.pure, Except.ok.injEq] at read
      simp only [← read, List.length_cons]
      omega

def readOperandList (eol : Nat) (first : Bool) (tokens : List Token) :
    Except LineError (List Operand × List Token) :=
  match _found : readOperand eol first tokens with
  | .error error => .error error
  | .ok reading =>
    match _after : reading.rest with
    | [] => .ok ([reading.value], [])
    | next :: more =>
      if next.kind = .comma then
        (readOperandList eol false more).map fun (operands, rest) => (reading.value :: operands, rest)
      else .ok ([reading.value], next :: more)
termination_by tokens.length
decreasing_by
  have := readOperand_shorter _found
  simp only [_after, List.length_cons] at this
  omega

def readOperands (eol : Nat) : List Token → Except LineError (List Operand × List Token)
  | [] => .ok ([], [])
  | tokens => readOperandList eol true tokens

/-- A name directly before a colon, at the start of the line, is a label. -/
def splitLabel : List Token → Option Ident × List Token
  | first :: second :: rest =>
    if first.kind = .identifier ∧ second.kind = .colon then (some first.ident, rest)
    else (none, first :: second :: rest)
  | tokens => (none, tokens)

def startsConstant (token : Token) (rest : List Token) : Bool :=
  token.kind = .identifier && rest.head?.any (·.kind = .equals)

def readStatement (eol : Nat) (label : Option Ident) (token : Token) (rest : List Token) :
    Except LineError (Statement × List Token) :=
  if startsConstant token rest then
    match label with
    | some label => .error ⟨.labelledConstant, label.span⟩
    | none => (readExpression eol rest.tail).map fun value =>
      (.constant token.ident value.value, value.rest)
  else match token.kind with
    | .identifier => (readOperands eol rest).map fun (operands, rest) =>
      (.instruction token.ident operands, rest)
    | .directive => (readOperands eol rest).map fun (operands, rest) =>
      (.directive token.ident operands, rest)
    | kind => .error ⟨.expectedStatement kind, token.span⟩

def ofTokens (eol : Nat) (tokens : List Token) : Except LineError Line := do
  tokens.forM Token.check
  let (label, rest) := splitLabel tokens
  match rest with
  | [] => pure ⟨label, none⟩
  | token :: rest =>
    let (statement, left) ← readStatement eol label token rest
    match left with
    | [] => pure ⟨label, some statement⟩
    | extra :: _ => .error ⟨.trailing extra.kind, extra.span⟩

def parse (text : List Char) : Except LineError Line :=
  let tokens := Token.significantTokens text
  ofTokens (tokens.getLast?.elim 0 Token.stop) tokens

end Line

end EightBit
