import EightBit.Line.Parser

/-!
The reader of a line with every access in the open. It has the text of the line and, of the tokens,
only their kinds and where they stand; it goes from token to token by their numbers and takes what
they say out of the text. Each access is checked, and one that fails is a breach.
-/
namespace EightBit

structure Mark where
  kind : TokenKind
  span : Span

def Token.mark (token : Token) : Mark := ⟨token.kind, token.span⟩

namespace Mark

def token (mark : Mark) (text : List Char) : Token := ⟨mark.kind, text, mark.span.start⟩

def unary? (mark : Mark) : Option UnaryOp := (mark.token []).unary?

def binary? (mark : Mark) : Option BinaryOp := (mark.token []).binary?

end Mark

namespace Text

def cut? : Nat → List Char → Option (List Char × List Char)
  | 0, cs => some ([], cs)
  | _ + 1, [] => none
  | place + 1, c :: cs =>
    if c.utf8Size ≤ place + 1 then
      (cut? (place + 1 - c.utf8Size) cs).map fun (front, back) => (c :: front, back)
    else none

def between? (cs : List Char) (start stop : Nat) : Option (List Char) :=
  if start ≤ stop then do
    let (_, behind) ← cut? start cs
    let (part, _) ← cut? (stop - start) behind
    pure part
  else none

/-- Every backslash has a character that it takes with it. -/
def paired : List Char → Bool
  | [] => true
  | ['\\'] => false
  | '\\' :: _ :: cs => paired cs
  | _ :: cs => paired cs

end Text

namespace Line

inductive Breach where
  /-- There is no token of this number. -/
  | index
  /-- A part of the text starts or stops outside it, or within a character, or stops before it
  starts. -/
  | slice
  /-- A turn of a loop has taken no token. -/
  | stalled
  /-- The body of a literal ends in a backslash that takes nothing with it. -/
  | escape
  deriving DecidableEq

inductive Refusal where
  | fault (error : LineError)
  | breach (breach : Breach)
  deriving DecidableEq

abbrev Checked (α : Type) := Except Refusal α

structure Reader where
  text : List Char
  marks : List Mark

def Reader.of (text : List Char) (tokens : List Token) : Reader := ⟨text, tokens.map Token.mark⟩

def slice (cs : List Char) (start stop : Nat) : Checked (List Char) :=
  match Text.between? cs start stop with
  | some part => pure part
  | none => .error (.breach .slice)

def meaning (literal : List Char) : Checked (List Char) := do
  let body ← slice literal 1 (Text.byteLength literal - 1)
  if Text.paired body then pure (Text.unescape body) else .error (.breach .escape)

namespace Reader

variable (reader : Reader)

def mark (place : Nat) : Checked Mark :=
  match reader.marks[place]? with
  | some mark => pure mark
  | none => .error (.breach .index)

def last : Nat → Checked Mark
  | 0 => .error (.breach .index)
  | place + 1 => reader.mark place

def kind? (place : Nat) : Option TokenKind := (reader.marks[place]?).map Mark.kind

def word (mark : Mark) : Checked (List Char) := slice reader.text mark.span.start mark.span.stop

def endOfLine : Span := ⟨reader.marks.getLast?.elim 0 fun mark => mark.span.stop, 0⟩

def fail {α : Type} (fault : LineFault) (span : Span) : Checked α := .error (.fault ⟨fault, span⟩)

def ident (place : Nat) : Checked Ident := do
  let mark ← reader.mark place
  let text ← reader.word mark
  pure ⟨Text.upperCase text, mark.span⟩

def number (mark : Mark) (base : Nat) (text digits : List Char) : Checked Expr :=
  ((mark.token text).number base digits).mapError .fault

def leaf (mark : Mark) : Checked Expr :=
  match mark.kind with
  | .identifier => do
    let text ← reader.word mark
    pure (.symbol ⟨Text.upperCase text, mark.span⟩)
  | .hexadecimal => do
    let text ← reader.word mark
    number mark 16 text (← slice text 1 (Text.byteLength text))
  | .binary => do
    let text ← reader.word mark
    number mark 2 text (← slice text 1 (Text.byteLength text))
  | .decimal => do
    let text ← reader.word mark
    number mark 10 text text
  | .character _ => do
    match ← meaning (← reader.word mark) with
    | [c] => pure (.number (Int64.ofNat c.toNat))
    | _ => fail .characterCount mark.span
  | .string _ => do
    let _ ← reader.word mark
    fail .misplacedString mark.span
  | kind => fail (.expectedExpression (some kind)) mark.span

/-- Each reader gives what it has read and the number of the token that comes next. -/
def term (place : Nat) : Checked (Expr × Nat) :=
  match _here : reader.marks[place]? with
  | none => fail (.expectedExpression none) reader.endOfLine
  | some mark =>
    match mark.unary? with
    | some op => do
      let (inner, next) ← term (place + 1)
      pure (.unary op inner, next)
    | none => do
      let expr ← reader.leaf mark
      pure (expr, place + 1)
termination_by reader.marks.length - place
decreasing_by
  have inside := (List.getElem?_eq_some_iff.mp _here).1
  omega

def operators (left : Expr) (place : Nat) : Checked (Expr × Nat) :=
  match _here : reader.marks[place]? with
  | none => pure (left, place)
  | some mark =>
    match mark.binary? with
    | none => pure (left, place)
    | some op => do
      let (right, next) ← reader.term (place + 1)
      if _ahead : place < next then operators (.binary op left right) next
      else .error (.breach .stalled)
termination_by reader.marks.length - place
decreasing_by
  have inside := (List.getElem?_eq_some_iff.mp _here).1
  omega

def expression (place : Nat) : Checked (Expr × Nat) := do
  let (left, next) ← reader.term place
  reader.operators left next

def value (place : Nat) : Checked (OperandKind × Nat) := do
  let (expr, next) ← reader.expression place
  pure (.value expr, next)

def registerOrValue (first : Bool) (mark : Mark) (place : Nat) : Checked (OperandKind × Nat) :=
  if first ∨ mark.kind ≠ .identifier ∨ (reader.kind? (place + 1)).any (· ≠ .comma) then
    reader.value place
  else do
    let name := Text.upperCase (← reader.word mark)
    if name = "X" then pure (.register .x, place + 1)
    else if name = "Y" then pure (.register .y, place + 1)
    else reader.value place

def operandKind (first : Bool) (mark : Mark) (place : Nat) : Checked (OperandKind × Nat) :=
  match mark.kind with
  | .hash => do
    let (expr, next) ← reader.expression (place + 1)
    pure (.immediate expr, next)
  | .openParen => do
    let (expr, next) ← reader.expression (place + 1)
    match reader.marks[next]? with
    | none => fail (.expected .closeParen none) reader.endOfLine
    | some close =>
      if close.kind = .closeParen then pure (.indirect expr, next + 1)
      else fail (.expected .closeParen (some close.kind)) close.span
  | .string _ => do
    let text ← meaning (← reader.word mark)
    pure (.string text, place + 1)
  | _ => reader.registerOrValue first mark place

def operand (first : Bool) (place : Nat) : Checked (Operand × Nat) :=
  match reader.marks[place]? with
  | none => fail .expectedOperand reader.endOfLine
  | some mark => do
    let (kind, next) ← reader.operandKind first mark place
    let last ← reader.last next
    pure (⟨kind, .between mark.span.start last.span.stop⟩, next)

def operandList (first : Bool) (place : Nat) : Checked (List Operand × Nat) := do
  let (operand, next) ← reader.operand first place
  if _ahead : place < next then
    match _here : reader.marks[next]? with
    | none => pure ([operand], next)
    | some mark =>
      if mark.kind = .comma then do
        let (operands, last) ← operandList false (next + 1)
        pure (operand :: operands, last)
      else pure ([operand], next)
  else .error (.breach .stalled)
termination_by reader.marks.length - place
decreasing_by
  have inside := (List.getElem?_eq_some_iff.mp _here).1
  omega

def operands (place : Nat) : Checked (List Operand × Nat) :=
  match reader.marks[place]? with
  | none => pure ([], place)
  | some _ => reader.operandList true place

def statement (label : Option Ident) (mark : Mark) (place : Nat) : Checked (Statement × Nat) :=
  if mark.kind = .identifier ∧ reader.kind? (place + 1) = some .equals then
    match label with
    | some label => fail .labelledConstant label.span
    | none => do
      let name ← reader.ident place
      let (value, next) ← reader.expression (place + 2)
      pure (.constant name value, next)
  else match mark.kind with
    | .identifier => do
      let name ← reader.ident place
      let (operands, next) ← reader.operands (place + 1)
      pure (.instruction name operands, next)
    | .directive => do
      let name ← reader.ident place
      let (operands, next) ← reader.operands (place + 1)
      pure (.directive name operands, next)
    | kind => fail (.expectedStatement kind) mark.span

def check (mark : Mark) : Checked Unit :=
  match mark.kind with
  | .unknown => do
    let text ← reader.word mark
    fail (.unexpectedCharacter (String.ofList text)) mark.span
  | .string false | .character false => fail .unterminatedLiteral mark.span
  | _ => pure ()

def label : Checked (Option Ident × Nat) :=
  if reader.kind? 0 = some .identifier ∧ reader.kind? 1 = some .colon then do
    let name ← reader.ident 0
    pure (some name, 2)
  else pure (none, 0)

def line : Checked Line := do
  reader.marks.forM reader.check
  let (label, place) ← reader.label
  match reader.marks[place]? with
  | none => pure ⟨label, none⟩
  | some mark =>
    let (statement, next) ← reader.statement label mark place
    match reader.marks[next]? with
    | none => pure ⟨label, some statement⟩
    | some extra => fail (.trailing extra.kind) extra.span

end Reader

def parseChecked (text : List Char) : Checked Line :=
  (Reader.of text (Token.significantTokens text)).line

end Line

end EightBit
