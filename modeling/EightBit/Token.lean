import EightBit.Text

/-!
The words of a line of assembly. Every character of the text belongs to one token: blanks and
comments are tokens too, and a character that starts no other token is one of its own.
-/
namespace EightBit

inductive TokenKind where
  | identifier
  | hexadecimal
  | decimal
  | binary
  | character (closed : Bool)
  | string (closed : Bool)
  | directive
  | hash
  | comma
  | colon
  | equals
  | openParen
  | closeParen
  | less
  | greater
  | plus
  | minus
  | comment
  | blank
  | unknown
  deriving DecidableEq

structure Token where
  kind : TokenKind
  text : List Char
  start : Nat

namespace TokenKind

def describe : TokenKind → String
  | identifier => "identifier"
  | hexadecimal | decimal | binary => "numeric literal"
  | character _ => "character literal"
  | string _ => "string literal"
  | directive => "directive"
  | hash => "`#`"
  | comma => "`,`"
  | colon => "`:`"
  | equals => "`=`"
  | openParen => "`(`"
  | closeParen => "`)`"
  | less => "`<`"
  | greater => "`>`"
  | plus => "`+`"
  | minus => "`-`"
  | comment => "comment"
  | blank => "whitespace"
  | unknown => "unknown character"

/-- Blanks and comments part the other tokens and mean nothing else. -/
def significant : TokenKind → Bool
  | comment | blank => false
  | _ => true

end TokenKind

namespace Token

def span (token : Token) : Span := ⟨token.start, Text.byteLength token.text⟩

def stop (token : Token) : Nat := token.start + Text.byteLength token.text

def isBlank (c : Char) : Bool := c = ' ' || c = '\t' || c = '\r' || c = '\n'

def startsName (c : Char) : Bool := c.isAlpha || c = '_'

def continuesName (c : Char) : Bool := c.isAlphanum || c = '_'

def isHexDigit (c : Char) : Bool :=
  c.isDigit || ('a' ≤ c && c ≤ 'f') || ('A' ≤ c && c ≤ 'F')

def isBinaryDigit (c : Char) : Bool := c = '0' || c = '1'

/-- How many characters a quoted literal takes after its opening quote, and whether the last of
them is the closing quote. A backslash takes the next character with it; the end of the line ends
the literal, open. -/
def quoted (quote : Char) : List Char → Bool × Nat
  | [] => (false, 0)
  | ['\\'] => (false, 1)
  | '\\' :: _ :: cs => let (closed, n) := quoted quote cs; (closed, n + 2)
  | c :: cs =>
    if c = quote then (true, 1)
    else if c = '\n' then (false, 1)
    else let (closed, n) := quoted quote cs; (closed, n + 1)

def run (p : Char → Bool) (cs : List Char) : Nat := (cs.takeWhile p).length

/-- The kind of the token that starts with `c`, and how many of the characters after it belong
to it. -/
def scan (c : Char) (cs : List Char) : TokenKind × Nat :=
  if c = ';' then (.comment, run (· != '\n') cs)
  else if isBlank c then (.blank, run isBlank cs)
  else if c = '$' then (.hexadecimal, run isHexDigit cs)
  else if c = '%' then (.binary, run isBinaryDigit cs)
  else if c.isDigit then (.decimal, run Char.isDigit cs)
  else if startsName c then (.identifier, run continuesName cs)
  else if c = '.' then (.directive, run continuesName cs)
  else if c = '"' then let (closed, n) := quoted '"' cs; (.string closed, n)
  else if c = '\'' then let (closed, n) := quoted '\'' cs; (.character closed, n)
  else match c with
    | '#' => (.hash, 0)
    | ',' => (.comma, 0)
    | ':' => (.colon, 0)
    | '=' => (.equals, 0)
    | '(' => (.openParen, 0)
    | ')' => (.closeParen, 0)
    | '<' => (.less, 0)
    | '>' => (.greater, 0)
    | '+' => (.plus, 0)
    | '-' => (.minus, 0)
    | _ => (.unknown, 0)

def tokensFrom (start : Nat) : List Char → List Token
  | [] => []
  | c :: cs =>
    let (kind, n) := scan c cs
    let text := c :: cs.take n
    ⟨kind, text, start⟩ :: tokensFrom (start + Text.byteLength text) (cs.drop n)
termination_by cs => cs.length
decreasing_by rw [List.length_drop, List.length_cons]; omega

def tokens (cs : List Char) : List Token := tokensFrom 0 cs

def significantTokens (cs : List Char) : List Token := (tokens cs).filter (·.kind.significant)

end Token

end EightBit
