/-!
Text as a list of characters, measured in the bytes of its UTF-8 form.
-/
namespace EightBit

structure Span where
  start : Nat
  length : Nat
  deriving DecidableEq

namespace Span

def stop (span : Span) : Nat := span.start + span.length

def between (start stop : Nat) : Span := ⟨start, stop - start⟩

def shift (span : Span) (distance : Nat) : Span := ⟨span.start + distance, span.length⟩

end Span

namespace Text

def byteLength : List Char → Nat
  | [] => 0
  | c :: cs => c.utf8Size + byteLength cs

def bytes (cs : List Char) : List UInt8 := cs.flatMap String.utf8EncodeChar

def dropBytes : Nat → List Char → List Char
  | _, [] => []
  | n, c :: cs => if n = 0 then c :: cs else dropBytes (n - c.utf8Size) cs

def takeBytes : Nat → List Char → List Char
  | _, [] => []
  | n, c :: cs => if n = 0 then [] else c :: takeBytes (n - c.utf8Size) cs

def slice (cs : List Char) (span : Span) : List Char :=
  takeBytes span.length (dropBytes span.start cs)

/-- Names compare in capitals; only the letters a to z have one. -/
def upperCase (cs : List Char) : String := String.ofList (cs.map Char.toUpper)

def lines : List Char → List (List Char)
  | [] => [[]]
  | '\n' :: cs => [] :: lines cs
  | c :: cs =>
    match lines cs with
    | [] => [[c]]
    | line :: more => (c :: line) :: more

theorem byteLength_append (xs ys : List Char) :
    byteLength (xs ++ ys) = byteLength xs + byteLength ys := by
  induction xs with
  | nil => simp [byteLength]
  | cons c cs ih => simp [byteLength, ih, Nat.add_assoc]

theorem byteLength_pos {cs : List Char} (some : cs ≠ []) : 0 < byteLength cs := by
  cases cs with
  | nil => contradiction
  | cons c rest => exact Nat.add_pos_left c.utf8Size_pos _

theorem length_bytes (cs : List Char) : (bytes cs).length = byteLength cs := by
  induction cs with
  | nil => rfl
  | cons c cs ih =>
    simp only [bytes, List.flatMap_cons, List.length_append, byteLength] at ih ⊢
    rw [ih, String.length_utf8EncodeChar]

theorem lines_ne_nil (cs : List Char) : lines cs ≠ [] := by
  fun_cases lines cs <;> simp

/-- Ranges of the property White_Space, first and last code point. -/
def blankRanges : List (Nat × Nat) :=
  [(0x09, 0x0D), (0x20, 0x20), (0x85, 0x85), (0xA0, 0xA0), (0x1680, 0x1680), (0x2000, 0x200A),
   (0x2028, 0x2029), (0x202F, 0x202F), (0x205F, 0x205F), (0x3000, 0x3000)]

def isBlank (c : Char) : Bool :=
  blankRanges.any fun (first, last) => decide (first ≤ c.toNat ∧ c.toNat ≤ last)

def trimStart (cs : List Char) : List Char := cs.dropWhile isBlank

def trimEnd (cs : List Char) : List Char := (cs.reverse.dropWhile isBlank).reverse

def trim (cs : List Char) : List Char := trimEnd (trimStart cs)

def escaped? : Char → Option Char
  | 'n' => some '\n'
  | 't' => some '\t'
  | 'r' => some '\r'
  | '0' => some '\x00'
  | '\\' => some '\\'
  | '"' => some '"'
  | '\'' => some '\''
  | _ => none

/-- A backslash that starts no known sequence stands for itself. -/
def unescape : List Char → List Char
  | [] => []
  | ['\\'] => ['\\']
  | '\\' :: c :: cs =>
    match escaped? c with
    | some meant => meant :: unescape cs
    | none => '\\' :: c :: unescape cs
  | c :: cs => c :: unescape cs

def parts (cs : List Char) : List (List Char) :=
  cs.foldr (fun c parts =>
    if c = '/' then [] :: parts
    else match parts with
      | [] => [[c]]
      | part :: more => (c :: part) :: more) [[]]

def fileName? (path : String) : Option (List Char) :=
  ((parts path.toList).filter fun part => part ≠ [] ∧ part ≠ ['.']).getLast?.filter
    (· ≠ ['.', '.'])

/-- What follows the last dot of a file name, unless the name starts with that dot. -/
def extension? (path : String) : Option (List Char) := do
  let reversed := (← fileName? path).reverse
  let ending := reversed.takeWhile (· ≠ '.')
  match reversed.dropWhile (· ≠ '.') with
  | [] | ['.'] => none
  | _ => some ending.reverse

end Text

end EightBit
