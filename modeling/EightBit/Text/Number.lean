namespace EightBit.Text

def alignRight (width : Nat) (text : String) : String :=
  String.ofList (List.leftpad width ' ' text.toList)

def alignLeft (width : Nat) (text : String) : String :=
  String.ofList (List.rightpad width ' ' text.toList)

def digits (base width n : Nat) : String :=
  String.ofList (List.leftpad width '0' (Nat.toDigits base n))

def hex (width n : Nat) : String := digits 16 width n

def capitalHex (width n : Nat) : String := (hex width n).map Char.toUpper

def binary (width n : Nat) : String := digits 2 width n

def dollarByte (value : UInt8) : String := "$" ++ capitalHex 2 value.toNat

def dollarWord (address : Nat) : String := "$" ++ capitalHex 4 address

def zeroXWord (address : Nat) : String := "0x" ++ hex 4 address

def pattern (value : Int64) : Nat := value.toUInt64.toNat

def digitValue (c : Char) : Option Nat :=
  if '0' ≤ c ∧ c ≤ '9' then some (c.toNat - '0'.toNat)
  else if 'a' ≤ c ∧ c ≤ 'f' then some (c.toNat - 'a'.toNat + 10)
  else if 'A' ≤ c ∧ c ≤ 'F' then some (c.toNat - 'A'.toNat + 10)
  else none

def digitIn (base : Nat) (c : Char) : Option Nat := (digitValue c).filter (· < base)

/-- The value of a run of digits, continuing a number that reads `sofar`. -/
def readDigits (base : Nat) (sofar : Nat) : List Char → Option Nat
  | [] => some sofar
  | c :: cs => do
    let digit ← digitIn base c
    readDigits base (sofar * base + digit) cs

/-- A number with an optional plus sign, at least one digit and a greatest value. -/
def readNumber (base greatest : Nat) (cs : List Char) : Option Nat :=
  let body := match cs with
    | '+' :: rest => rest
    | _ => cs
  if body.isEmpty then none else (readDigits base 0 body).filter (· ≤ greatest)

end EightBit.Text
