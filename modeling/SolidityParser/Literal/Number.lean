import SolidityParser.Literal.Double

/-!
# Number literals

`NumberValue.ofLiteral` is the value of a decimal or hexadecimal literal. Underscores separate
digits and mean nothing. A value that is a natural number below `2 ^ 128` is kept exactly, also
where it is written with a fraction or an exponent; any other is rounded to a double.
-/

namespace SolidityParser

/-- The value of a number literal. -/
inductive NumberValue
  | integer (value : Nat)
  | double (value : Double)
deriving DecidableEq, Inhabited

/-- The units that may follow a number. -/
def numberUnits : List String :=
  ["wei", "gwei", "szabo", "finney", "ether", "seconds", "minutes", "hours", "days", "weeks",
    "years"]

/-- Is the word a unit that may follow a number? -/
def isNumberUnit (word : String) : Bool := numberUnits.contains word

namespace NumberValue

/-- Exact values are below this bound. -/
def integerBound : Nat := Nat.pow 2 128

/-! ## Digits -/

/-- The value of a digit, in either case; zero for any other character. -/
def digitValue (c : Char) : Nat :=
  if c.isDigit then c.toNat - '0'.toNat
  else if 'a' ≤ c ∧ c ≤ 'f' then c.toNat - 'a'.toNat + 10
  else if 'A' ≤ c ∧ c ≤ 'F' then c.toNat - 'A'.toNat + 10
  else 0

/-- The number that digits denote in a base. -/
def ofDigits (base : Nat) (digits : List Char) : Nat :=
  digits.foldl (fun value c => value * base + digitValue c) 0

/-! ## Hexadecimal literals -/

/-- The double that hexadecimal digits give when each is taken in turn, with a rounding every
time. -/
def doubleOfHex (digits : List Char) : Double :=
  digits.foldl (fun value c => value.timesPlus 16 (digitValue c)) Double.zero

/-- The value of a hexadecimal literal, given the digits after its marker. -/
def ofHex (digits : List Char) : NumberValue :=
  let value := ofDigits 16 digits
  if value < integerBound then integer value else double (doubleOfHex digits)

/-! ## Decimal literals -/

/-- A decimal literal in parts: it denotes `digits * 10 ^ (exponent - places)`. -/
structure Parts where
  /-- The digits before and after the point. -/
  digits : List Char
  /-- How many of them stand after the point. -/
  places : Nat
  /-- The exponent written. -/
  exponent : Int

/-- The integer that a sign, or none, and digits denote. -/
def signedOfDigits : List Char → Int
  | '-' :: digits => -(ofDigits 10 digits : Int)
  | '+' :: digits => ofDigits 10 digits
  | digits => ofDigits 10 digits

/-- The parts of a decimal literal without underscores. -/
def Parts.ofText (text : List Char) : Parts :=
  let isMark (c : Char) : Bool := c == 'e' || c == 'E'
  let mantissa := text.takeWhile (!isMark ·)
  let whole := mantissa.takeWhile (· != '.')
  let places := (mantissa.dropWhile (· != '.')).drop 1
  ⟨whole ++ places, places.length, signedOfDigits ((text.dropWhile (!isMark ·)).drop 1)⟩

/-- Is the integer one of sixty-four bits? Exponents beyond are not followed exactly. -/
def isNarrow (n : Int) : Bool :=
  let bound : Int := Nat.pow 2 63
  decide (-bound ≤ n ∧ n < bound)

/-- Drops zeros from the front of the reversed digits, raising the scale for each, while the scale
is negative. -/
def dropZeros : List Char → Int → List Char × Int
  | '0' :: digits, scale =>
    if scale < 0 then dropZeros digits (scale + 1) else ('0' :: digits, scale)
  | digits, scale => (digits, scale)

/-- The number `digits * 10 ^ scale`, if it is below the bound; the digits come reversed. No power
of ten beyond the bound is formed. -/
def exactly? (reversed : List Char) (scale : Nat) : Option Nat :=
  let base := ofDigits 10 reversed.reverse
  if integerBound ≤ base then none
  else if base = 0 then some 0
  else if 38 < scale then none
  else if base * Nat.pow 10 scale < integerBound then some (base * Nat.pow 10 scale)
  else none

/-- The exact value of a decimal literal, if it has one. -/
def Parts.exact? (parts : Parts) : Option Nat :=
  let scale := parts.exponent - parts.places
  if isNarrow parts.exponent ∧ isNarrow scale then
    let (reversed, scale) := dropZeros parts.digits.reverse scale
    if 0 ≤ scale then exactly? reversed scale.toNat else none
  else none

/-- The double nearest to a decimal literal. -/
def Parts.nearest (parts : Parts) : Double :=
  Double.ofDecimal (ofDigits 10 parts.digits) (parts.exponent - parts.places)

/-- The value of a decimal literal without underscores. -/
def ofDecimal (text : List Char) : NumberValue :=
  let parts := Parts.ofText text
  match parts.exact? with
  | some value => integer value
  | none => double parts.nearest

/-! ## Literals -/

/-- The value of a literal, given as its characters. -/
def ofText (text : List Char) : NumberValue :=
  match text.filter (· != '_') with
  | '0' :: 'x' :: digits => ofHex digits
  | '0' :: 'X' :: digits => ofHex digits
  | digits => ofDecimal digits

/-- The value of a number literal. -/
def ofLiteral (literal : String) : NumberValue := ofText literal.toList

end NumberValue

end SolidityParser
