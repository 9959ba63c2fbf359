import SolidityParser.Lexer.Pattern
import SolidityParser.Literal.Number

/-!
# String literals

A string token is a marker, a quote, a body and a quote. The body of a hexadecimal string is its
digits; in any other, a backslash changes the meaning of what follows it. `Quoted.unescape` reads a
body character by character, so it always ends and never looks back.
-/

namespace SolidityParser.Quoted

/-! ## Escapes -/

/-- What the characters read so far leave open. -/
inductive Pending
  /-- Nothing. -/
  | nothing
  /-- A backslash. -/
  | escape
  /-- An escape by number, with `left + 1` digits to come. -/
  | digits (left value : Nat)
  /-- A line continued over a carriage return, which a line feed may still belong to. -/
  | continued
deriving DecidableEq

/-- The character with this number, if there is one. -/
def characterOf (number : Nat) : List Char :=
  if number.isValidChar then [Char.ofNat number] else []

/-- What a character yields where nothing is open. -/
def plain (c : Char) : List Char × Pending :=
  if c = '\\' then ([], .escape) else ([c], .nothing)

/-- What one character of a body yields, and what it leaves open. An unfinished number is dropped
with the backslash that began it. -/
def step : Pending → Char → List Char × Pending
  | .escape, c =>
    match c with
    | 'n' => (['\n'], .nothing)
    | 'r' => (['\r'], .nothing)
    | 't' => (['\t'], .nothing)
    | 'b' => (['\x08'], .nothing)
    | 'f' => (['\x0c'], .nothing)
    | 'v' => (['\x0b'], .nothing)
    | '0' => (['\x00'], .nothing)
    | 'x' => ([], .digits 1 0)
    | 'u' => ([], .digits 3 0)
    | '\r' => ([], .continued)
    | '\n' => ([], .nothing)
    | c => ([c], .nothing)
  | .digits left value, c =>
    if Pattern.isHexDigit c then
      let value := value * 16 + NumberValue.digitValue c
      match left with
      | 0 => (characterOf value, .nothing)
      | left + 1 => ([], .digits left value)
    else plain c
  | .continued, c => if c = '\n' then ([], .nothing) else plain c
  | .nothing, c => plain c

/-- What a body yields after what `pending` tells of the text before it. -/
def unescapeFrom : Pending → List Char → List Char
  | _, [] => []
  | pending, c :: cs => (step pending c).1 ++ unescapeFrom (step pending c).2 cs

/-- The text that a body stands for. An escape without a meaning of its own gives the character
after the backslash; a backslash before a line end continues the line. -/
def unescape (body : List Char) : List Char := unescapeFrom .nothing body

/-! ## Tokens -/

/-- The kind of a string token and its text from the opening quote on. -/
def splitMarker (text : List Char) : StringKind × List Char :=
  if StringKind.hex.marker.isPrefixOf text then (.hex, text.drop StringKind.hex.marker.length)
  else if StringKind.unicode.marker.isPrefixOf text then
    (.unicode, text.drop StringKind.unicode.marker.length)
  else (.plain, text)

/-- The body between the quotes. -/
def body (quoted : List Char) : List Char := (quoted.drop 1).dropLast

/-- The text that the body of a string of a kind stands for. -/
def decode (kind : StringKind) (body : List Char) : List Char :=
  match kind with
  | .hex => body.filter (· != '_')
  | .plain | .unicode => unescape body

/-- The kind and the text of a string token. -/
def ofToken (text : List Char) : StringKind × List Char :=
  let (kind, quoted) := splitMarker text
  (kind, decode kind (body quoted))

/-- The kind of a string token. -/
def kindOf (token : String) : StringKind := (ofToken token.toList).1

/-- The text of a string token. -/
def valueOf (token : String) : String := String.ofList (ofToken token.toList).2

end SolidityParser.Quoted
