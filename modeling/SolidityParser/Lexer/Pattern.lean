import SolidityParser.Lexer.Delimiter
import SolidityParser.Literal.Kind
import SolidityParser.Token.Kind

/-!
# Lexical patterns

The patterns from which a source text is cut. Each has a longest match at the front of a text, and
of all patterns the one with the longest match is chosen. Comments and strings are matched up to
their opening delimiter only; `Delimiter` says where they end.
-/

namespace SolidityParser

/-- A pattern at the front of a text. -/
inductive Pattern
  /-- Blank text between tokens. -/
  | blank
  /-- The opening of a line comment. -/
  | lineComment
  /-- The opening of a block comment. -/
  | blockComment
  /-- The opening of a string of a kind, up to and including its quote. -/
  | quote (kind : StringKind) (mark : Char)
  /-- A decimal number. -/
  | number
  /-- A hexadecimal number. -/
  | hexNumber
  /-- An identifier or keyword. -/
  | word
  /-- A symbol. -/
  | symbol (kind : Kind)
deriving DecidableEq, Inhabited

namespace Pattern

/-! ## Classes of characters -/

/-- Blank characters: space, tab, line feed, carriage return and form feed. -/
def isBlank (c : Char) : Bool := c matches ' ' | '\t' | '\n' | '\r' | '\x0c'

/-- Characters that may follow the first digit of a decimal number. -/
def isDigitTail (c : Char) : Bool := c.isDigit || c == '_'

/-- Hexadecimal digits, in either case. -/
def isHexDigit (c : Char) : Bool :=
  c.isDigit || ('a' ≤ c && c ≤ 'f') || ('A' ≤ c && c ≤ 'F')

/-- Characters that may follow the first digit of a hexadecimal number. -/
def isHexTail (c : Char) : Bool := isHexDigit c || c == '_'

/-- Characters that may begin a word. -/
def isWordStart (c : Char) : Bool := c.isAlpha || c == '$' || c == '_'

/-- Characters that may follow the first of a word. -/
def isWordTail (c : Char) : Bool := isWordStart c || c.isDigit

/-! ## Longest matches -/

/-- Length of the longest run at the front that one character of `first` begins and characters of
`tail` continue; zero if there is none. -/
def runLength (first tail : Char → Bool) : List Char → Nat
  | [] => 0
  | c :: cs => if first c then (cs.takeWhile tail).length + 1 else 0

/-- Length of the run of digits at the front. -/
def digits : List Char → Nat := runLength Char.isDigit isDigitTail

/-- Length of the fraction at the front: a point with a run of digits. -/
def fraction : List Char → Nat
  | '.' :: cs => if digits cs = 0 then 0 else digits cs + 1
  | _ => 0

/-- Length of the exponent at the front: its letter, a sign or none, and a run of digits. -/
def exponent : List Char → Nat
  | c :: cs =>
    if c == 'e' || c == 'E' then
      let sign := match cs with
        | '+' :: _ | '-' :: _ => 1
        | _ => 0
      let run := digits (cs.drop sign)
      if run = 0 then 0 else run + sign + 1
    else 0
  | [] => 0

/-- Length of the decimal number at the front. Its fraction may be missing, or else its whole
part. -/
def decimal (text : List Char) : Nat :=
  let whole := digits text
  let mantissa := whole + fraction (text.drop whole)
  if mantissa = 0 then 0 else mantissa + exponent (text.drop mantissa)

/-- Length of the hexadecimal number at the front. -/
def hexadecimal : List Char → Nat
  | '0' :: x :: cs =>
    if x == 'x' || x == 'X' then
      let run := runLength isHexDigit isHexTail cs
      if run = 0 then 0 else run + 2
    else 0
  | _ => 0

/-- Length of a fixed text, if it stands at the front. -/
def fixed (expected text : List Char) : Nat :=
  if expected.isPrefixOf text then expected.length else 0

/-- Length of the longest match of a pattern at the front of a text; zero if it does not match. -/
def matchLength (pattern : Pattern) (text : List Char) : Nat :=
  match pattern with
  | blank => runLength isBlank isBlank text
  | lineComment => fixed ['/', '/'] text
  | blockComment => fixed ['/', '*'] text
  | quote kind mark => fixed (kind.marker ++ [mark]) text
  | number => decimal text
  | hexNumber => hexadecimal text
  | word => runLength isWordStart isWordTail text
  | symbol kind => fixed kind.text.toList text

/-- Every pattern. -/
def all : List Pattern :=
  [blank, lineComment, blockComment, quote .plain '\x22', quote .plain '\x27', quote .hex '\x22',
    quote .hex '\x27', quote .unicode '\x22', quote .unicode '\x27', number, hexNumber, word] ++
  Kind.symbols.map symbol

/-- The longer of two matches, the first where they are of one length. -/
def longer (best next : Pattern × Nat) : Pattern × Nat := if best.2 < next.2 then next else best

/-- The pattern with the longest match at the front of a text, with its length; none if no pattern
matches. -/
def longest? (text : List Char) : Option (Pattern × Nat) :=
  let best := (all.map fun pattern => (pattern, pattern.matchLength text)).foldl longer (blank, 0)
  if best.2 = 0 then none else some best

end Pattern

end SolidityParser
