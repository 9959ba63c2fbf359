/-!
# Where strings and comments end

Given what follows an opening delimiter, these functions say how long the body is. They read
characters and bytes alike: all marks they look for are ASCII, and no part of a longer UTF-8
character looks like one.
-/

namespace SolidityParser

/-- Units of text among which ASCII characters can be recognised. -/
class CodeUnit (α : Type) where
  /-- The unit of an ASCII character. -/
  ofAscii : Char → α

instance : CodeUnit Char := ⟨id⟩

instance : CodeUnit UInt8 := ⟨Char.toUInt8⟩

namespace Delimiter

variable {α : Type} [DecidableEq α] [CodeUnit α]

/-- Is the unit a line feed or a carriage return? -/
def isLineEnd (unit : α) : Bool :=
  unit == CodeUnit.ofAscii '\n' || unit == CodeUnit.ofAscii '\r'

/-- Is the unit one at which the search for the end of a string stops? -/
def isStop (quote unit : α) : Bool :=
  unit == quote || unit == CodeUnit.ofAscii '\\' || isLineEnd unit

/-- The end of a string within `fuel` stops, where each stop is the next
quote, backslash or line end. -/
def stringEndAtFuel? (quote : α) : Nat → List α → Option Nat
  | 0, _ => none
  | fuel + 1, rest =>
    match rest.findIdx? (isStop quote) with
    | none => none
    | some found =>
      match rest.drop found with
      | [] => none
      | unit :: after =>
        if unit = CodeUnit.ofAscii '\\' then
          match after with
          | [] => none
          | _ :: later => (stringEndAtFuel? quote fuel later).map (found + 2 + ·)
        else if isLineEnd unit then none
        else some (found + 1)

/-- Length of a string body, closing quote included. A backslash takes the next unit with it; a
line end, or the end of the text, leaves the string open. -/
def stringEnd? (quote : α) (rest : List α) : Option Nat :=
  stringEndAtFuel? quote (rest.length + 1) rest

/-- Length of the body of a line comment, which ends before the next line end. -/
def lineCommentEnd (rest : List α) : Nat := (rest.takeWhile (!isLineEnd ·)).length

/-- Length of the body of a block comment, closing delimiter included; none if it is never
closed. -/
def blockCommentEnd? : List α → Option Nat
  | star :: slash :: rest =>
    if star = CodeUnit.ofAscii '*' ∧ slash = CodeUnit.ofAscii '/' then some 2
    else (blockCommentEnd? (slash :: rest)).map (· + 1)
  | _ => none

end Delimiter

end SolidityParser
