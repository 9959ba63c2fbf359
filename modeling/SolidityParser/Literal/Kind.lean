/-!
# Kinds of string literal

A string literal is plain, hexadecimal or Unicode, as the word before its opening quote tells.
-/

namespace SolidityParser

/-- The kind of a string literal. -/
inductive StringKind
  | plain
  | hex
  | unicode
deriving DecidableEq, Inhabited

namespace StringKind

/-- The name of a kind. -/
def text : StringKind → String
  | plain => "plain"
  | hex => "hex"
  | unicode => "unicode"

/-- What stands before the opening quote. -/
def marker : StringKind → List Char
  | plain => []
  | hex => ['h', 'e', 'x']
  | unicode => ['u', 'n', 'i', 'c', 'o', 'd', 'e']

end StringKind

end SolidityParser
