import SolidityParser.Lexer.Pattern
import SolidityParser.Text
import SolidityParser.Tree.Form

/-!
# Versions in pragmas

The value of a pragma such as `>=0.4.22 <0.9.0` bounds versions. `VersionLiteral.scan` picks out the
versions with their comparisons and passes over all other text, character by character.
-/

namespace SolidityParser.VersionLiteral

/-- The comparisons that may stand before a version; where one begins another, the longer comes
first. -/
def comparisons : List (List Char) :=
  [['>', '='], ['<', '='], ['^'], ['~'], ['>'], ['<'], ['=']]

/-- The comparison at the front of a text; empty if there is none. -/
def comparisonAt (text : List Char) : List Char :=
  (comparisons.find? (·.isPrefixOf text)).getD []

/-- Characters of a version. -/
def isVersionChar (c : Char) : Bool := c.isDigit || c matches '.' | 'x' | 'X' | '*'

/-- The blank text after a comparison; without a comparison, none. -/
def gapAt (comparison rest : List Char) : List Char :=
  if comparison.isEmpty then [] else rest.takeWhile Pattern.isBlank

/-- The versions of a text that begins at `offset`, looking at no more than `fuel` places. -/
def scanAtFuel : Nat → Nat → List Char → List VersionLiteral
  | 0, _, _ => []
  | _, _, [] => []
  | fuel + 1, offset, c :: cs =>
    let text := c :: cs
    let comparison := comparisonAt text
    let gap := gapAt comparison (text.drop comparison.length)
    let version := (text.drop (comparison.length + gap.length)).takeWhile isVersionChar
    if version.isEmpty then scanAtFuel fuel (offset + c.utf8Size) cs
    else
      let length := comparison.length + gap.length + version.length
      let stop := offset + Text.byteLength (text.take length)
      ⟨if comparison.isEmpty then none else some (String.ofList comparison),
        String.ofList version, ⟨offset, stop⟩⟩ :: scanAtFuel fuel stop (text.drop length)

/-- The versions of a text that begins at `offset`. -/
def scan (offset : Nat) (text : List Char) : List VersionLiteral :=
  scanAtFuel text.length offset text

end SolidityParser.VersionLiteral

namespace SolidityParser

/-- The value of a pragma, read off its text, which begins at `offset`. -/
def PragmaValue.ofText (offset : Nat) (text : List Char) : PragmaValue :=
  let versions := VersionLiteral.scan offset text
  ⟨String.ofList text, versions[0]?, versions[1]?⟩

end SolidityParser
