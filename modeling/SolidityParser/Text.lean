import SolidityParser.Span

/-!
# Text by byte offset

Sources are sequences of characters, positions are byte offsets of their UTF-8 form. This file
cuts a text at byte offsets; a cut inside a character, or past the end, is refused.
-/

namespace SolidityParser.Text

/-- Number of bytes of the UTF-8 form. -/
def byteLength : List Char → Nat
  | [] => 0
  | c :: cs => c.utf8Size + byteLength cs

/-- The text after its first `count` bytes, if that many end at a character boundary. -/
def dropBytes? (count : Nat) : List Char → Option (List Char)
  | [] => if count = 0 then some [] else none
  | c :: cs =>
    if count = 0 then some (c :: cs)
    else if c.utf8Size ≤ count then dropBytes? (count - c.utf8Size) cs
    else none

/-- The first `count` bytes of the text, if that many end at a character boundary. -/
def takeBytes? (count : Nat) : List Char → Option (List Char)
  | [] => if count = 0 then some [] else none
  | c :: cs =>
    if count = 0 then some []
    else if c.utf8Size ≤ count then (takeBytes? (count - c.utf8Size) cs).map (c :: ·)
    else none

/-- The text that a span covers, if the span lies in the text, is not reversed and cuts no
character. -/
def slice? (text : List Char) (span : Span) : Option (List Char) :=
  if span.start ≤ span.stop then
    (dropBytes? span.start text).bind (takeBytes? span.length)
  else none

/-- The text that a span covers, and the empty text for a span that cannot be cut out. -/
def slice (text : List Char) (span : Span) : List Char := (slice? text span).getD []

end SolidityParser.Text
