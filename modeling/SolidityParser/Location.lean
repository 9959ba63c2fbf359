import SolidityParser.Text

/-!
# Lines and columns

`LineTable.locate` resolves a byte offset to a line and a column. Lines end at line feeds alone,
both numbers count from one, and a column counts characters. An offset past the end stands for the
end; an offset inside a character is given the column after the last character of the text.

Lines and columns have 32 bits. What is counted from zero becomes a number from one by an addition
that wraps, so the number of the largest count is zero (`LineTable.number`).
-/

namespace SolidityParser

/-- A position for a reader: line and column, beside the offset they stand for. -/
structure Location where
  /-- Line, from one. -/
  line : Nat
  /-- Column in characters, from one. -/
  column : Nat
  /-- Byte offset. -/
  offset : Nat
deriving DecidableEq, Inhabited

/-- The start of a line, with all text that follows it. -/
structure LineStart where
  /-- Byte offset of the line's first character. -/
  offset : Nat
  /-- The text from there to the end of the source. -/
  rest : List Char

/-- The line starts of a source, in order, and the source's length in bytes. -/
structure LineTable where
  /-- Length of the source in bytes. -/
  size : Nat
  /-- The first line. -/
  first : LineStart
  /-- The lines after it. -/
  later : List LineStart

namespace LineTable

/-- The lines that begin inside `text`, which itself starts at `offset`. -/
def linesAfter : Nat → List Char → List LineStart
  | _, [] => []
  | offset, c :: cs =>
    let next := offset + c.utf8Size
    if c = '\n' then ⟨next, cs⟩ :: linesAfter next cs else linesAfter next cs

/-- The line table of a source text. -/
def ofText (text : List Char) : LineTable where
  size := Text.byteLength text
  first := ⟨0, text⟩
  later := linesAfter 0 text

/-- Number of lines; a final line feed opens one more. -/
def lineCount (table : LineTable) : Nat := table.later.length + 1

/-- The index and start of the last line that begins at or before `offset`, given a line that does
and the ones after it. -/
def lastStart (offset : Nat) : Nat → LineStart → List LineStart → Nat × LineStart
  | index, line, [] => (index, line)
  | index, line, next :: later =>
    if next.offset ≤ offset then lastStart offset (index + 1) next later else (index, line)

/-- The number, from one, of what is counted from zero. A count of more than 32 bits is taken for
the largest but one; the addition wraps, so the largest count has the number zero. -/
def number (count : Nat) : Nat :=
  ((if count ≤ Span.limit then count else Span.limit - 1) + 1) % (Span.limit + 1)

/-- The line an offset falls on. An offset past the end falls on the last line. -/
def lineAt (table : LineTable) (offset : Nat) : Nat :=
  number (lastStart offset 0 table.first table.later).1

/-- Number of characters in the first `count` bytes, or in all of the text where those bytes end
inside a character. -/
def charactersBefore (count : Nat) (text : List Char) : Nat :=
  ((Text.takeBytes? count text).getD text).length

/-- Line and column of an offset, clamped to the length of the source. -/
def locate (table : LineTable) (offset : Nat) : Location :=
  let clamped := min offset table.size
  let (index, line) := lastStart clamped 0 table.first table.later
  ⟨number index, number (charactersBefore (clamped - line.offset) line.rest), clamped⟩

end LineTable

end SolidityParser
