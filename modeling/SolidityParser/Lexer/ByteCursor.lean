import SolidityParser.Text

/-!
# Walking over bytes

A `SourceBuffer` holds the UTF-8 bytes of a source. Reads past its end give zero, so that a scanner
may look ahead without a bounds check; the end itself is told apart by the length of the source.
-/

namespace SolidityParser

/-- The UTF-8 bytes of a source. -/
structure SourceBuffer where
  /-- The bytes. -/
  bytes : Array UInt8

namespace SourceBuffer

/-- The buffer of a source. -/
def ofSource (source : String) : SourceBuffer := ⟨source.toUTF8.data⟩

/-- Number of bytes. -/
def size (buffer : SourceBuffer) : Nat := buffer.bytes.size

/-- Is the source empty? -/
def isEmpty (buffer : SourceBuffer) : Bool := buffer.size == 0

end SourceBuffer

/-- A place in a source buffer, at its end or past it. -/
structure ByteCursor where
  /-- The buffer walked over. -/
  buffer : SourceBuffer
  /-- Offset of the current byte. -/
  position : Nat := 0

namespace ByteCursor

/-- The byte `n` places ahead, and zero past the end. -/
def byteAhead (cursor : ByteCursor) (n : Nat) : UInt8 :=
  (cursor.buffer.bytes[cursor.position + n]?).getD 0

/-- Has every byte been passed? -/
def atEnd (cursor : ByteCursor) : Bool := decide (cursor.buffer.size ≤ cursor.position)

/-- The bytes not yet passed. -/
def rest (cursor : ByteCursor) : List UInt8 := cursor.buffer.bytes.toList.drop cursor.position

/-- The cursor `n` bytes further on; it may pass the end. -/
def advance (cursor : ByteCursor) (n : Nat) : ByteCursor :=
  { cursor with position := cursor.position + n }

/-- The cursor at the end of the source, or where it stands if that is further. -/
def toEnd (cursor : ByteCursor) : ByteCursor :=
  { cursor with position := max cursor.position cursor.buffer.size }

/-- May a comment or a string begin with this byte? -/
def isMark (byte : UInt8) : Bool :=
  byte == '/'.toUInt8 || byte == '\x22'.toUInt8 || byte == '\x27'.toUInt8

/-- The cursor at the next byte that may begin a comment or a string, and that byte; at the end,
and zero, if there is none. -/
def toMark (cursor : ByteCursor) : ByteCursor × UInt8 :=
  match cursor.rest.findIdx? isMark with
  | some found => (cursor.advance found, (cursor.advance found).byteAhead 0)
  | none => (cursor.toEnd, 0)

end ByteCursor

end SolidityParser
