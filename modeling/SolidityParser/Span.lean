/-!
# Spans

A span is a half-open range of byte offsets into a source text. Spans read off the text are exact;
a range that comes from elsewhere is brought under the four-gigabyte limit, either by clamping
(`Span.ofRange`) or by refusing it and naming the offset at fault (`Span.ofRange?`).
-/

namespace SolidityParser

/-- The bytes from `start` up to, but not including, `stop`. -/
structure Span where
  /-- Offset of the first byte. -/
  start : Nat
  /-- Offset after the last byte. -/
  stop : Nat
deriving DecidableEq, Inhabited

namespace Span

/-- The largest offset that a span may hold. -/
def limit : Nat := Nat.pow 2 32 - 1

/-- The empty span at an offset. -/
def point (offset : Nat) : Span := ⟨offset, offset⟩

/-! ## Foreign ranges -/

/-- The span of a range, each end clamped to the limit. -/
def ofRange (start stop : Nat) : Span := ⟨min start limit, min stop limit⟩

/-- An offset too large for a span. -/
structure OutOfLimit where
  /-- The offset at fault. -/
  offset : Nat
deriving DecidableEq

/-- The wording of a refused offset. -/
def OutOfLimit.message (error : OutOfLimit) : String :=
  s!"source offset {error.offset} is past the 4GiB limit for a single file"

/-- The span of a range whose ends both respect the limit; the start is looked at first. -/
def ofRange? (start stop : Nat) : Except OutOfLimit Span :=
  if limit < start then .error ⟨start⟩
  else if limit < stop then .error ⟨stop⟩
  else .ok ⟨start, stop⟩

/-- Refuses the length of a source whose end no span can reach. -/
def checkLength (length : Nat) : Except OutOfLimit Unit :=
  if limit < length then .error ⟨length⟩ else .ok ()

/-! ## Measures and comparisons -/

/-- Number of bytes covered; a reversed span covers none. -/
def length (span : Span) : Nat := span.stop - span.start

/-- Does the span cover no byte? -/
def isEmpty (span : Span) : Bool := span.length == 0

/-- Does `span` reach from `other`'s start, itself within `span`, to `other`'s end? -/
def contains (span other : Span) : Bool :=
  decide (span.start ≤ other.start ∧ other.start ≤ span.stop ∧ other.stop ≤ span.stop)

/-- The smallest span that reaches over both. -/
def merge (span other : Span) : Span := ⟨min span.start other.start, max span.stop other.stop⟩

/-- The span as text: both ends with two dots between them. -/
def text (span : Span) : String := s!"{span.start}..{span.stop}"

end Span

end SolidityParser
