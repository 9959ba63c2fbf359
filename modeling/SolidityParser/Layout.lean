import SolidityParser.Token.Basic
import SolidityParser.Tree.Declaration
import SolidityParser.Tree.Version

/-!
# Placing trees in a source

The grammar places nodes by token. A `Layout` knows the tokens of a source and its text; it turns
extents into spans and cuts out the passages that the grammar leaves unread. Nothing else of a tree
depends on how a source is laid out.
-/

namespace SolidityParser

/-- A source text with its tokens. -/
structure Layout where
  /-- The text. -/
  text : List Char
  /-- The tokens. -/
  tokens : TokenList

namespace Layout

/-- From the start of an extent's first token to the end of its last; an extent without tokens is
an empty span. -/
def span (layout : Layout) (extent : Extent) : Span :=
  let start := (layout.tokens.span extent.first).start
  ⟨start, max (layout.tokens.spanBefore extent.next).stop start⟩

/-- The text of an extent, with all that stands between its tokens. -/
def passage (layout : Layout) (extent : Extent) : List Char :=
  Text.slice layout.text (layout.span extent)

/-- The value of a pragma. -/
def pragmaValue (layout : Layout) (extent : Extent) : PragmaValue :=
  PragmaValue.ofText (layout.span extent).start (layout.passage extent)

/-- The change that places a tree in the source. -/
def relocation (layout : Layout) : Relocation .parsed .located where
  place := layout.span
  value := layout.pragmaValue
  body := fun extent => String.ofList (layout.passage extent)

/-- The units of a source, placed in it. -/
def program (layout : Layout) (units : List (SourceUnit .parsed)) : Program where
  span := ⟨0, Text.byteLength layout.text⟩
  body := units.map (·.relocate layout.relocation)

end Layout

end SolidityParser
