import SolidityParser.Span

/-!
# Forms of a tree

The grammar reads words and builds a tree whose nodes are placed by token: an `Extent` counts the
tokens before a node's first and after its last. Placing a tree in its source turns extents into
spans and fills in the passages that the grammar leaves unread. A `Form` says which of these a tree
holds, so that one family of types serves both.
-/

namespace SolidityParser

/-- The tokens from index `first` up to, but not including, `next`. -/
structure Extent where
  /-- Index of the first token. -/
  first : Nat
  /-- Index after the last token. -/
  next : Nat
deriving DecidableEq, Inhabited

namespace Extent

/-- The one token at an index. -/
def single (index : Nat) : Extent := ⟨index, index + 1⟩

/-- From the start of one extent to the end of another. -/
def upTo (extent other : Extent) : Extent := ⟨extent.first, other.next⟩

end Extent

/-- A version constraint in the value of a pragma. -/
structure VersionLiteral where
  /-- The comparison before the version. -/
  operator : Option String
  /-- The version. -/
  version : String
  /-- Where both stand. -/
  span : Span
deriving DecidableEq

/-- The value of a pragma: its text, and the versions it bounds. -/
structure PragmaValue where
  /-- The text as written. -/
  text : String
  /-- The first version constraint. -/
  startVersion : Option VersionLiteral
  /-- The second version constraint. -/
  endVersion : Option VersionLiteral
deriving DecidableEq

/-- What the nodes of a tree hold beside the words they were read from. -/
structure Form where
  /-- Where a node stands. -/
  Place : Type
  /-- The value of a pragma, which the grammar leaves unread. -/
  Value : Type
  /-- The body of an assembly block, which the grammar leaves unread. -/
  Body : Type

namespace Form

/-- Trees as the grammar builds them, placed by token. -/
abbrev parsed : Form := ⟨Extent, Extent, Extent⟩

/-- Trees placed in a source text. -/
abbrev located : Form := ⟨Span, PragmaValue, String⟩

/-- Trees without places and unread passages: two trees agree in this form if they differ in these
only. -/
abbrev bare : Form := ⟨Unit, Unit, Unit⟩

end Form

/-- A change from one form to another. -/
structure Relocation (F G : Form) where
  /-- What becomes of a place. -/
  place : F.Place → G.Place
  /-- What becomes of the value of a pragma. -/
  value : F.Value → G.Value
  /-- What becomes of the body of an assembly block. -/
  body : F.Body → G.Body

/-- The change that forgets places and unread passages. -/
def Relocation.forget (F : Form) : Relocation F .bare := ⟨fun _ => (), fun _ => (), fun _ => ()⟩

end SolidityParser
