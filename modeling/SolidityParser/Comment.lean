import SolidityParser.Span

/-!
# Comments

Comments are no tokens; they are kept beside them, delimiters included.
-/

namespace SolidityParser

/-- The two forms of comment: to the end of the line, or between delimiters. -/
inductive CommentKind
  | line
  | block
deriving DecidableEq, Inhabited

/-- A comment of a source text. -/
structure Comment where
  /-- The form. -/
  kind : CommentKind
  /-- The text, delimiters included. -/
  text : String
  /-- Where the comment stands. -/
  span : Span
deriving DecidableEq, Inhabited

end SolidityParser
