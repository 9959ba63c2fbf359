import SolidityParser.Comment
import SolidityParser.Lexer.Delimiter
import SolidityParser.Text

/-!
# Comments without tokens

`scanComments` finds the comments of a source without cutting the rest into tokens. It goes from
one slash or quote to the next and steps over strings, so that slashes inside a string begin no
comment.
-/

namespace SolidityParser

namespace CommentScan

/-- May a comment or a string begin with this character? -/
def isMark (c : Char) : Bool := c matches '/' | '\x22' | '\x27'

/-- The comment of `length` characters at the front of a text that begins at `offset`. -/
def commentAt (kind : CommentKind) (offset length : Nat) (text : List Char) : Comment :=
  let body := text.take length
  ⟨kind, String.ofList body, ⟨offset, offset + Text.byteLength body⟩⟩

/-- The comments met at the first `fuel` marks of a text that begins at `offset`. An open string is
stepped over by its quote alone; an open block comment ends the scan. -/
def commentsAtFuel : Nat → Nat → List Char → List Comment
  | 0, _, _ => []
  | fuel + 1, offset, text =>
    let skipped := text.takeWhile (!isMark ·)
    let here := offset + Text.byteLength skipped
    let after (length : Nat) (rest : List Char) : List Comment :=
      commentsAtFuel fuel (here + Text.byteLength (rest.take length)) (rest.drop length)
    match text.dropWhile (!isMark ·) with
    | [] => []
    | '/' :: '/' :: body =>
      let length := Delimiter.lineCommentEnd body + 2
      let rest := '/' :: '/' :: body
      commentAt .line here length rest :: after length rest
    | '/' :: '*' :: body =>
      match Delimiter.blockCommentEnd? body with
      | none => []
      | some inner =>
        let length := inner + 2
        let rest := '/' :: '*' :: body
        commentAt .block here length rest :: after length rest
    | '/' :: body => after 1 ('/' :: body)
    | quote :: body =>
      after ((Delimiter.stringEnd? quote body).getD 0 + 1) (quote :: body)

end CommentScan

/-- The comments of a source, found without lexing it. -/
def scanComments (source : String) : List Comment :=
  CommentScan.commentsAtFuel source.toList.length 0 source.toList

end SolidityParser
