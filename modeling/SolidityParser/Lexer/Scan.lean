import SolidityParser.Comment
import SolidityParser.Lexer.Pattern
import SolidityParser.Text
import SolidityParser.Token.Basic

/-!
# Lexing

`lex` cuts a source text into pieces, each the longest match of a pattern at the front of what is
left, and reads the tokens and the comments off the pieces. The pieces hold the whole text, blank
pieces included; offsets are sums of their lengths.
-/

namespace SolidityParser

/-- What a piece of text is. -/
inductive PieceSort
  | blank
  | comment (kind : CommentKind)
  | token (kind : Kind)
deriving DecidableEq, Inhabited

/-- A piece of a source text. -/
structure Piece where
  /-- What it is. -/
  sort : PieceSort
  /-- Its text. -/
  text : List Char
deriving DecidableEq, Inhabited

/-- The tokens and comments of a source text. -/
structure Lexed where
  /-- The tokens, closed by `eof`. -/
  tokens : TokenList
  /-- The comments. -/
  comments : List Comment

namespace Lexer

/-! ## Cutting a text into pieces -/

/-- The kind of token that holds a string literal of a kind. -/
def stringToken : StringKind → Kind
  | .plain => .string
  | .hex => .hexString
  | .unicode => .unicodeString

/-- The piece that begins with a match of `pattern` of length `length`: its sort and full length.
An open block comment is one error up to the end of the text, an open string an error that ends
with its quote. -/
def extend (pattern : Pattern) (length : Nat) (text : List Char) : PieceSort × Nat :=
  let rest := text.drop length
  match pattern with
  | .blank => (.blank, length)
  | .lineComment => (.comment .line, length + Delimiter.lineCommentEnd rest)
  | .blockComment =>
    match Delimiter.blockCommentEnd? rest with
    | some body => (.comment .block, length + body)
    | none => (.token .error, text.length)
  | .quote kind mark =>
    match Delimiter.stringEnd? mark rest with
    | some body => (.token (stringToken kind), length + body)
    | none => (.token .error, length)
  | .number => (.token .number, length)
  | .hexNumber => (.token .hexNumber, length)
  | .word => (.token (Kind.ofWord (String.ofList (text.take length))), length)
  | .symbol kind => (.token kind, length)

/-- Sort and length of the piece at the front of a text. A character that begins no pattern is an
error by itself. -/
def front (text : List Char) : PieceSort × Nat :=
  match Pattern.longest? text with
  | some (pattern, length) => extend pattern length text
  | none => (.token .error, 1)

/-- The first `fuel` pieces of a text. -/
def piecesAtFuel : Nat → List Char → List Piece
  | 0, _ => []
  | _, [] => []
  | fuel + 1, text =>
    let (sort, length) := front text
    ⟨sort, text.take length⟩ :: piecesAtFuel fuel (text.drop length)

/-- The pieces of a text. -/
def pieces (text : List Char) : List Piece := piecesAtFuel text.length text

/-! ## Reading tokens and comments off the pieces -/

/-- The tokens of pieces that begin at `offset`, closed by `eof`. -/
def tokensFrom : Nat → List Piece → List Token
  | offset, [] => [⟨⟨.eof, ""⟩, Span.point offset⟩]
  | offset, piece :: pieces =>
    let stop := offset + Text.byteLength piece.text
    match piece.sort with
    | .token kind => ⟨⟨kind, String.ofList piece.text⟩, ⟨offset, stop⟩⟩ :: tokensFrom stop pieces
    | _ => tokensFrom stop pieces

/-- The comments of pieces that begin at `offset`. -/
def commentsFrom : Nat → List Piece → List Comment
  | _, [] => []
  | offset, piece :: pieces =>
    let stop := offset + Text.byteLength piece.text
    match piece.sort with
    | .comment kind => ⟨kind, String.ofList piece.text, ⟨offset, stop⟩⟩ :: commentsFrom stop pieces
    | _ => commentsFrom stop pieces

/-- The tokens and comments of a text. -/
def lexText (text : List Char) : Lexed :=
  let pieces := pieces text
  ⟨⟨(tokensFrom 0 pieces).toArray⟩, commentsFrom 0 pieces⟩

end Lexer

/-- The tokens and comments of a source. -/
def lex (source : String) : Lexed := Lexer.lexText source.toList

end SolidityParser
