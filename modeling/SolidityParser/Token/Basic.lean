import SolidityParser.Span
import SolidityParser.Token.Kind

/-!
# Tokens

A `Lexeme` is a kind and a spelling; it is all that the grammar sees of a token. A `Token` adds the
place in the source. A `TokenList` is a lexed source, closed by an `eof` token, and answers for
every index: past its end the kind is `eof` and the span is that of the last token.
-/

namespace SolidityParser

/-- A token without its place: what kind it is and how it is spelled. -/
structure Lexeme where
  /-- The kind. -/
  kind : Kind
  /-- The spelling; empty for `eof`. -/
  text : String
deriving DecidableEq, Inhabited

/-- A token of a source text. -/
structure Token extends Lexeme where
  /-- Where the token stands. -/
  span : Span
deriving DecidableEq, Inhabited

/-! ## Lexemes by index -/

/-- The words of an input, in order. -/
abbrev Lexemes := Array Lexeme

namespace Lexemes

/-- The kind at an index, and `eof` past the end. -/
def kindAt (lexemes : Lexemes) (index : Nat) : Kind :=
  if h : index < lexemes.size then lexemes[index].kind else .eof

/-- The spelling at an index, and nothing past the end. -/
def textAt (lexemes : Lexemes) (index : Nat) : String :=
  if h : index < lexemes.size then lexemes[index].text else ""

/-- Does the identifier `word` stand at an index? Words such as `error`, `from` and `receive` are
keywords in some places only, and lex as identifiers. -/
def isWordAt (lexemes : Lexemes) (index : Nat) (word : String) : Bool :=
  lexemes.kindAt index == .ident && lexemes.textAt index == word

end Lexemes

/-! ## Lexed sources -/

/-- The tokens of a source text, the last of kind `eof`. -/
structure TokenList where
  /-- The tokens in source order. -/
  tokens : Array Token

namespace TokenList

/-- Number of tokens, the final `eof` included. -/
def size (list : TokenList) : Nat := list.tokens.size

/-- The token at an index. -/
def get? (list : TokenList) (index : Nat) : Option Token := list.tokens[index]?

/-- What the grammar sees of a lexed source. -/
def lexemes (list : TokenList) : Lexemes := list.tokens.map (·.toLexeme)

/-- The kind at an index, and `eof` past the end. -/
def kind (list : TokenList) (index : Nat) : Kind := ((list.get? index).map (·.kind)).getD .eof

/-- The span at an index; past the end that of the last token. -/
def span (list : TokenList) (index : Nat) : Span :=
  match list.get? index with
  | some token => token.span
  | none => ((list.tokens.back?).map (·.span)).getD (Span.point 0)

/-- The spelling at an index; past the end that of the last token. -/
def text (list : TokenList) (index : Nat) : String :=
  match list.get? index with
  | some token => token.text
  | none => ((list.tokens.back?).map (·.text)).getD ""

/-- The span of the token before an index, and the empty span at the start before the first. -/
def spanBefore (list : TokenList) (index : Nat) : Span :=
  if index = 0 then Span.point 0 else list.span (index - 1)

end TokenList

end SolidityParser
