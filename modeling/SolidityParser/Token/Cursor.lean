import SolidityParser.Token.Basic

/-!
# Walking over tokens

A `TokenCursor` stands at an index of a token list. It looks at the token there, looks ahead, and
steps forward; it never steps past `eof`.
-/

namespace SolidityParser

/-- A place in a token list. -/
structure TokenCursor where
  /-- The tokens walked over. -/
  list : TokenList
  /-- Index of the current token. -/
  position : Nat := 0

namespace TokenCursor

/-- The kind of the token `n` places ahead; the current one is `0` ahead. -/
def kindAhead (cursor : TokenCursor) (n : Nat) : Kind := cursor.list.kind (cursor.position + n)

/-- The spelling of the token `n` places ahead. -/
def textAhead (cursor : TokenCursor) (n : Nat) : String := cursor.list.text (cursor.position + n)

/-- The kind of the current token. -/
def kind (cursor : TokenCursor) : Kind := cursor.kindAhead 0

/-- The spelling of the current token. -/
def text (cursor : TokenCursor) : String := cursor.textAhead 0

/-- The span of the current token. -/
def span (cursor : TokenCursor) : Span := cursor.list.span cursor.position

/-- The span of the token before the current one. -/
def previousSpan (cursor : TokenCursor) : Span := cursor.list.spanBefore cursor.position

/-- Is the current token of this kind? -/
def isAt (cursor : TokenCursor) (kind : Kind) : Bool := cursor.kind == kind

/-- Is the current token the identifier `word`? -/
def atWord (cursor : TokenCursor) (word : String) : Bool :=
  cursor.isAt .ident && cursor.text == word

/-- Does the cursor stand at the end of the input? -/
def atEnd (cursor : TokenCursor) : Bool := cursor.isAt .eof

/-- The cursor at another index of the same list. -/
def moveTo (cursor : TokenCursor) (position : Nat) : TokenCursor := { cursor with position }

/-- The cursor at the next token, or where it stands if that is `eof`. -/
def next (cursor : TokenCursor) : TokenCursor :=
  if cursor.atEnd then cursor else cursor.moveTo (cursor.position + 1)

end TokenCursor

end SolidityParser
