import SolidityParser.Grammar.Entry
import SolidityParser.Layout
import SolidityParser.Lexer.CommentScan
import SolidityParser.Lexer.Scan
import SolidityParser.Location

/-!
# Reading sources

What can be asked of a source text: its tree, the expression or statement that it consists of, its
comments, and the paths that it imports. A source that is too long for its offsets is refused before
it is read. One that is not well formed gets one `SyntaxError`, at the furthest token that any
reading of it reached.
-/

namespace SolidityParser

/-- Why a source is not well formed, and where. -/
structure SyntaxError where
  /-- What was expected and what was found. -/
  message : String
  /-- Where it was found. -/
  location : Location
deriving DecidableEq

/-- The error as one line. -/
def SyntaxError.text (error : SyntaxError) : String := "SyntaxError: " ++ error.message

namespace Source

/-- The layout of a source. -/
def layout (source : String) : Layout := ⟨source.toList, (lex source).tokens⟩

/-- The error that reports a failure at a token of the source. -/
def syntaxError (layout : Layout) (failure : Furthest) : SyntaxError where
  message := failure.message layout.tokens.lexemes
  location :=
    (LineTable.ofText layout.text).locate (layout.tokens.span failure.position).start

/-- The error of a source that is too long. It is reported at the start of the source. -/
def sizeError (error : Span.OutOfLimit) : SyntaxError where
  message := error.message
  location := ⟨1, 1, 0⟩

/-- Reads a source by words and places the result in it, unless the source is too long. -/
def read {α β : Type} (source : String) (parse : Lexemes → Except Furthest α)
    (place : Layout → α → β) : Except SyntaxError β :=
  match Span.checkLength (Text.byteLength source.toList) with
  | .error error => .error (sizeError error)
  | .ok () =>
    let layout := layout source
    match parse layout.tokens.lexemes with
    | .ok value => .ok (place layout value)
    | .error failure => .error (syntaxError layout failure)

/-- The tree of a source. If `tolerant`, statements in the bodies of functions that cannot be read
are skipped. -/
def parse (source : String) (tolerant : Bool := false) : Except SyntaxError Program :=
  read source (Grammar.parseUnits · tolerant) Layout.program

/-- The expression that a source consists of. -/
def parseExpression (source : String) : Except SyntaxError (Expression Span) :=
  read source Grammar.parseExpression fun layout => Expression.relocate layout.span

/-- The statement that a source consists of. -/
def parseStatement (source : String) : Except SyntaxError (Statement .located) :=
  read source Grammar.parseStatement fun layout => Statement.relocate layout.relocation

/-- The paths that a source imports, found without reading its other units. -/
def scanImports (source : String) : Except SyntaxError (List String) :=
  read source Grammar.scanImports fun _ paths => paths

/-- The wording of an error met while looking for imports. -/
def importsErrorText (error : SyntaxError) : String :=
  "An error occurred while trying to parse the code:\n" ++ error.text

end Source

/-- The paths that a program imports. -/
def Program.importPaths (program : Program) : List String := SourceUnit.importPaths program.body

end SolidityParser
