import SolidityParser.Grammar.Unit

/-!
# Entry points

The rules of a level are functions of those of the level within; `Inner.upTo n` stacks `n` levels.
Every level costs a token, so an input is never nested more deeply than it has tokens, and
`Inner.ofLexemes` stacks as many levels as any parse of the input can reach.

The entry rules read a whole input: a list of units, an expression, a statement, or the paths of the
imports. `run` applies one of them to the words of an input.
-/

namespace SolidityParser

namespace Inner

/-- Rules that always fail: what is nested more deeply than the input has tokens. -/
def exhausted : Inner where
  expression := Parser.fail
  assignment := Parser.fail
  power := Parser.fail
  unary := Parser.fail
  typeName := fun _ s => (.emptyErr ∅ s.position, s)
  statement := fun _ s => (.emptyErr ∅ s.position, s)

/-- The rules for input nested at most `depth` levels deep. -/
def upTo : Nat → Inner
  | 0 => exhausted
  | depth + 1 => {
      expression := fun scope s => Grammar.expression (upTo depth) scope s
      assignment := fun scope s => Grammar.assignment (upTo depth) scope s
      power := fun scope s => Grammar.power (upTo depth) scope s
      unary := fun scope s => Grammar.unary (upTo depth) scope s
      typeName := fun scope s => Grammar.typeName (upTo depth) scope s
      statement := fun scope s => Grammar.statement (upTo depth) scope s }

/-- The rules for an input, nested as deeply as it may be. -/
def ofLexemes (lexemes : Lexemes) : Inner := upTo (lexemes.size + 1)

end Inner

namespace Grammar

open SolidityParser.Parser

/-! ## Whole inputs -/

/-- The units of a source, up to its end. -/
def units (inner : Inner) : Parser (List (SourceUnit .parsed)) :=
  collect do
    if ← check .eof then return none
    some <$> (sourceUnit inner).finish

/-- An expression that is the whole input. -/
def wholeExpression (inner : Inner) : Parser (Expression Extent) := do
  let value ← inner.expression
  expect .eof
  return value

/-- A statement that is the whole input. -/
def wholeStatement (inner : Inner) : Parser (Statement .parsed) := do
  let value ← inner.statement.finish
  expect .eof
  return value

/-! ## Imports alone -/

/-- Skips one token of a unit that is no import, given the brackets still to be closed, innermost
first. Gives the brackets then open, and whether the unit goes on. -/
def skipUnitToken (closers : List Kind) : Parser (List Kind × Bool) := do
  let here ← kind
  match here, closers with
  | .eof, _ =>
    reportToken (closers.headD .semicolon)
    fail
  | .rparen, [] | .rbracket, [] | .rbrace, [] => fail
  | _, _ =>
    if here.isClose ∧ here ≠ closers.headD here then
      reportToken (closers.headD here)
      fail
    advance
    let closers := match here.closer? with
      | some closer => closer :: closers
      | none => if here.isClose then closers.tail else closers
    return (closers, !(closers.isEmpty && (here == .semicolon || here == .rbrace)))

/-- Skips a unit: the tokens up to a semicolon outside of brackets, or up to a brace that closes an
outermost group. Brackets have to match. -/
def skipUnit : Parser Unit := do
  let _ ← iterate (fun (closers, more) => do
    if more then some <$> skipUnitToken closers else return none) (([] : List Kind), true)

/-- The paths of the imports; no other unit is read. -/
def importPaths : Parser (List String) := do
  let paths ← collect do
    if ← check .eof then return none
    if (← kind) = .kwImport then
      let directive ← importDirective.finish
      return some (some directive.path)
    skipUnit
    return some none
  return paths.filterMap id

/-! ## Runs -/

/-- What an entry rule makes of an input: its value, or the furthest failure. -/
def run {α : Type} (parser : Parser α) (lexemes : Lexemes) (tolerant : Bool := false) :
    Except Furthest α :=
  match parser { lexemes, tolerant } {} with
  | .ok value _ => .ok value
  | .error _ s => .error s.trail.furthest

/-- The units of a source. -/
def parseUnits (lexemes : Lexemes) (tolerant : Bool := false) :
    Except Furthest (List (SourceUnit .parsed)) :=
  run (units (Inner.ofLexemes lexemes)) lexemes tolerant

/-- The expression that a source consists of. -/
def parseExpression (lexemes : Lexemes) : Except Furthest (Expression Extent) :=
  run (wholeExpression (Inner.ofLexemes lexemes)) lexemes

/-- The statement that a source consists of. -/
def parseStatement (lexemes : Lexemes) : Except Furthest (Statement .parsed) :=
  run (wholeStatement (Inner.ofLexemes lexemes)) lexemes

/-- The paths that a source imports. -/
def scanImports (lexemes : Lexemes) : Except Furthest (List String) :=
  run importPaths lexemes

end Grammar

end SolidityParser
