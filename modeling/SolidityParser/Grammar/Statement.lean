import SolidityParser.Grammar.Expression
import SolidityParser.Grammar.Recovery

/-!
# Statements

A statement that a keyword or a brace begins is decided by it. Any other is a declaration or an
expression; which of the two only all of it can tell, so a declaration is attempted first.
-/

namespace SolidityParser.Grammar

open SolidityParser.Parser

/-! ## Declarations and expressions -/

/-- A type, a data location if there is one, and a name. -/
def variableDeclaration (inner : Inner) : Parser (VariableDeclaration Extent) := do
  let start ← position
  let type ← (typeName inner).finish
  let location ← location?
  let name ← expectIdent
  return ⟨← extentFrom start, type, location, name.name⟩

/-- A variable of a list, or none where a comma or parenthesis stands in its place. -/
def variableSlot (inner : Inner) : Parser (Option (VariableDeclaration Extent)) := do
  let here ← kind
  if here = .comma ∨ here = .rparen then return none
  return some (← variableDeclaration inner)

/-- A list of variables with a value, or one variable with a value or none. -/
def declarationStatement (inner : Inner) : Parser (Statement .parsed) := do
  let start ← position
  if ← eat .lparen then
    let slots ← separated (variableSlot inner)
    expect .rparen
    expect .eq
    let value ← expression inner
    expect .semicolon
    return .declaration (← extentFrom start) slots (some value)
  let declared ← variableDeclaration inner
  let value ← if ← eat .eq then some <$> expression inner else pure none
  expect .semicolon
  return .declaration (← extentFrom start) [some declared] value

/-- An expression and a semicolon. -/
def expressionStatement (inner : Inner) : Parser (Statement .parsed) := do
  let start ← position
  let value ← expression inner
  expect .semicolon
  return .expression (← extentFrom start) value

/-- The declaration statement as something that can be taken back. -/
def declarationAttempt (inner : Inner) : Rule (Statement .parsed) :=
  (Rule.ofParser (declarationStatement inner)).attempt

/-! ## Control flow -/

/-- An expression between parentheses. -/
def test (inner : Inner) : Parser (Expression Extent) := do
  expect .lparen
  let value ← expression inner
  expect .rparen
  return value

/-- A choice between statements; `else` belongs to the nearest `if`. -/
def ifStatement (inner : Inner) : Parser (Statement .parsed) := do
  let start ← position
  advance
  let test ← test inner
  let consequent ← inner.statement.finish
  let alternate ← if ← eat .kwElse then some <$> inner.statement.finish else pure none
  return .ifElse (← extentFrom start) test consequent alternate

/-- What a `for` loop does first: a declaration, an expression, or nothing. -/
def forInitial (inner : Inner) : Parser (Option (Statement .parsed)) := do
  if ← eat .semicolon then return none
  some <$> (Rule.firstOf
    [declarationAttempt inner, Rule.ofParser (expressionStatement inner)]).finish

/-- An expression, unless a token of kind `close` stands in its place. -/
def expressionUnless (inner : Inner) (close : Kind) : Parser (Option (Expression Extent)) := do
  if (← kind) = close then return none
  some <$> expression inner

/-- A `for` loop. -/
def forStatement (inner : Inner) : Parser (Statement .parsed) := do
  let start ← position
  advance
  expect .lparen
  let initial ← forInitial inner
  let test ← expressionUnless inner .semicolon
  expect .semicolon
  let update ← expressionUnless inner .rparen
  expect .rparen
  let body ← inner.statement.finish
  return .forLoop (← extentFrom start) initial test update body

/-- A loop that tests first. -/
def whileStatement (inner : Inner) : Parser (Statement .parsed) := do
  let start ← position
  advance
  let test ← test inner
  let body ← inner.statement.finish
  return .whileLoop (← extentFrom start) test body

/-- A loop that tests last. -/
def doWhileStatement (inner : Inner) : Parser (Statement .parsed) := do
  let start ← position
  advance
  let body ← inner.statement.finish
  expect .kwWhile
  let test ← test inner
  expect .semicolon
  return .doWhile (← extentFrom start) body test

/-- Parameters, if a parenthesis stands here. A miss is not reported. -/
def parametersIfOpen (inner : Inner) : Parser (Option (List (Parameter Extent))) := do
  if (← kind) = .lparen then some <$> parameters (typeName inner) else return none

/-- A clause of `try`: a kind of failure, parameters and a block. -/
def catchClause (inner : Inner) : Parser (CatchClause .parsed) := do
  let start ← position
  expect .kwCatch
  let kind ← eatIdent
  let given ← parametersIfOpen inner
  let body ← block inner.statement
  return .mk (← extentFrom start) kind given body

/-- The clauses of `try`, of which there is at least one. -/
def catchClauses (inner : Inner) : Parser (List (CatchClause .parsed)) := do
  let first ← catchClause inner
  let more ← collect do
    if (← kind) = .kwCatch then some <$> catchClause inner else return none
  return first :: more

/-- A call that may fail. -/
def tryStatement (inner : Inner) : Parser (Statement .parsed) := do
  let start ← position
  advance
  let call ← expression inner
  let returns ← returns? (typeName inner)
  let body ← block inner.statement
  let clauses ← catchClauses inner
  return .tryCatch (← extentFrom start) call returns body clauses

/-- The end of a function. -/
def returnStatement (inner : Inner) : Parser (Statement .parsed) := do
  let start ← position
  advance
  let argument ← expressionUnless inner .semicolon
  expect .semicolon
  return .returned (← extentFrom start) argument

/-- A word, an expression and a semicolon. -/
def prefixedExpression (inner : Inner)
    (statement : Extent → Expression Extent → Statement .parsed) : Parser (Statement .parsed) := do
  let start ← position
  advance
  let value ← expression inner
  expect .semicolon
  return statement (← extentFrom start) value

/-- A keyword and a semicolon. -/
def bareKeyword (statement : Extent → Statement .parsed) : Parser (Statement .parsed) := do
  let start ← position
  advance
  expect .semicolon
  return statement (← extentFrom start)

/-- A block whose arithmetic wraps. -/
def uncheckedStatement (inner : Inner) : Parser (Statement .parsed) := do
  let start ← position
  advance
  let body ← block inner.statement
  return .unchecked (← extentFrom start) body

/-! ## Assembly -/

/-- The text of a plain string, or a failure. -/
def expectString : Parser String := do
  let token ← text
  expect .string
  return Quoted.valueOf token

/-- The tokens after an opening brace, up to and including the one that closes it. -/
def skipBraces : Parser Unit := do
  let _ ← iterate (fun depth : Nat => do
    if depth = 0 then return none
    match ← kind with
    | .eof =>
      reportToken .rbrace
      fail
    | .lbrace =>
      advance
      return some (depth + 1)
    | .rbrace =>
      advance
      return some (depth - 1)
    | _ =>
      advance
      return some depth) 1

/-- An assembly block. Its body is not read: braces are matched, and the passage is kept. -/
def assemblyStatement : Parser (Statement .parsed) := do
  let start ← position
  advance
  let language ← if (← kind) = .string then some <$> expectString else pure none
  let flags ← if ← eat .lparen then series .rparen expectString else pure []
  let opening ← position
  expect .lbrace
  skipBraces
  let body ← extentFrom opening
  return .assembly (← extentFrom start) language flags body

/-! ## Statements -/

/-- The statement that a token of this kind begins, if it begins one by itself. -/
def keywordStatement? (inner : Inner) : Kind → Option (Parser (Statement .parsed))
  | .lbrace => some (within .block (.block <$> block inner.statement))
  | .kwIf => some (within .ifStatement (ifStatement inner))
  | .kwFor => some (within .forLoop (forStatement inner))
  | .kwWhile => some (within .whileLoop (whileStatement inner))
  | .kwDo => some (within .whileLoop (doWhileStatement inner))
  | .kwTry => some (within .tryStatement (tryStatement inner))
  | .kwReturn => some (returnStatement inner)
  | .kwEmit => some (prefixedExpression inner fun place event => .emit place event)
  | .kwBreak => some (bareKeyword fun place => .breakLoop place)
  | .kwContinue => some (bareKeyword fun place => .continueLoop place)
  | .kwThrow => some (bareKeyword fun place => .throwError place)
  | .kwUnchecked => some (uncheckedStatement inner)
  | .kwAssembly => some (within .inlineAssembly assemblyStatement)
  | _ => none

/-- A statement that a keyword or a brace begins. -/
def keywordStatement (inner : Inner) : Rule (Statement .parsed) := fun scope s =>
  match keywordStatement? inner (scope.lexemes.kindAt s.position) with
  | some parser => Rule.ofParser parser scope s
  | none => (.emptyErr ∅ s.position, s)

/-- The place in a modifier where the modified function runs: `_` and a semicolon. -/
def placeholder : Rule (Statement .parsed) :=
  Rule.provided (fun lexemes index =>
      lexemes.isWordAt index "_" && lexemes.kindAt (index + 1) == .semicolon) <|
    Rule.taking fun start _ => do
      advance
      return .placeholder (← extentFrom start)

/-- An error raised by name. A call of `revert` is an expression. -/
def revertStatement (inner : Inner) : Rule (Statement .parsed) :=
  Rule.provided (fun lexemes index =>
      lexemes.isWordAt index "revert" && lexemes.kindAt (index + 1) == .ident) <|
    Rule.ofParser (prefixedExpression inner fun place error => .revert place error)

/-- A statement. -/
def statement (inner : Inner) : Rule (Statement .parsed) :=
  Rule.named .statement <| Rule.firstOf
    [keywordStatement inner, placeholder, revertStatement inner, declarationAttempt inner,
      Rule.ofParser (expressionStatement inner)]

end SolidityParser.Grammar
