import SolidityParser.Grammar.Parser
import SolidityParser.Tree.Statement

/-!
# Skipping broken statements

A statement in the body of a function that cannot be read is skipped, where that is asked for, up to
the next place from which parsing can go on: the brace that closes the block, the start of a member
of the contract, or a statement that parses. What was skipped is kept as an incomplete statement,
and the failures met in it are taken off the record.
-/

namespace SolidityParser.Grammar

open SolidityParser.Parser

/-! ## Where members begin -/

/-- The kinds that begin a member of a contract, or a unit of a source, and no statement. -/
def beginsMember (kind : Kind) : Bool :=
  kind matches .kwConstructor | .kwModifier | .kwEvent | .kwStruct | .kwEnum | .kwUsing
    | .kwContract | .kwInterface | .kwLibrary | .kwAbstract | .kwPragma | .kwImport

/-- The kinds of the attributes of functions. -/
def isAttribute (kind : Kind) : Bool :=
  kind matches .kwPublic | .kwPrivate | .kwInternal | .kwExternal | .kwPure | .kwView | .kwPayable
    | .kwConstant | .kwVirtual | .kwOverride

/-- Does a member of a contract, or a unit of a source, begin at an index? A function does if it has
a name, since a function without one may be a type; `receive`, `fallback` and `error` count only
where the tokens after them say so. -/
def atMember (lexemes : Lexemes) (index : Nat) : Bool :=
  let kind (n : Nat) : Kind := lexemes.kindAt (index + n)
  match kind 0 with
  | .kwFunction => kind 1 == .ident
  | .ident =>
    match lexemes.textAt index with
    | "receive" | "fallback" => kind 1 == .lparen && kind 2 == .rparen && isAttribute (kind 3)
    | "error" => kind 1 == .ident && kind 2 == .lparen
    | _ => false
  | here => beginsMember here

/-- Does a member begin here, in a block whose broken statements are skipped? -/
def cutShort : Parser Bool := fun scope s =>
  .ok (scope.recovers && atMember scope.lexemes s.position) s

/-! ## Skipping -/

/-- How many braces and parentheses are open; a closing one too many counts for nothing. -/
structure OpenBrackets where
  /-- Open braces. -/
  braces : Nat := 0
  /-- Open parentheses. -/
  parens : Nat := 0

/-- The open brackets after one more token. -/
def OpenBrackets.after (brackets : OpenBrackets) : Kind → OpenBrackets
  | .lbrace => { brackets with braces := brackets.braces + 1 }
  | .rbrace => { brackets with braces := brackets.braces - 1 }
  | .lparen => { brackets with parens := brackets.parens + 1 }
  | .rparen => { brackets with parens := brackets.parens - 1 }
  | _ => brackets

/-- Does a statement parse from here? Nothing is consumed, and no failure recorded. -/
def parsesHere {α : Type} (statement : Rule α) : Parser Bool := fun scope s =>
  .ok (statement.attempt scope s).1.isOk s

/-- Is the token after a skipped one of kind `last` a place to go on from? -/
def resumes {α : Type} (statement : Rule α) (last : Kind) (brackets : OpenBrackets) :
    Parser Bool := fun scope s =>
  let here := scope.lexemes.kindAt s.position
  if 0 < brackets.braces then .ok (here == .eof) s
  else if here = .rbrace ∨ here = .eof ∨ atMember scope.lexemes s.position then .ok true s
  else if (last = .semicolon ∨ last = .rbrace) ∧ brackets.parens = 0 then
    parsesHere statement scope s
  else .ok false s

/-- Skips one token, and gives the open brackets if more are to be skipped. -/
def skipToken {α : Type} (statement : Rule α) (brackets : OpenBrackets) :
    Parser (Option OpenBrackets) := do
  let last ← kind
  let brackets := brackets.after last
  advance
  if ← resumes statement last brackets then return none
  return some brackets

/-- Skips tokens until one is a place to go on from, at most `fuel` of them. -/
def skipAtFuel {α : Type} (statement : Rule α) : Nat → OpenBrackets → Parser Unit
  | 0, _ => fail
  | fuel + 1, brackets => do
    match ← skipToken statement brackets with
    | none => return ()
    | some brackets => skipAtFuel statement fuel brackets

/-- Skips a statement that failed to parse, its first token in any case, and gives what was skipped;
nothing at the end of the input. -/
def skipIncomplete {α : Type} (statement : Rule α) : Parser (Option Extent) := do
  if (← kind) = .eof then return none
  let start ← position
  skipAtFuel statement (← budget) {}
  return some (← extentFrom start)

/-! ## Blocks -/

/-- A statement of a block, or what is skipped in its place. -/
def statementOrSkipped (statement : Rule (Statement .parsed)) : Parser (Statement .parsed) :=
  fun scope s =>
    match statement.finish scope s with
    | .ok value t => .ok value t
    | .error fault t =>
      if scope.recovers then
        match skipIncomplete statement scope { t with position := s.position } with
        | .ok (some skipped) u => .ok (.incomplete skipped) { u with trail := s.trail }
        | .ok none u => .error fault u
        | .error fault u => .error fault u
      else .error fault t

/-- The next statement of a block, or none at its end: after the closing brace, which is consumed,
or before a member that cuts the block short. -/
def blockItem (statement : Rule (Statement .parsed)) : Parser (Option (Statement .parsed)) := do
  if ← eat .rbrace then return none
  if ← cutShort then return none
  return some (← statementOrSkipped statement)

/-- Statements between braces. -/
def block (statement : Rule (Statement .parsed)) : Parser (Block .parsed) := do
  let start ← position
  expect .lbrace
  let body ← collect (blockItem statement)
  return .mk (← extentFrom start) body

end SolidityParser.Grammar
