import SolidityParser.Grammar.TypeName
import SolidityParser.Literal.Quoted

/-!
# Expressions

From the loosest to the tightest: assignments and choices, which group to the right; ten levels of
binary operators that group to the left; powers, which group to the right; operators before an
operand; what follows an operand; and operands. A token that does not continue an expression is not
reported as a failure, so messages name what a construct lacks and not every operator.
-/

namespace SolidityParser.Grammar

open SolidityParser.Parser

/-! ## Operands -/

/-- A name. -/
def identifier : Parser (Expression Extent) := do
  let start ← position
  let name ← text
  advance
  return .identifier (Extent.single start) name

/-- A unit after a number, if one stands here. A miss is not reported. -/
def numberUnit? : Parser (Option String) := do
  let word ← text
  if (← kind) = .ident ∧ isNumberUnit word then
    advance
    return some word
  return none

/-- A number, with its unit if it has one. -/
def number : Parser (Expression Extent) := do
  let start ← position
  let raw ← text
  advance
  let unit ← numberUnit?
  return .number (← extentFrom start) (NumberValue.ofLiteral raw) raw unit

/-- Adjacent strings, as one; the kind is that of the first. -/
def string : Parser (Expression Extent) := do
  let start ← position
  let first ← text
  advance
  let value ← iterate (fun value => do
    if (← kind).isString then
      let more ← text
      advance
      return some (value ++ Quoted.valueOf more)
    return none) (Quoted.valueOf first)
  return .string (← extentFrom start) value (Quoted.kindOf first)

/-- A truth value. -/
def boolean (value : Bool) : Parser (Expression Extent) := do
  let start ← position
  advance
  return .boolean (Extent.single start) value

/-- A component of a tuple; one of parentheses may be missing, one of brackets may not. -/
def component (inner : Inner) (isArray : Bool) : Parser (Option (Expression Extent)) := do
  let here ← kind
  if !isArray ∧ (here = .comma ∨ here = .rparen) then return none
  return some (← inner.expression)

/-- A tuple in parentheses, or an array in brackets. -/
def tuple (inner : Inner) (isArray : Bool) : Parser (Expression Extent) := do
  let start ← position
  advance
  let close : Kind := if isArray then .rbracket else .rparen
  let components ← series close (component inner isArray)
  return .tuple (← extentFrom start) components isArray

/-- The word `new` and the name of a type; arguments follow as in a call. -/
def newExpression (inner : Inner) : Parser (Expression Extent) := do
  let start ← position
  advance
  let type ← within .typeName inner.typeName.finish
  return .new (← extentFrom start) type

/-- An operand. The words `payable` and `type` are names where they are called. -/
def operand (inner : Inner) : Parser (Expression Extent) := do
  match ← kind with
  | .ident => identifier
  | .number | .hexNumber => number
  | .string | .hexString | .unicodeString => string
  | .kwTrue => boolean true
  | .kwFalse => boolean false
  | .lparen => tuple inner false
  | .lbracket => tuple inner true
  | .kwNew => newExpression inner
  | here =>
    if (here = .kwPayable ∨ here = .kwType) ∧ (← kindAhead 1) = .lparen then identifier
    else
      reportRule .expression
      within .expression fail

/-! ## What follows an operand -/

/-- Arguments by name, up to and including the closing brace. -/
def namedArguments (inner : Inner) : Parser (List (NamedArgument Extent)) :=
  series .rbrace do
    let name ← expectIdent
    expect .colon
    let value ← inner.expression
    return .mk (name.place.upTo value.place) name.name value

/-- A point and the name of a member. -/
def member (object : Expression Extent) : Parser (Expression Extent) := do
  advance
  let property ← expectIdent
  return .member (object.place.upTo property.place) object property

/-- A bound of a range, unless a token of kind `close` stands in its place. -/
def bound? (inner : Inner) (close : Kind) : Parser (Option (Expression Extent)) := do
  if (← kind) = close then return none
  return some (← inner.expression)

/-- Brackets after an operand: a subscript, a range, or nothing. -/
def subscript (inner : Inner) (object : Expression Extent) : Parser (Expression Extent) := do
  let start := object.place.first
  advance
  if ← eat .rbracket then return .index (← extentFrom start) object none
  let first ← bound? inner .colon
  if ← eat .colon then
    let last ← bound? inner .rbracket
    expect .rbracket
    return .slice (← extentFrom start) object first last
  expect .rbracket
  return .index (← extentFrom start) object first

/-- The arguments of a call, up to and including the closing parenthesis. -/
def arguments (inner : Inner) : Parser (Arguments Extent) := do
  if (← kind) = .lbrace then
    advance
    let values ← namedArguments inner
    expect .rparen
    return .named values
  return .positional (← within .arguments (series .rparen inner.expression))

/-- A call. -/
def call (inner : Inner) (callee : Expression Extent) : Parser (Expression Extent) := do
  advance
  let given ← arguments inner
  return .call (← extentFrom callee.place.first) callee given

/-- Options for a call. -/
def callOptions (inner : Inner) (callee : Expression Extent) : Parser (Expression Extent) := do
  advance
  let options ← namedArguments inner
  return .callOptions (← extentFrom callee.place.first) callee options

/-- An operator after its operand. -/
def trailingOperator (operator : UnaryOp) (argument : Expression Extent) :
    Parser (Expression Extent) := do
  advance
  return .unary (← extentFrom argument.place.first) operator false argument

/-- One thing that follows an operand, if anything does. A brace follows it only if a name and a
colon come next; any other brace begins a block. -/
def suffix? (inner : Inner) (object : Expression Extent) :
    Parser (Option (Expression Extent)) := do
  match ← kind with
  | .dot => return some (← member object)
  | .lbracket => return some (← subscript inner object)
  | .lparen => return some (← call inner object)
  | .lbrace =>
    if (← kindAhead 1) = .ident ∧ (← kindAhead 2) = .colon then
      return some (← callOptions inner object)
    return none
  | here =>
    match UnaryOp.trailing? here with
    | some operator => return some (← trailingOperator operator object)
    | none => return none

/-- An operand with all that follows it. -/
def postfixed (inner : Inner) : Parser (Expression Extent) := do
  iterate (suffix? inner) (← operand inner)

/-! ## Operators -/

/-- An operand with the operators before it. -/
def unary (inner : Inner) : Parser (Expression Extent) := do
  match UnaryOp.leading? (← kind) with
  | none => postfixed inner
  | some operator =>
    let start ← position
    advance
    let argument ← inner.unary
    return .unary ⟨start, argument.place.next⟩ operator true argument

/-- The application of a binary operator. -/
def applied (operator : BinaryOp) (left right : Expression Extent) : Expression Extent :=
  .binary (left.place.upTo right.place) operator left right

/-- An operand and the powers to its right. -/
def power (inner : Inner) : Parser (Expression Extent) := do
  let base ← unary inner
  if (← kind) = .starStar then
    advance
    return applied .pow base (← inner.power)
  return base

/-- Operands with binary operators of the levels below `level` between. -/
def binary (inner : Inner) : Nat → Parser (Expression Extent)
  | 0 => power inner
  | level + 1 => do
    let first ← binary inner level
    iterate (fun left => do
      match BinaryOp.ofKind? level (← kind) with
      | none => return none
      | some operator =>
        advance
        return some (applied operator left (← binary inner level))) first

/-- A choice between two expressions, or an expression of binary operators. -/
def conditional (inner : Inner) : Parser (Expression Extent) := do
  let test ← binary inner BinaryOp.levels
  if (← kind) = .question then
    advance
    let consequent ← inner.assignment
    expect .colon
    let alternate ← inner.assignment
    return .conditional (test.place.upTo alternate.place) test consequent alternate
  return test

/-- An assignment, or what may stand on its left. -/
def assignment (inner : Inner) : Parser (Expression Extent) := do
  let left ← conditional inner
  match AssignOp.ofKind? (← kind) with
  | none => return left
  | some operator =>
    advance
    let right ← inner.assignment
    return .assignment (left.place.upTo right.place) operator left right

/-- An expression. -/
def expression (inner : Inner) : Parser (Expression Extent) :=
  named .expression (assignment inner)

end SolidityParser.Grammar
