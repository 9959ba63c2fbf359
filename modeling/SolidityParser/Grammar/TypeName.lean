import SolidityParser.Grammar.Parser
import SolidityParser.Tree.Statement

/-!
# Type names

The grammar is recursive: an array type holds an expression, an expression may hold a type. The
rules of one nesting level are therefore functions of the rules of the level within, `Inner`; every
use of an inner rule comes after a token of its own level. This file holds the rules for type
names and parameters.
-/

namespace SolidityParser

/-- The rules that a construct uses for what is nested in it. -/
structure Inner where
  /-- An expression. -/
  expression : Parser (Expression Extent)
  /-- An expression that failures are not reported under the name of. -/
  assignment : Parser (Expression Extent)
  /-- An operand of `**` and the powers to its right. -/
  power : Parser (Expression Extent)
  /-- An operand with the operators before it. -/
  unary : Parser (Expression Extent)
  /-- The name of a type. -/
  typeName : Rule (TypeName Extent)
  /-- A statement. -/
  statement : Rule (Statement .parsed)

namespace Grammar

open SolidityParser.Parser

/-! ## Names of built-in types -/

/-- The built-in types without a size. -/
def sizelessTypes : List (List Char) :=
  ["address", "bool", "string", "bytes", "byte", "var", "int", "uint", "fixed", "ufixed"].map
    (·.toList)

/-- Is this `word` followed by a size, a number in decimal? -/
def isSized (word name : List Char) : Bool :=
  word.isPrefixOf name &&
    (let size := name.drop word.length
     !size.isEmpty && size.all Char.isDigit)

/-- Is this `word` followed by a digit, and then digits and the letter `x` only? -/
def isFixedSized (word name : List Char) : Bool :=
  word.isPrefixOf name &&
    match name.drop word.length with
    | [] => false
    | c :: cs => c.isDigit && cs.all fun c => c.isDigit || c == 'x'

/-- Is this the name of a built-in type? -/
def isElementaryText (name : List Char) : Bool :=
  sizelessTypes.contains name || isSized ['u', 'i', 'n', 't'] name ||
    isSized ['i', 'n', 't'] name || isSized ['b', 'y', 't', 'e', 's'] name ||
    isFixedSized ['u', 'f', 'i', 'x', 'e', 'd'] name || isFixedSized ['f', 'i', 'x', 'e', 'd'] name

/-- Is this the name of a built-in type? -/
def isElementary (name : String) : Bool := isElementaryText name.toList

/-! ## Attributes -/

/-- A visibility keyword, if one stands here. A miss is not reported. -/
def visibility? : Parser (Option Visibility) := do
  let visibility := Visibility.ofKind? (← kind)
  if visibility.isSome then advance
  return visibility

/-- A keyword for the state mutability, if one stands here. A miss is not reported. -/
def mutability? : Parser (Option StateMutability) := do
  let mutability := StateMutability.ofKind? (← kind)
  if mutability.isSome then advance
  return mutability

/-- A data location, if one stands here. -/
def location? : Parser (Option StorageLocation) := do
  if ← eat .kwMemory then return some .memory
  if ← eat .kwStorage then return some .storage
  if ← eat .kwCalldata then return some .calldata
  return none

/-- The word `payable` after the type `name`, where that is `address`. -/
def payableAfter (name : String) : Parser Bool :=
  if name = "address" then eat .kwPayable else return false

/-! ## Parameters -/

/-- A type, a data location, `indexed` where that is allowed, and a name; all but the type may be
missing. -/
def parameter (typeName : Rule (TypeName Extent)) (allowIndexed : Bool) :
    Parser (Parameter Extent) :=
  named .parameter do
    let start ← position
    let type ← typeName.finish
    let location ← location?
    let indexed ← if allowIndexed then eat .kwIndexed else pure false
    let name ← eatIdent
    return .mk (← extentFrom start) type location name indexed

/-- Parameters between parentheses. -/
def parameters (typeName : Rule (TypeName Extent)) (allowIndexed : Bool := false) :
    Parser (List (Parameter Extent)) := do
  expect .lparen
  within .parameters (series .rparen (parameter typeName allowIndexed))

/-- Parameters after `returns`, if it stands here. -/
def returns? (typeName : Rule (TypeName Extent)) : Parser (Option (List (Parameter Extent))) := do
  if ← eat .kwReturns then return some (← parameters typeName)
  return none

/-! ## Type names -/

/-- The points and names that follow the first name of a path, as long as each point has a name
after it. -/
def pathTail (path : String) : Parser String :=
  iterate (fun path => do
    if (← kind) = .dot ∧ (← kindAhead 1) = .ident then
      advance
      let name ← text
      advance
      return some (path ++ "." ++ name)
    return none) path

/-- A built-in type, or the path of a declared one. -/
def namedType : Rule (TypeName Extent) :=
  Rule.opening .ident <| Rule.taking fun start name => do
    if isElementary name then
      let payable ← payableAfter name
      return .elementary (← extentFrom start) name payable
    let path ← pathTail name
    return .userDefined (← extentFrom start) path

/-- A mapping from one type to another, each with a name or without. -/
def mappingType (inner : Inner) : Rule (TypeName Extent) :=
  Rule.opening .kwMapping <| Rule.taking fun start _ => do
    expect .lparen
    let key ← inner.typeName.finishIn (some .typeName)
    let keyName ← eatIdent
    expect .fatArrow
    let value ← inner.typeName.finishIn (some .typeName)
    let valueName ← eatIdent
    expect .rparen
    return .mapping (← extentFrom start) key keyName value valueName

/-- The visibility and mutability of a function type, in any order; of several, the last counts. -/
def functionTypeAttributes : Parser (Option Visibility × Option StateMutability) :=
  iterate (fun (visibility, mutability) => do
    if let some found ← visibility? then return some (some found, mutability)
    if let some found ← mutability? then return some (visibility, some found)
    return none) (none, none)

/-- The type of a function. -/
def functionType (inner : Inner) : Rule (TypeName Extent) :=
  Rule.opening .kwFunction <| Rule.taking fun start _ => do
    let given ← parameters inner.typeName
    let (visibility, mutability) ← functionTypeAttributes
    let returns ← returns? inner.typeName
    return .function (← extentFrom start) given (returns.getD []) visibility mutability

/-- The array type that begins at `start`, after its opening bracket. -/
def arrayRest (inner : Inner) (start : Nat) (base : TypeName Extent) :
    Parser (Option (TypeName Extent)) := do
  if ← eat .rbracket then
    return some (.array (← extentFrom start) base none)
  let length ← inner.expression
  expect .rbracket
  return some (.array (← extentFrom start) base (some length))

/-- One more pair of brackets after a type. -/
def nextArray? (inner : Inner) (start : Nat) (base : TypeName Extent) :
    Parser (Option (TypeName Extent)) := do
  if (← kind) = .lbracket then
    advance
    arrayRest inner start base
  else return none

/-- The brackets that make an array type, and an array of those, of the type before them, which
began at `start`. There may be none; the outcome is that of the whole type, and tells that input was
consumed all the same. -/
def arraySuffixes (inner : Inner) (start : Nat) (base : TypeName Extent) : Rule (TypeName Extent) :=
  Rule.decided (iterate (nextArray? inner start) base)

/-- The name of a type. -/
def typeName (inner : Inner) : Rule (TypeName Extent) :=
  Rule.named .typeName <|
    (Rule.firstOf [namedType, mappingType inner, functionType inner]).followedBy
      (arraySuffixes inner)

end Grammar

end SolidityParser
