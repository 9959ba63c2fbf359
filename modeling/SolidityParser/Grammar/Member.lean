import SolidityParser.Grammar.Statement
import SolidityParser.Tree.Declaration

/-!
# Members of contracts

Every member begins with a keyword that decides which it is, but for state variables, which begin
with a type and are attempted when nothing else fits. `error`, `receive` and `fallback` are keywords
only where the next token says so.
-/

namespace SolidityParser.Grammar

open SolidityParser.Parser

/-! ## Rules that a keyword decides -/

/-- What begins with a keyword, as a rule. -/
def keywordRule {α : Type} (keyword : Kind) (construct : Construct) (parser : Parser α) : Rule α :=
  (Rule.opening keyword (Rule.ofParser parser)).within construct

/-- What begins with an identifier that is a keyword before a token of kind `next`. -/
def wordRule {α : Type} (word : String) (next : Kind) (construct : Construct)
    (parser : Parser α) : Rule α :=
  Rule.provided
    (fun lexemes index => lexemes.isWordAt index word && lexemes.kindAt (index + 1) == next)
    ((Rule.ofParser parser).within construct)

/-! ## Paths, arguments and attributes -/

/-- Names with points between; each point needs a name after it. -/
def namePath : Parser (NamePath Extent) := do
  let first ← expectIdent
  let path ← iterate (fun path => do
    if (← kind) = .dot then
      advance
      let name ← expectIdent
      return some (path ++ "." ++ name.name)
    return none) first.name
  return ⟨← extentFrom first.place.first, path⟩

/-- Arguments between parentheses, if there are any. -/
def arguments? (inner : Inner) : Parser (Option (List (Expression Extent))) := do
  if ← eat .lparen then some <$> within .arguments (series .rparen inner.expression)
  else return none

/-- A path with arguments or without. -/
def invocation (inner : Inner) : Parser (Invocation Extent) := do
  let path ← namePath
  let given ← arguments? inner
  return ⟨← extentFrom path.place.first, path.path, given⟩

/-- The bases named after `override`, in parentheses; none if there are no parentheses. -/
def overrideList : Parser (List (NamePath Extent)) := do
  if ← eat .lparen then series .rparen namePath else return []

/-- One attribute of a function, if one stands here, set among those before it. -/
def functionAttribute? (inner : Inner) (attributes : FunctionAttributes Extent) :
    Parser (Option (FunctionAttributes Extent)) := do
  if let some visibility ← visibility? then
    return some { attributes with visibility := some visibility }
  if let some mutability ← mutability? then
    return some { attributes with mutability := some mutability }
  if ← eat .kwVirtual then
    return some { attributes with isVirtual := true }
  if ← eat .kwOverride then
    let bases ← overrideList
    return some { attributes with overrides := some bases }
  if (← kind) = .ident then
    let modifier ← invocation inner
    return some { attributes with modifiers := attributes.modifiers ++ [modifier] }
  return none

/-- The attributes of a function, in any order; of several visibilities, mutabilities or overrides,
the last counts. -/
def functionAttributes (inner : Inner) : Parser (FunctionAttributes Extent) :=
  iterate (functionAttribute? inner) {}

/-! ## Functions -/

/-- The body of a function. -/
def functionBody (inner : Inner) : Parser (Block .parsed) := inBody (block inner.statement)

/-- The body of a function, or a semicolon where it is only declared. -/
def bodyOrSemicolon (inner : Inner) : Parser (Option (Block .parsed)) := do
  if ← eat .semicolon then return none
  some <$> functionBody inner

/-- What follows the name of a function. -/
def functionRest (inner : Inner) (start : Nat) (name : String) :
    Parser (FunctionDeclaration .parsed) := do
  let given ← parameters inner.typeName
  let attributes ← functionAttributes inner
  let returns ← returns? inner.typeName
  let body ← bodyOrSemicolon inner
  return ⟨← extentFrom start, name, given, returns, attributes, body⟩

/-- What follows the word that begins a fallback function. -/
def fallbackRest (inner : Inner) (start : Nat) : Parser (FallbackFunction .parsed) := do
  let given ← parameters inner.typeName
  let attributes ← functionAttributes inner
  let returns ← returns? inner.typeName
  let body ← bodyOrSemicolon inner
  return ⟨← extentFrom start, given, returns, attributes, body⟩

/-- A function with a name, or a fallback function without. -/
def contractFunction (inner : Inner) : Rule (ContractPart .parsed) :=
  keywordRule .kwFunction .functionDef do
    let start ← position
    advance
    if (← kind) = .lparen then return .fallback (← fallbackRest inner start)
    let name ← expectIdent
    return .function (← functionRest inner start name.name)

/-- A function at file level, which has a name. -/
def freeFunction (inner : Inner) : Rule (FunctionDeclaration .parsed) :=
  keywordRule .kwFunction .functionDef do
    let start ← position
    advance
    let name ← expectIdent
    functionRest inner start name.name

/-- A constructor. -/
def constructorFunction (inner : Inner) : Rule (Constructor .parsed) :=
  keywordRule .kwConstructor .functionDef do
    let start ← position
    advance
    let given ← parameters inner.typeName
    let attributes ← functionAttributes inner
    let body ← functionBody inner
    return ⟨← extentFrom start, given, attributes.modifiers, attributes.visibility,
      attributes.mutability, body⟩

/-- A receiving function, which has no parameters. -/
def receiveFunction (inner : Inner) : Rule (ReceiveFunction .parsed) :=
  wordRule "receive" .lparen .functionDef do
    let start ← position
    advance
    expect .lparen
    expect .rparen
    let attributes ← functionAttributes inner
    let body ← bodyOrSemicolon inner
    return ⟨← extentFrom start, attributes, body⟩

/-- A fallback function. -/
def fallbackFunction (inner : Inner) : Rule (FallbackFunction .parsed) :=
  wordRule "fallback" .lparen .functionDef do
    let start ← position
    advance
    fallbackRest inner start

/-- The attributes of a modifier: may it be overridden, and what does it override? -/
def modifierAttributes : Parser (Bool × Option (List (NamePath Extent))) :=
  iterate (fun (isVirtual, overrides) => do
    if ← eat .kwVirtual then return some (true, overrides)
    if ← eat .kwOverride then
      let bases ← overrideList
      return some (isVirtual, some bases)
    return none) (false, none)

/-- A modifier. -/
def modifierDeclaration (inner : Inner) : Rule (ModifierDeclaration .parsed) :=
  keywordRule .kwModifier .modifierDef do
    let start ← position
    advance
    let name ← expectIdent
    let given ← parametersIfOpen inner
    let (isVirtual, overrides) ← modifierAttributes
    let body ← bodyOrSemicolon inner
    return ⟨← extentFrom start, name.name, given, isVirtual, overrides, body⟩

/-! ## Other declarations -/

/-- An event, whose parameters may be indexed. -/
def eventDefinition (inner : Inner) : Rule (EventDefinition Extent) :=
  keywordRule .kwEvent .eventDef do
    let start ← position
    advance
    let name ← expectIdent
    let given ← parameters inner.typeName true
    let isAnonymous ← eatWord "anonymous"
    expect .semicolon
    return ⟨← extentFrom start, name.name, given, isAnonymous⟩

/-- An error. -/
def errorDefinition (inner : Inner) : Rule (ErrorDefinition Extent) :=
  wordRule "error" .ident .errorDef do
    let start ← position
    advance
    let name ← expectIdent
    let given ← parameters inner.typeName
    expect .semicolon
    return ⟨← extentFrom start, name.name, given⟩

/-- The next member of a struct, or none at the closing brace, which is consumed. -/
def structMember? (inner : Inner) : Parser (Option (VariableDeclaration Extent)) := do
  if ← eat .rbrace then return none
  let member ← variableDeclaration inner
  expect .semicolon
  return some member

/-- A struct. -/
def structDefinition (inner : Inner) : Rule (StructDefinition Extent) :=
  keywordRule .kwStruct .structDef do
    let start ← position
    advance
    let name ← expectIdent
    expect .lbrace
    let members ← collect (structMember? inner)
    return ⟨← extentFrom start, name.name, members⟩

/-- An enumeration. -/
def enumDefinition : Rule (EnumDefinition Extent) :=
  keywordRule .kwEnum .enumDef do
    let start ← position
    advance
    let name ← expectIdent
    expect .lbrace
    let members ← series .rbrace expectIdent
    return ⟨← extentFrom start, name.name, members⟩

/-- The functions that a directive attaches: those of a library, or those listed. -/
def attachedFunctions : Parser (Option String × List String) := do
  if ← eat .lbrace then
    let functions ← series .rbrace namePath
    return (none, functions.map (·.path))
  let library ← namePath
  return (some library.path, [])

/-- The type that functions are attached to, or none for a star. -/
def attachedType (inner : Inner) : Parser (Option (TypeName Extent)) := do
  if ← eat .star then return none
  some <$> inner.typeName.finish

/-- Functions attached to a type. -/
def usingDirective (inner : Inner) : Rule (UsingDirective Extent) :=
  keywordRule .kwUsing .usingDirective do
    let start ← position
    advance
    let (library, functions) ← attachedFunctions
    expect .kwFor
    let target ← attachedType inner
    let isGlobal ← eatWord "global"
    expect .semicolon
    return ⟨← extentFrom start, library, functions, target, isGlobal⟩

/-- The name of a built-in type, with its place and whether it is payable. -/
def elementaryType : Parser (Identifier Extent × Bool) := do
  let start ← position
  let name ← text
  if (← kind) = .ident ∧ isElementary name then
    advance
    let payable ← payableAfter name
    return (⟨← extentFrom start, name⟩, payable)
  reportRule .typeName
  fail

/-- A new name for a built-in type. The word `type` begins an expression unless a name follows. -/
def valueTypeDefinition : Rule (ValueTypeDefinition Extent) :=
  Rule.provided
    (fun lexemes index => lexemes.kindAt index != .kwType || lexemes.kindAt (index + 1) == .ident)
    <| keywordRule .kwType .typeName do
      let start ← position
      advance
      let name ← expectIdent
      expect .kwIs
      let (base, payable) ← elementaryType
      expect .semicolon
      return ⟨← extentFrom start, name.name, base.place, base.name, payable⟩

/-! ## State variables -/

/-- The attributes of a state variable. -/
structure VariableAttributes where
  /-- Who may read it. -/
  visibility : Option Visibility := none
  /-- Is it a constant? -/
  isConstant : Bool := false
  /-- Is it set by the constructor only? -/
  isImmutable : Bool := false
  /-- What its reading function overrides. -/
  overrides : Option (List (NamePath Extent)) := none

/-- One attribute of a state variable, if one stands here, set among those before it. -/
def variableAttribute? (attributes : VariableAttributes) : Parser (Option VariableAttributes) := do
  if let some visibility ← visibility? then
    return some { attributes with visibility := some visibility }
  if ← eat .kwConstant then
    return some { attributes with isConstant := true }
  if ← eat .kwImmutable then
    return some { attributes with isImmutable := true }
  if ← eat .kwOverride then
    let bases ← overrideList
    return some { attributes with overrides := some bases }
  return none

/-- A value after an equals sign, if there is one. -/
def initialValue? (inner : Inner) : Parser (Option (Expression Extent)) := do
  if ← eat .eq then some <$> inner.expression else return none

/-- A state variable, as something that can be taken back. -/
def stateVariable (inner : Inner) : Rule (StateVariable Extent) :=
  Rule.attempt <| Rule.ofParser <| within .stateVariable do
    let start ← position
    let type ← inner.typeName.finish
    let attributes ← iterate variableAttribute? {}
    let name ← expectIdent
    let value ← initialValue? inner
    expect .semicolon
    return ⟨← extentFrom start, type, name.name, attributes.visibility, attributes.isConstant,
      attributes.isImmutable, attributes.overrides, value⟩

/-! ## Members -/

/-- A member of a contract. A function without a name may be the type of a variable; that is
attempted before it is taken for a fallback function. -/
def contractPart (inner : Inner) : Rule (ContractPart .parsed) :=
  Rule.named .contractMember <| Rule.firstOf
    [Rule.provided
        (fun lexemes index =>
          lexemes.kindAt index == .kwFunction && lexemes.kindAt (index + 1) == .lparen)
        ((stateVariable inner).map .stateVariable),
      contractFunction inner,
      (constructorFunction inner).map .constructor,
      (receiveFunction inner).map .receive,
      (fallbackFunction inner).map .fallback,
      (modifierDeclaration inner).map .modifier,
      (eventDefinition inner).map .event,
      (errorDefinition inner).map .error,
      (structDefinition inner).map .struct,
      enumDefinition.map .enumeration,
      (usingDirective inner).map .usingDirective,
      valueTypeDefinition.map .valueType,
      (stateVariable inner).map .stateVariable]

end SolidityParser.Grammar
