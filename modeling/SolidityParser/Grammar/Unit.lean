import SolidityParser.Grammar.Member

/-!
# Units of a source

Pragmas, imports, contracts, and the declarations that may stand at file level. A constant is the
only unit that begins with a type, and is attempted when nothing else fits.
-/

namespace SolidityParser.Grammar

open SolidityParser.Parser

/-! ## Pragmas -/

/-- The tokens up to a semicolon or the end of the input. -/
def skipToSemicolon : Parser Unit := do
  let _ ← iterate (fun _ : Unit => do
    let here ← kind
    if here = .semicolon ∨ here = .eof then return none
    advance
    return some ()) ()

/-- The feature that a pragma turns on, as a name or a string. -/
def feature : Parser String := do
  let name ← text
  if ← eat .ident then return name
  expectString

/-- A pragma: its name decides whether what follows is read, or kept as a passage. -/
def pragmaDirective : Rule (SourceUnit .parsed) :=
  keywordRule .kwPragma .pragma do
    let start ← position
    advance
    let name ← expectIdent
    match name.name with
    | "abicoder" =>
      let version ← expectIdent
      expect .semicolon
      return .coderPragma ⟨← extentFrom start, version⟩
    | "experimental" =>
      let feature ← feature
      expect .semicolon
      return .experimentalPragma ⟨← extentFrom start, feature⟩
    | name =>
      let valueStart ← position
      skipToSemicolon
      let value ← extentFrom valueStart
      expect .semicolon
      return .pragma ⟨← extentFrom start, name, value⟩

/-! ## Imports -/

/-- A name after `as`, if there is one. -/
def newName? : Parser (Option String) := do
  if ← eat .kwAs then
    let name ← expectIdent
    return some name.name
  return none

/-- A name that is imported, and the name it gets. -/
def importSymbol : Parser (ImportSymbol Extent) := do
  let name ← expectIdent
  let newName ← newName?
  return ⟨← extentFrom name.place.first, name.name, newName⟩

/-- What an import takes from its source, where that is said first: all of it under one name, or
names that are listed. -/
def importedNames : Parser (Option String × Option (List (ImportSymbol Extent))) := do
  if ← eat .star then
    expect .kwAs
    let name ← expectIdent
    return (some name.name, none)
  if ← eat .lbrace then
    return (none, some (← series .rbrace importSymbol))
  fail

/-- An import. -/
def importDirective : Rule (ImportDirective Extent) :=
  keywordRule .kwImport .importDirective do
    let start ← position
    advance
    if ← check .string then
      let path ← expectString
      let newName ← newName?
      expect .semicolon
      return ⟨← extentFrom start, path, newName, none⟩
    let (newName, symbols) ← importedNames
    expectWord "from"
    let path ← expectString
    expect .semicolon
    return ⟨← extentFrom start, path, newName, symbols⟩

/-! ## Contracts -/

/-- The keywords that begin a contract. -/
def contractKeywords : List Kind := [.kwAbstract, .kwContract, .kwInterface, .kwLibrary]

/-- Which kind of contract this is. -/
def contractKind : Parser ContractKind := do
  if ← eat .kwContract then return .contract
  if ← eat .kwInterface then return .interface
  if ← eat .kwLibrary then return .library
  fail

/-- The bases of a contract, if any are named. -/
def bases (inner : Inner) : Parser (List (Invocation Extent)) := do
  if ← eat .kwIs then separated (invocation inner) else return []

/-- The next member of a contract, or none at the closing brace, which is consumed. -/
def nextPart? (inner : Inner) : Parser (Option (ContractPart .parsed)) := do
  if ← eat .rbrace then return none
  some <$> (contractPart inner).finish

/-- A contract, from its first keyword on. -/
def contractBody (inner : Inner) : Parser (Contract .parsed) := do
  let start ← position
  let isAbstract ← eat .kwAbstract
  let kind ← contractKind
  let name ← expectIdent
  let bases ← bases inner
  expect .lbrace
  let body ← collect (nextPart? inner)
  return ⟨← extentFrom start, name.name, kind, isAbstract, bases, body⟩

/-- A contract, interface or library. -/
def contract (inner : Inner) : Rule (Contract .parsed) := fun scope s =>
  if contractKeywords.contains (scope.lexemes.kindAt s.position) then
    (Rule.ofParser (contractBody inner)).within .contract scope s
  else
    let missed (trail : Trail) (kind : Kind) : Trail := trail.addToken s.position kind
    (.emptyErr (TokenSet.ofList contractKeywords) s.position,
      { s with trail := contractKeywords.foldl missed s.trail })

/-! ## Constants -/

/-- A constant at file level, as something that can be taken back. -/
def fileConstant (inner : Inner) : Rule (FileConstant Extent) :=
  Rule.attempt <| Rule.ofParser do
    let start ← position
    let type ← inner.typeName.finish
    expect .kwConstant
    let name ← expectIdent
    expect .eq
    let value ← inner.expression
    expect .semicolon
    return ⟨← extentFrom start, type, name.name, value⟩

/-! ## Units -/

/-- A unit of a source. -/
def sourceUnit (inner : Inner) : Rule (SourceUnit .parsed) :=
  Rule.named .sourceUnit <| Rule.firstOf
    [pragmaDirective,
      importDirective.map .importDirective,
      (contract inner).map .contract,
      (freeFunction inner).map .function,
      (structDefinition inner).map .struct,
      enumDefinition.map .enumeration,
      (eventDefinition inner).map .event,
      (errorDefinition inner).map .error,
      (usingDirective inner).map .usingDirective,
      valueTypeDefinition.map .valueType,
      (fileConstant inner).map .constant]

end SolidityParser.Grammar
