import SolidityParser.Proofs.Grammar.Boundary
import SolidityParser.Proofs.Grammar.Recovery
import SolidityParser.Proofs.Grammar.Unit

/-!
# Levels of nesting, and whole sources

Each level of `Inner.upTo` is built from the one within, so every level is built from combinators
(`Inner.built_upTo`). With the rules for pragmas and imports, which have no derivation but are
steady, so is the rule for the units of a source (`units_steady`).
-/

namespace SolidityParser

/-! ### Levels -/

/-- The rules of every level are built from combinators. -/
theorem Inner.built_upTo : (depth : Nat) → (Inner.upTo depth).Built
  | 0 =>
    { expression := fun _ => .fail
      assignment := fun _ => .fail
      power := fun _ => .fail
      unary := fun _ => .fail
      typeName := fun _ => .none
      statement := fun _ => .none
      ends := fun _ _ _ => rfl }
  | depth + 1 =>
    have hi := built_upTo depth
    { expression := fun _ => Grammar.expression_built hi
      assignment := fun _ => Grammar.assignment_built hi
      power := fun _ => Grammar.power_built hi
      unary := fun _ => Grammar.unary_built hi
      typeName := fun _ => Grammar.typeName_built hi
      statement := fun _ => Grammar.statement_built hi
      ends := Grammar.statement_endsAtMember (upTo depth) }

/-- The rules for an input are built from combinators. -/
theorem Inner.built_ofLexemes (lexemes : Lexemes) : (Inner.ofLexemes lexemes).Built :=
  built_upTo _

namespace Grammar

open SolidityParser.Parser (Steady)

/-! ### Pragmas -/

/-- A pragma that begins at `start`, after its name. -/
def pragmaRest (start : Nat) (name : String) : Parser (SourceUnit .parsed) :=
  match name with
  | "abicoder" => do
    let version ← Parser.expectIdent
    Parser.expect .semicolon
    return .coderPragma ⟨← Parser.extentFrom start, version⟩
  | "experimental" => do
    let feature ← feature
    Parser.expect .semicolon
    return .experimentalPragma ⟨← Parser.extentFrom start, feature⟩
  | name => do
    let valueStart ← Parser.position
    skipToSemicolon
    let value ← Parser.extentFrom valueStart
    Parser.expect .semicolon
    return .pragma ⟨← Parser.extentFrom start, name, value⟩

theorem pragmaDirective_eq :
    pragmaDirective = keywordRule .kwPragma .pragma (do
      let start ← Parser.position
      Parser.advance
      let name ← Parser.expectIdent
      pragmaRest start name.name) := rfl

theorem skipToSemicolon_steady : Steady 1 skipToSemicolon :=
  .bind
    (.iterate (fun _ => Steady.kind.bind fun _ =>
      .ite (.pure none) (Steady.advance.bind fun _ => .pure _)) ())
    fun _ => .pure ()

theorem feature_built {known : List Kind} {a : Ledger} :
    Parser.Built known a feature fun _ => a :=
  .text fun _ => .eatIf rfl .done expectString_built

theorem pragmaRest_steady {start : Nat} {name : String} : Steady 1 (pragmaRest start name) := by
  unfold pragmaRest
  split
  · exact .bind (Parser.Built.steady expectIdent_built) fun _ => Steady.expect.bind fun _ =>
      (Steady.extentFrom start).bind fun _ => .pure _
  · exact .bind (Parser.Built.steady feature_built) fun _ => Steady.expect.bind fun _ =>
      (Steady.extentFrom start).bind fun _ => .pure _
  · exact Steady.position.bind fun valueStart => skipToSemicolon_steady.bind fun _ =>
      (Steady.extentFrom valueStart).bind fun _ => Steady.expect.bind fun _ =>
      (Steady.extentFrom start).bind fun _ => .pure _

theorem pragmaDirective_steady : pragmaDirective.Steady := by
  rw [pragmaDirective_eq]
  exact .within <| .opening <| .ofParser <| Steady.position.bind fun _ =>
    Steady.advance.bind fun _ => .bind (Parser.Built.steady expectIdent_built) fun _ =>
    pragmaRest_steady

/-! ### Imports -/

theorem newName?_built {known : List Kind} {a : Ledger} :
    Parser.Built known a newName? fun _ => a :=
  .eatIf rfl (.bind expectIdent_built fun _ => .done) .done

theorem importSymbol_built {known : List Kind} {a : Ledger} :
    Parser.Built known a importSymbol fun _ => a :=
  .bind expectIdent_built fun _ => .bind newName?_built fun _ => .extentFrom fun _ => .done

theorem importedNames_built {known : List Kind} {a : Ledger} :
    Parser.Built known a importedNames fun _ => a :=
  .eatIf rfl (.bind (.expect rfl) fun _ => .bind expectIdent_built fun _ => .done) <|
    .eatIf rfl (.bind (.series rfl importSymbol_built) fun _ => .done) .fail

/-- A word that is expected is reported as an identifier, which may be what stands there, so there
is no derivation. -/
theorem expectWord_steady {word : String} : Steady 1 (Parser.expectWord word) :=
  .bind (.look fun lexemes i => lexemes.isWordAt i word) fun _ =>
    .ite .advance <| (Steady.report fun i trail => trail.addToken i .ident).bind fun _ => .fail

/-- An import that begins at `start`, after its keyword. -/
def importRest (start : Nat) : Parser (ImportDirective Extent) := do
  if ← Parser.check .string then
    let path ← expectString
    let newName ← newName?
    Parser.expect .semicolon
    return ⟨← Parser.extentFrom start, path, newName, none⟩
  let (newName, symbols) ← importedNames
  Parser.expectWord "from"
  let path ← expectString
  Parser.expect .semicolon
  return ⟨← Parser.extentFrom start, path, newName, symbols⟩

theorem importDirective_eq :
    importDirective = keywordRule .kwImport .importDirective (do
      let start ← Parser.position
      Parser.advance
      importRest start) := rfl

theorem importRest_steady {start : Nat} : Steady 1 (importRest start) := by
  refine Steady.check.bind fun isPath => ?_
  have path : Steady 1 expectString := Parser.Built.steady expectString_built
  have extent (f : Extent → ImportDirective Extent) :
      Steady 1 (Parser.extentFrom start >>= fun extent => pure (f extent)) :=
    (Steady.extentFrom start).bind fun _ => .pure _
  cases isPath with
  | true =>
    exact path.bind fun _ => (Parser.Built.steady newName?_built).bind fun _ =>
      Steady.expect.bind fun _ => extent _
  | false =>
    exact (Parser.Built.steady importedNames_built).bind fun _ => expectWord_steady.bind fun _ =>
      path.bind fun _ => Steady.expect.bind fun _ => extent _

theorem importDirective_steady : importDirective.Steady := by
  rw [importDirective_eq]
  exact .within <| .opening <| .ofParser <| Steady.position.bind fun _ =>
    Steady.advance.bind fun _ => importRest_steady

/-! ### Units -/

/-- The step of the loop over units. -/
def nextUnit? (inner : Inner) : Parser (Option (SourceUnit .parsed)) := do
  if ← Parser.check .eof then return none
  some <$> (sourceUnit inner).finish

theorem units_eq (inner : Inner) : units inner = Parser.collect (nextUnit? inner) := rfl

variable {inner : Inner} (hi : inner.Built)

include hi

theorem sourceUnit_steady : (sourceUnit inner).Steady := by
  rw [sourceUnit_eq]
  exact .named <| .orElse pragmaDirective_steady <| .orElse (.map importDirective_steady) <|
    Rule.Built.steady (declarations_built hi)

theorem units_steady : Steady 1 (units inner) := by
  rw [units_eq]
  exact .collect <| Steady.check.bind fun _ => .ite (.pure none) (sourceUnit_steady hi).finish.map

end Grammar

end SolidityParser
