import SolidityParser.Tree.Declaration

/-!
# Passages that the grammar leaves unread

The value of a pragma and the body of an assembly block are kept as passages: no rule reads the
tokens in them. `SourceUnit.passages` collects them in source order, from the statements up.
-/

namespace SolidityParser

/-! ### Statements -/

mutual

/-- The bodies of the assembly blocks in a statement. -/
def Statement.passages : Statement .parsed → List Extent
  | .block body => body.passages
  | .ifElse _ _ consequent alternate =>
    consequent.passages ++ Statement.passagesOption alternate
  | .forLoop _ initial _ _ body => Statement.passagesOption initial ++ body.passages
  | .whileLoop _ _ body | .doWhile _ body _ => body.passages
  | .tryCatch _ _ _ body clauses => body.passages ++ CatchClause.passagesList clauses
  | .unchecked _ body => body.passages
  | .assembly _ _ _ body => [body]
  | .expression .. | .declaration .. | .returned .. | .emit .. | .revert .. | .breakLoop _
  | .continueLoop _ | .throwError _ | .placeholder _ | .incomplete _ => []

/-- The passages of a statement that may be missing. -/
def Statement.passagesOption : Option (Statement .parsed) → List Extent
  | none => []
  | some statement => statement.passages

/-- The passages of statements in a row. -/
def Statement.passagesList : List (Statement .parsed) → List Extent
  | [] => []
  | statement :: statements => statement.passages ++ Statement.passagesList statements

/-- The passages of a block. -/
def Block.passages : Block .parsed → List Extent
  | .mk _ body => Statement.passagesList body

/-- The passages of a clause of `try`. -/
def CatchClause.passages : CatchClause .parsed → List Extent
  | .mk _ _ _ body => body.passages

/-- The passages of clauses in a row. -/
def CatchClause.passagesList : List (CatchClause .parsed) → List Extent
  | [] => []
  | clause :: clauses => clause.passages ++ CatchClause.passagesList clauses

end

/-- The passages of statements in a row are those of each. -/
theorem Statement.passagesList_eq_flatMap :
    (statements : List (Statement .parsed)) →
      Statement.passagesList statements = statements.flatMap Statement.passages
  | [] => by rw [Statement.passagesList, List.flatMap_nil]
  | statement :: statements => by
    rw [Statement.passagesList, List.flatMap_cons, passagesList_eq_flatMap statements]

/-- The passages of clauses in a row are those of each. -/
theorem CatchClause.passagesList_eq_flatMap :
    (clauses : List (CatchClause .parsed)) →
      CatchClause.passagesList clauses = clauses.flatMap CatchClause.passages
  | [] => by rw [CatchClause.passagesList, List.flatMap_nil]
  | clause :: clauses => by
    rw [CatchClause.passagesList, List.flatMap_cons, passagesList_eq_flatMap clauses]

/-! ### Declarations -/

/-- The passages of a body that may be missing. -/
def Block.passagesOption : Option (Block .parsed) → List Extent
  | none => []
  | some body => body.passages

/-- The passages of a member of a contract. -/
def ContractPart.passages : ContractPart .parsed → List Extent
  | .constructor declaration => declaration.body.passages
  | .receive declaration => Block.passagesOption declaration.body
  | .fallback declaration => Block.passagesOption declaration.body
  | .function declaration => Block.passagesOption declaration.body
  | .modifier declaration => Block.passagesOption declaration.body
  | .stateVariable _ | .event _ | .error _ | .struct _ | .enumeration _ | .usingDirective _
  | .valueType _ => []

/-- The passages of a contract. -/
def Contract.passages (contract : Contract .parsed) : List Extent :=
  contract.body.flatMap ContractPart.passages

/-- The passages of a unit. -/
def SourceUnit.passages : SourceUnit .parsed → List Extent
  | .pragma directive => [directive.value]
  | .contract declaration => declaration.passages
  | .function declaration => Block.passagesOption declaration.body
  | .coderPragma _ | .experimentalPragma _ | .importDirective _ | .struct _ | .enumeration _
  | .event _ | .error _ | .usingDirective _ | .valueType _ | .constant _ => []

end SolidityParser
