import SolidityParser.Tree.Expression
import SolidityParser.Tree.Form

/-!
# Statements

Statements, blocks and the clauses of `try` contain each other. A statement that could not be read
is kept as `incomplete`, with nothing but its place.
-/

namespace SolidityParser

/-- A variable declared by a statement, or a member of a struct. -/
structure VariableDeclaration (σ : Type) where
  /-- Where the declaration stands. -/
  place : σ
  /-- The type. -/
  type : TypeName σ
  /-- Where the value is kept. -/
  location : Option StorageLocation
  /-- The name. -/
  name : String

/-- The declaration with every place in it changed. -/
def VariableDeclaration.relocate {σ τ : Type} (f : σ → τ) (declaration : VariableDeclaration σ) :
    VariableDeclaration τ :=
  ⟨f declaration.place, declaration.type.relocate f, declaration.location, declaration.name⟩

mutual

/-- A statement. -/
inductive Statement (F : Form) : Type
  /-- A block as a statement. -/
  | block (body : Block F)
  /-- An expression and a semicolon. -/
  | expression (place : F.Place) (value : Expression F.Place)
  /-- Variables with an initial value, or one without. A list of variables may leave some out. -/
  | declaration (place : F.Place) (slots : List (Option (VariableDeclaration F.Place)))
      (initial : Option (Expression F.Place))
  /-- A choice between statements. -/
  | ifElse (place : F.Place) (test : Expression F.Place) (consequent : Statement F)
      (alternate : Option (Statement F))
  /-- A loop with an initial statement, a test and an update, each of which may be missing. -/
  | forLoop (place : F.Place) (initial : Option (Statement F))
      (test update : Option (Expression F.Place)) (body : Statement F)
  /-- A loop that tests first. -/
  | whileLoop (place : F.Place) (test : Expression F.Place) (body : Statement F)
  /-- A loop that tests last. -/
  | doWhile (place : F.Place) (body : Statement F) (test : Expression F.Place)
  /-- A call that may fail, with what to do in either case. -/
  | tryCatch (place : F.Place) (call : Expression F.Place)
      (returns : Option (List (Parameter F.Place))) (body : Block F)
      (clauses : List (CatchClause F))
  /-- The end of a function, with a result or none. -/
  | returned (place : F.Place) (argument : Option (Expression F.Place))
  /-- An event that is emitted. -/
  | emit (place : F.Place) (event : Expression F.Place)
  /-- An error that is raised by name. -/
  | revert (place : F.Place) (error : Expression F.Place)
  /-- The end of a loop. -/
  | breakLoop (place : F.Place)
  /-- The end of a round of a loop. -/
  | continueLoop (place : F.Place)
  /-- An error without a name. -/
  | throwError (place : F.Place)
  /-- A block whose arithmetic wraps. -/
  | unchecked (place : F.Place) (body : Block F)
  /-- An assembly block, with its dialect and flags. -/
  | assembly (place : F.Place) (language : Option String) (flags : List String) (body : F.Body)
  /-- The place in a modifier where the modified function runs. -/
  | placeholder (place : F.Place)
  /-- A statement that could not be read. -/
  | incomplete (place : F.Place)

/-- Statements between braces. -/
inductive Block (F : Form) : Type
  | mk (place : F.Place) (body : List (Statement F))

/-- What to do when a call failed: the kind of failure, its parameters, and a block. -/
inductive CatchClause (F : Form) : Type
  | mk (place : F.Place) (kind : Option String) (parameters : Option (List (Parameter F.Place)))
      (body : Block F)

end

variable {F G : Form}

/-! ## Parts -/

/-- Where a block stands. -/
def Block.place : Block F → F.Place
  | .mk place _ => place

/-- The statements of a block. -/
def Block.body : Block F → List (Statement F)
  | .mk _ body => body

/-- Where a statement stands. -/
def Statement.place : Statement F → F.Place
  | .block body => body.place
  | .expression place .. | .declaration place .. | .ifElse place .. | .forLoop place ..
  | .whileLoop place .. | .doWhile place .. | .tryCatch place .. | .returned place ..
  | .emit place .. | .revert place .. | .breakLoop place | .continueLoop place
  | .throwError place | .unchecked place .. | .assembly place .. | .placeholder place
  | .incomplete place => place

/-- Where a clause stands. -/
def CatchClause.place : CatchClause F → F.Place
  | .mk place .. => place

/-! ## Moving from one form to another -/

mutual

/-- The statement in another form. -/
def Statement.relocate (r : Relocation F G) : Statement F → Statement G
  | .block body => .block (body.relocate r)
  | .expression place value => .expression (r.place place) (value.relocate r.place)
  | .declaration place slots initial =>
    .declaration (r.place place)
      (slots.map (Option.map (VariableDeclaration.relocate r.place)))
      (Expression.relocateOption r.place initial)
  | .ifElse place test consequent alternate =>
    .ifElse (r.place place) (test.relocate r.place) (consequent.relocate r)
      (Statement.relocateOption r alternate)
  | .forLoop place initial test update body =>
    .forLoop (r.place place) (Statement.relocateOption r initial)
      (Expression.relocateOption r.place test) (Expression.relocateOption r.place update)
      (body.relocate r)
  | .whileLoop place test body =>
    .whileLoop (r.place place) (test.relocate r.place) (body.relocate r)
  | .doWhile place body test =>
    .doWhile (r.place place) (body.relocate r) (test.relocate r.place)
  | .tryCatch place call returns body clauses =>
    .tryCatch (r.place place) (call.relocate r.place)
      (returns.map (Parameter.relocateList r.place)) (body.relocate r)
      (CatchClause.relocateList r clauses)
  | .returned place argument =>
    .returned (r.place place) (Expression.relocateOption r.place argument)
  | .emit place event => .emit (r.place place) (event.relocate r.place)
  | .revert place error => .revert (r.place place) (error.relocate r.place)
  | .breakLoop place => .breakLoop (r.place place)
  | .continueLoop place => .continueLoop (r.place place)
  | .throwError place => .throwError (r.place place)
  | .unchecked place body => .unchecked (r.place place) (body.relocate r)
  | .assembly place language flags body => .assembly (r.place place) language flags (r.body body)
  | .placeholder place => .placeholder (r.place place)
  | .incomplete place => .incomplete (r.place place)

/-- Relocates a statement that may be missing. -/
def Statement.relocateOption (r : Relocation F G) : Option (Statement F) → Option (Statement G)
  | none => none
  | some statement => some (statement.relocate r)

/-- Relocates each statement of a list. -/
def Statement.relocateList (r : Relocation F G) : List (Statement F) → List (Statement G)
  | [] => []
  | statement :: statements => statement.relocate r :: Statement.relocateList r statements

/-- The block in another form. -/
def Block.relocate (r : Relocation F G) : Block F → Block G
  | .mk place body => .mk (r.place place) (Statement.relocateList r body)

/-- The clause in another form. -/
def CatchClause.relocate (r : Relocation F G) : CatchClause F → CatchClause G
  | .mk place kind parameters body =>
    .mk (r.place place) kind (parameters.map (Parameter.relocateList r.place)) (body.relocate r)

/-- Relocates each clause of a list. -/
def CatchClause.relocateList (r : Relocation F G) : List (CatchClause F) → List (CatchClause G)
  | [] => []
  | clause :: clauses => clause.relocate r :: CatchClause.relocateList r clauses

end

end SolidityParser
