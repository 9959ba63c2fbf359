import SolidityParser.Span
import SolidityParser.Token.Set

/-!
# Outcomes

A rule succeeds or fails, and it has consumed input or not. `Outcome` keeps the four cases apart: a
rule that fails without consuming leaves the choice to other rules, one that fails after consuming
has decided it.
-/

namespace SolidityParser

/-! ## What was being parsed -/

/-- The constructs that a failure can be attributed to. -/
inductive Construct
  | pragma | importDirective | contract | functionDef | modifierDef | eventDef | errorDef
  | structDef | enumDef | usingDirective | stateVariable | parameters | block | ifStatement
  | forLoop | whileLoop | tryStatement | inlineAssembly | expression | arguments | typeName
deriving DecidableEq, Inhabited

namespace Construct

/-- The construct with its article. -/
def description : Construct → String
  | pragma => "a pragma directive"
  | importDirective => "an import directive"
  | contract => "a contract definition"
  | functionDef => "a function definition"
  | modifierDef => "a modifier definition"
  | eventDef => "an event definition"
  | errorDef => "an error definition"
  | structDef => "a struct definition"
  | enumDef => "an enum definition"
  | usingDirective => "a using directive"
  | stateVariable => "a state variable declaration"
  | parameters => "a parameter list"
  | block => "a block"
  | ifStatement => "an if statement"
  | forLoop => "a for loop"
  | whileLoop => "a while loop"
  | tryStatement => "a try statement"
  | inlineAssembly => "an assembly block"
  | expression => "an expression"
  | arguments => "call arguments"
  | typeName => "a type name"

/-- The context line of a failure inside the construct. -/
def context (construct : Construct) : String := "while parsing " ++ construct.description

end Construct

/-! ## Failures -/

/-- A failure that decided a choice: what is reported of it, and the innermost construct that it was
attributed to. -/
structure Failure (ρ : Type) where
  /-- What is reported. -/
  report : ρ
  /-- The construct being parsed, once one has been named. -/
  inside : Option Construct := none
deriving DecidableEq

/-- The failure attributed to a construct, unless it already was to one further in. -/
def Failure.within {ρ : Type} (construct : Construct) (failure : Failure ρ) : Failure ρ :=
  match failure.inside with
  | none => { failure with inside := some construct }
  | some _ => failure

/-- A failure worded for a reader: the message and the text it concerns. -/
structure Complaint where
  /-- The message. -/
  message : String
  /-- What it concerns. -/
  span : Span
deriving DecidableEq

/-! ## Outcomes -/

/-- How a rule ended. -/
inductive Outcome (ρ α : Type)
  /-- It succeeded and consumed input. -/
  | consumedOk (value : α)
  /-- It succeeded and consumed nothing. -/
  | emptyOk (value : α)
  /-- It failed after consuming input. -/
  | consumedErr (failure : Failure ρ)
  /-- It failed at `position` without consuming, where it would have accepted `expected`. -/
  | emptyErr (expected : TokenSet) (position : Nat)

namespace Outcome

variable {ρ α β : Type}

/-- The outcome with its value, if it has one, put through a function. -/
def map (f : α → β) : Outcome ρ α → Outcome ρ β
  | consumedOk value => consumedOk (f value)
  | emptyOk value => emptyOk (f value)
  | consumedErr failure => consumedErr failure
  | emptyErr expected position => emptyErr expected position

/-- The outcome with its failure attributed to a construct; a failure that decided nothing stays as
it is. -/
def within (construct : Construct) : Outcome ρ α → Outcome ρ α
  | consumedErr failure => consumedErr (failure.within construct)
  | outcome => outcome

/-- The value of a success. -/
def value? : Outcome ρ α → Option α
  | consumedOk value | emptyOk value => some value
  | consumedErr _ | emptyErr _ _ => none

/-- Did the rule succeed? -/
def isOk (outcome : Outcome ρ α) : Bool := outcome matches consumedOk _ | emptyOk _

/-- Did the rule fail and leave the choice to others? -/
def failedWithoutProgress (outcome : Outcome ρ α) : Bool := outcome matches emptyErr _ _

end Outcome

end SolidityParser
