import SolidityParser.Token.Basic
import SolidityParser.Token.Set

/-!
# The furthest failure

A parse tries many alternatives, and what it reports is the furthest token at which any of them
failed, with all that would have been accepted there. `Furthest` is that record. A failure further
on replaces it, one at the same token adds to it, one before it leaves it as it is.
-/

namespace SolidityParser

/-! ## Named rules -/

/-- The rules that messages mention by name, in place of all the tokens they could begin with. -/
inductive RuleName
  | sourceUnit | contractMember | statement | expression | typeName | parameter
deriving DecidableEq, Inhabited

namespace RuleName

/-- Every named rule, in the order in which messages mention them. -/
def all : List RuleName := [sourceUnit, contractMember, statement, expression, typeName, parameter]

/-- How messages mention a rule. -/
def description : RuleName → String
  | sourceUnit => "declaration"
  | contractMember => "contract member"
  | statement => "statement"
  | expression => "expression"
  | typeName => "type name"
  | parameter => "parameter"

/-- Place of a rule in `all`. -/
def index (rule : RuleName) : Nat := rule.ctorIdx

end RuleName

/-- A set of named rules, with one bit per rule. -/
structure RuleSet where
  /-- One bit for each rule, at the rule's index. -/
  bits : BitVec 6
deriving DecidableEq

namespace RuleSet

/-- The set without members. -/
def empty : RuleSet := ⟨0⟩

instance : EmptyCollection RuleSet := ⟨empty⟩

instance : Inhabited RuleSet := ⟨∅⟩

/-- The set with a rule added. -/
def insert (set : RuleSet) (rule : RuleName) : RuleSet := ⟨set.bits ||| BitVec.twoPow 6 rule.index⟩

/-- Is the rule a member? -/
def contains (set : RuleSet) (rule : RuleName) : Bool := set.bits.getLsbD rule.index

/-- Has the set no members? -/
def isEmpty (set : RuleSet) : Bool := set.bits == 0

/-- The members, in the order of `RuleName.all`. -/
def toList (set : RuleSet) : List RuleName := RuleName.all.filter set.contains

end RuleSet

/-! ## The record -/

/-- The furthest token index at which anything failed, and what would have been accepted there. -/
structure Furthest where
  /-- Index of the token. -/
  position : Nat := 0
  /-- The kinds that would have been accepted. -/
  expected : TokenSet := ∅
  /-- The named rules that would have been accepted. -/
  rules : RuleSet := ∅
deriving DecidableEq, Inhabited

namespace Furthest

/-- Has nothing been recorded? -/
def isEmpty (record : Furthest) : Bool := record.expected.isEmpty && record.rules.isEmpty

/-- The record moved on to `position`, if that is further. -/
def reach (record : Furthest) (position : Nat) : Furthest :=
  if record.position < position then { position } else record

/-- Records that a token of kind `kind` would have been accepted at `position`. -/
def addToken (record : Furthest) (position : Nat) (kind : Kind) : Furthest :=
  let record := record.reach position
  if record.position = position then { record with expected := record.expected.insert kind }
  else record

/-- Records that `rule` would have been accepted at `position`. -/
def addRule (record : Furthest) (position : Nat) (rule : RuleName) : Furthest :=
  let record := record.reach position
  if record.position = position then { record with rules := record.rules.insert rule }
  else record

/-- Replaces what was recorded at `position` since `before` by the name of the rule that failed
there. A record further on stays as it is. -/
def collapse (record : Furthest) (position : Nat) (before : Furthest) (rule : RuleName) :
    Furthest :=
  if position < record.position then record
  else
    let kept : Furthest :=
      if record.position = position ∧ before.position = position then before else { position }
    { kept with rules := kept.rules.insert rule }

/-! ## Wording -/

/-- How messages mention the token found at an index. Of text that is no token, only the first
character is shown. -/
def foundAt (lexemes : Lexemes) (position : Nat) : String :=
  match lexemes.kindAt position with
  | .eof => "end of input"
  | .error => "`" ++ String.ofList ((lexemes.textAt position).toList.take 1) ++ "`"
  | _ => "`" ++ lexemes.textAt position ++ "`"

/-- Alternatives in a row: commas between three or more, and `or` before the last. -/
def joinAlternatives : List String → String
  | [] => ""
  | [one] => one
  | [one, other] => one ++ " or " ++ other
  | names => ", ".intercalate names.dropLast ++ ", or " ++ names.getLastD ""

/-- The message for a failure: what was expected, rules first, and what was found. -/
def expectedMessage (expected : TokenSet) (rules : RuleSet) (found : String) : String :=
  match rules.toList.map (·.description) ++ expected.toList.map (·.display) with
  | [] => "Unexpected " ++ found ++ "."
  | names => "Expected " ++ joinAlternatives names ++ " but " ++ found ++ " found."

/-- The message that reports a record against the words it was made on. -/
def message (record : Furthest) (lexemes : Lexemes) : String :=
  expectedMessage record.expected record.rules (foundAt lexemes record.position)

end Furthest

end SolidityParser
