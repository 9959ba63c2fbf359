import SolidityParser.Failure.Furthest
import SolidityParser.Failure.Outcome
import SolidityParser.Tree.Expression
import SolidityParser.Tree.Form

/-!
# Parsers and rules

A `Parser` reads words from a position on and succeeds with a value or fails; either way it leaves
a position and a record of failures. A `Rule` is what a choice is made of: it also tells, by its
`Outcome`, whether it consumed input. `Rule.ofParser` and `Rule.decided` make a rule of a parser:
the one finds out by comparing positions, the other does not look. `Rule.finish` makes a parser of a
rule, and `Rule.firstOf` is ordered choice.

Backing out of an alternative moves the position back and leaves the record of failures alone, so
what is reported in the end is the furthest failure of all alternatives.
-/

namespace SolidityParser

/-! ## States -/

/-- What a parser reads, and how. -/
structure Scope where
  /-- The words of the input. -/
  lexemes : Lexemes
  /-- May broken statements be skipped? -/
  tolerant : Bool := false
  /-- Is this the body of a function? -/
  inBody : Bool := false
  /-- Is this an attempt that may be taken back? -/
  speculative : Bool := false

/-- Is a broken statement to be skipped here? Only in the body of a function, and never in an
attempt, which has to tell whether the input is well formed. -/
def Scope.recovers (scope : Scope) : Bool := scope.tolerant && scope.inBody && !scope.speculative

/-- The failures met so far. -/
structure Trail where
  /-- The furthest of them. -/
  furthest : Furthest := {}
  /-- The token index of every failure reported, the latest first. -/
  reported : List Nat := []

namespace Trail

/-- Reports that a token of kind `kind` would have been accepted at `position`. -/
def addToken (trail : Trail) (position : Nat) (kind : Kind) : Trail :=
  ⟨trail.furthest.addToken position kind, position :: trail.reported⟩

/-- Reports that `rule` would have been accepted at `position`. -/
def addRule (trail : Trail) (position : Nat) (rule : RuleName) : Trail :=
  ⟨trail.furthest.addRule position rule, position :: trail.reported⟩

/-- Reports that `rule` failed at `position`, where it began with the trail `before`. -/
def collapse (trail : Trail) (position : Nat) (before : Trail) (rule : RuleName) : Trail :=
  ⟨trail.furthest.collapse position before.furthest rule, position :: trail.reported⟩

end Trail

/-- The state of a parser: how far it has come, and what failed on the way. -/
structure ParseState where
  /-- Index of the current token. -/
  position : Nat := 0
  /-- The failures met so far. -/
  trail : Trail := {}

/-- A failure that decided a choice; its report is the index of the token it stopped at. -/
abbrev Fault := Failure Nat

/-- Reads words, and succeeds with a value or fails. -/
abbrev Parser := ReaderT Scope (EStateM Fault ParseState)

/-- Reads words, and tells by its outcome whether it consumed any. -/
abbrev Rule (α : Type) := Scope → ParseState → Outcome Nat α × ParseState

namespace Parser

variable {α β : Type}

/-! ## Looking at the input -/

/-- The index of the current token. -/
def position : Parser Nat := fun _ s => .ok s.position s

/-- The kind of the token `n` places ahead. -/
def kindAhead (n : Nat) : Parser Kind :=
  fun scope s => .ok (scope.lexemes.kindAt (s.position + n)) s

/-- The kind of the current token. -/
def kind : Parser Kind := fun scope s => .ok (scope.lexemes.kindAt s.position) s

/-- The spelling of the current token. -/
def text : Parser String := fun scope s => .ok (scope.lexemes.textAt s.position) s

/-- Is the current token the identifier `word`? A miss is not reported. -/
def isWord (word : String) : Parser Bool :=
  fun scope s => .ok (scope.lexemes.isWordAt s.position word) s

/-- Number of tokens from the current one on, and one more. No loop that consumes a token each time
goes round more often. -/
def budget : Parser Nat := fun scope s => .ok (scope.lexemes.size - s.position + 1) s

/-- The tokens consumed since `first`. -/
def extentFrom (first : Nat) : Parser Extent := fun _ s => .ok ⟨first, s.position⟩ s

/-! ## Consuming and failing -/

/-- Goes on to the next token, unless this is the end of the input. -/
def advance : Parser Unit := fun scope s =>
  if scope.lexemes.kindAt s.position = .eof then .ok () s
  else .ok () { s with position := s.position + 1 }

/-- Fails at the current token. -/
def fail : Parser α := fun _ s => .error ⟨s.position, none⟩ s

/-- Reports that a token of kind `kind` would have been accepted here. -/
def reportToken (kind : Kind) : Parser Unit := fun _ s =>
  .ok () { s with trail := s.trail.addToken s.position kind }

/-- Reports that `rule` would have been accepted here. -/
def reportRule (rule : RuleName) : Parser Unit := fun _ s =>
  .ok () { s with trail := s.trail.addRule s.position rule }

/-- Is the current token of this kind? A miss is reported. -/
def check (expected : Kind) : Parser Bool := do
  if (← kind) = expected then return true
  reportToken expected
  return false

/-- Consumes the current token if it is of this kind, and tells whether it did. -/
def eat (expected : Kind) : Parser Bool := do
  if ← check expected then
    advance
    return true
  return false

/-- Consumes a token of this kind, or fails. -/
def expect (expected : Kind) : Parser Unit := do
  if ← check expected then advance else fail

/-- Consumes an identifier, or fails. -/
def expectIdent : Parser (Identifier Extent) := do
  let here ← position
  let name ← text
  expect .ident
  return ⟨Extent.single here, name⟩

/-- Consumes an identifier if there is one. -/
def eatIdent : Parser (Option String) := do
  let name ← text
  if ← eat .ident then return some name
  return none

/-- Consumes the identifier `word`, or fails. -/
def expectWord (word : String) : Parser Unit := do
  if ← isWord word then advance
  else
    reportToken .ident
    fail

/-- Consumes the identifier `word` if it stands here; a miss is not reported. -/
def eatWord (word : String) : Parser Bool := do
  if ← isWord word then
    advance
    return true
  return false

/-! ## Running parsers -/

/-- Attributes a failure to a construct. -/
def within (construct : Construct) (parser : Parser α) : Parser α := fun scope s =>
  match parser scope s with
  | .ok value s => .ok value s
  | .error fault s => .error (fault.within construct) s

/-- Runs a parser as the rule `rule`: where it fails, what it tried at its first token is reported
under the name of the rule. -/
def named (rule : RuleName) (parser : Parser α) : Parser α := fun scope s =>
  match parser scope s with
  | .ok value t => .ok value t
  | .error fault t =>
    .error fault { t with trail := t.trail.collapse s.position s.trail rule }

/-- Runs a parser in the body of a function. -/
def inBody (parser : Parser α) : Parser α := fun scope s =>
  parser { scope with inBody := true } s

/-! ## Loops -/

/-- Applies `step` until it gives nothing more, at most `fuel` times. -/
def iterateAtFuel (step : β → Parser (Option β)) : Nat → β → Parser β
  | 0, _ => fail
  | fuel + 1, value => do
    match ← step value with
    | none => return value
    | some next => iterateAtFuel step fuel next

/-- Applies `step`, which consumes a token whenever it gives something, until it gives nothing. -/
def iterate (step : β → Parser (Option β)) (value : β) : Parser β := do
  iterateAtFuel step (← budget) value

/-- Collects what `step` gives until it gives nothing more, at most `fuel` times. -/
def collectAtFuel (step : Parser (Option α)) : Nat → Parser (List α)
  | 0 => fail
  | fuel + 1 => do
    match ← step with
    | none => return []
    | some value => return value :: (← collectAtFuel step fuel)

/-- Collects what `step`, which consumes a token whenever it gives something, gives until it gives
nothing. -/
def collect (step : Parser (Option α)) : Parser (List α) := do
  collectAtFuel step (← budget)

/-- Items with commas between, at most `fuel` of them. -/
def separatedAtFuel (item : Parser α) : Nat → Parser (List α)
  | 0 => fail
  | fuel + 1 => do
    let value ← item
    if ← eat .comma then return value :: (← separatedAtFuel item fuel)
    return [value]

/-- One or more items with commas between. -/
def separated (item : Parser α) : Parser (List α) := do
  separatedAtFuel item (← budget)

/-- Items with commas between, up to and including `close`; what opens them has been consumed. There
may be no items. -/
def series (close : Kind) (item : Parser α) : Parser (List α) := do
  if ← eat close then return []
  let items ← separated item
  expect close
  return items

end Parser

namespace Rule

open SolidityParser.Parser (advance)

variable {α β : Type}

/-! ## Rules and parsers -/

/-- The rule of a parser: it has consumed input if the position moved on. -/
def ofParser (parser : Parser α) : Rule α := fun scope s =>
  match parser scope s with
  | .ok value t => (if s.position < t.position then .consumedOk value else .emptyOk value, t)
  | .error fault t =>
    (if s.position < t.position then .consumedErr fault else .emptyErr ∅ s.position, t)

/-- The rule of a parser that settles the choice it stands in: input counts as consumed, whether the
position moved on or not. -/
def decided (parser : Parser α) : Rule α := fun scope s =>
  match parser scope s with
  | .ok value t => (.consumedOk value, t)
  | .error fault t => (.consumedErr fault, t)

/-- The rule that consumes the current token, and settles the choice by it. What comes after the
token is told the index and the spelling of it. -/
def taking (parser : Nat → String → Parser α) : Rule α := fun scope s =>
  decided (do
    advance
    parser s.position (scope.lexemes.textAt s.position)) scope s

/-- The parser of a rule that has to succeed. Only where the rule fails without consuming, the
failure is attributed to the construct, if there is one. -/
def finishIn (rule : Rule α) (construct : Option Construct) : Parser α := fun scope s =>
  match rule scope s with
  | (.consumedOk value, t) | (.emptyOk value, t) => .ok value t
  | (.consumedErr fault, t) => .error fault t
  | (.emptyErr _ position, t) => .error ⟨position, construct⟩ t

/-- The parser of a rule that has to succeed. -/
def finish (rule : Rule α) : Parser α := rule.finishIn none

/-- The rule where a token of kind `kind` stands; without one it fails at once, and reports the
miss. -/
def opening (kind : Kind) (rule : Rule α) : Rule α := fun scope s =>
  if scope.lexemes.kindAt s.position = kind then rule scope s
  else
    (.emptyErr (TokenSet.single kind) s.position,
      { s with trail := s.trail.addToken s.position kind })

/-- The rule where `test` holds of the words and the position; where it does not, the rule fails at
once, and reports nothing. -/
def provided (test : Lexemes → Nat → Bool) (rule : Rule α) : Rule α := fun scope s =>
  if test scope.lexemes s.position then rule scope s else (.emptyErr ∅ s.position, s)

/-- One rule after another. The second is given the position where the first began, and its value;
what it says is the outcome of both, unless the first fails. -/
def followedBy (rule : Rule α) (next : Nat → α → Rule β) : Rule β := fun scope s =>
  match rule scope s with
  | (.consumedOk value, t) | (.emptyOk value, t) => next s.position value scope t
  | (.consumedErr fault, t) => (.consumedErr fault, t)
  | (.emptyErr expected position, t) => (.emptyErr expected position, t)

/-- The rule with its value put through a function. -/
def map (f : α → β) (rule : Rule α) : Rule β := fun scope s =>
  let (outcome, t) := rule scope s
  (outcome.map f, t)

/-- The rule with its failures attributed to a construct. -/
def within (construct : Construct) (rule : Rule α) : Rule α := fun scope s =>
  let (outcome, t) := rule scope s
  (outcome.within construct, t)

/-- The rule under a name: where it fails without consuming, what it tried is reported under the
name. -/
def named (name : RuleName) (rule : Rule α) : Rule α := fun scope s =>
  match rule scope s with
  | (.emptyErr expected position, t) =>
    (.emptyErr expected position,
      { t with trail := t.trail.collapse s.position s.trail name })
  | decided => decided

/-! ## Choice -/

/-- Tries a rule: where it fails, however far on, the position goes back and the choice stays
open. -/
def attempt (rule : Rule α) : Rule α := fun scope s =>
  match rule { scope with speculative := true } s with
  | (.consumedErr _, t) => (.emptyErr ∅ s.position, { t with position := s.position })
  | (.emptyErr expected _, t) =>
    (.emptyErr expected s.position, { t with position := s.position })
  | succeeded => succeeded

/-- The first rule that succeeds, or that fails after consuming. If each fails without, so does the
choice, and would have accepted what any of them would. -/
def firstOf : List (Rule α) → Rule α
  | [] => fun _ s => (.emptyErr ∅ s.position, s)
  | rule :: rules => fun scope s =>
    match rule scope s with
    | (.emptyErr expected position, t) =>
      match firstOf rules scope { t with position := s.position } with
      | (.emptyErr more further, u) => (.emptyErr (expected ∪ more) (max position further), u)
      | decided => decided
    | decided => decided

end Rule

end SolidityParser
