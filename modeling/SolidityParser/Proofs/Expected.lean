import SolidityParser.Proofs.Accounts.Report
import SolidityParser.Proofs.Furthest
import SolidityParser.Proofs.Grammar.Invariant
import SolidityParser.Proofs.Grammar.Rounds
import SolidityParser.Proofs.Imports.Fault

/-!
# What was expected was not found

A message lists the kinds of tokens that would have been accepted at a token, and names that token
as the one found. No kind is reported where a token of it stands, so the message does not list the
kind of what it names; `Furthest.Consistent` is that property of a record, and all of the grammar
keeps it.

There is one exception. The word `from` of an import is an identifier to the scanner, and where it
is missing the message asks for an identifier, though another one may stand there: of
`import * as A form "x";` it says that an identifier was expected, but `form` found.
`Request.read_error_expected` is the statement with that exception, for everything that can be asked
of a source.

A message always lists something (`Request.isEmpty_eq_false`): whatever is asked, a run that fails
has put a failure on record.
-/

namespace SolidityParser

/-! ### Records -/

namespace Furthest

variable {lexemes : Lexemes} {excepted : Nat → Prop} {record before : Furthest} {i : Nat} {k : Kind}

/-- A record is at a token of the input, and does not list the kind of that token, unless the token
is excepted. -/
structure Consistent (lexemes : Lexemes) (excepted : Nat → Prop) (record : Furthest) : Prop where
  /-- The input goes on up to the token. -/
  goesOn : lexemes.GoesOn 0 record.position
  /-- Its kind is not listed. -/
  listed : record.expected.contains (lexemes.kindAt record.position) = true →
    excepted record.position

namespace Consistent

/-- Where nothing is listed yet. -/
theorem fresh (hi : lexemes.GoesOn 0 i) : Consistent lexemes excepted { position := i } where
  goesOn := hi
  listed h := by
    rw [TokenSet.contains_empty] at h
    cases h

/-- A record that goes on stays right. -/
theorem reach (h : record.Consistent lexemes excepted) (hi : lexemes.GoesOn 0 i) :
    (record.reach i).Consistent lexemes excepted := by
  unfold Furthest.reach
  split
  · exact fresh hi
  · exact h

/-- A kind is added that does not stand there, or where it is excepted. -/
theorem addToken (h : record.Consistent lexemes excepted) (hi : lexemes.GoesOn 0 i)
    (hk : lexemes.kindAt i ≠ k ∨ excepted i) :
    (record.addToken i k).Consistent lexemes excepted := by
  have hreach := h.reach hi
  unfold Furthest.addToken
  dsimp only
  split
  · next hpos =>
    refine ⟨hreach.goesOn, fun hlisted => ?_⟩
    rcases hk with hk | hi
    · rw [← hpos] at hk
      exact hreach.listed ((TokenSet.contains_insert_iff.mp hlisted).resolve_left hk)
    · rwa [← hpos] at hi
  · exact hreach

/-- So it does with a rule on it. -/
theorem addRule (h : record.Consistent lexemes excepted) (hi : lexemes.GoesOn 0 i)
    (rule : RuleName) : (record.addRule i rule).Consistent lexemes excepted := by
  have hreach := h.reach hi
  unfold Furthest.addRule
  dsimp only
  split
  · exact ⟨hreach.goesOn, hreach.listed⟩
  · exact hreach

/-- Where a rule takes the place of what it tried, what was listed before stays. -/
theorem collapse (h : record.Consistent lexemes excepted)
    (hbefore : before.Consistent lexemes excepted) (hi : lexemes.GoesOn 0 i) (rule : RuleName) :
    (record.collapse i before rule).Consistent lexemes excepted := by
  have hfresh : Consistent lexemes excepted { position := i } := fresh hi
  unfold Furthest.collapse
  dsimp only
  split
  · exact h
  · split
    · exact ⟨hbefore.goesOn, hbefore.listed⟩
    · exact ⟨hfresh.goesOn, hfresh.listed⟩

end Consistent

end Furthest

/-! ### Runs -/

/-- The input goes on up to the position of a state, and the record of the state is consistent. -/
structure ParseState.Consistent (excepted : Lexemes → Nat → Prop) (lexemes : Lexemes)
    (s : ParseState) : Prop where
  /-- The end of the input is not passed. -/
  goesOn : lexemes.GoesOn 0 s.position
  /-- The record is consistent. -/
  record : s.trail.furthest.Consistent lexemes (excepted lexemes)

namespace ParseState.Consistent

variable {excepted : Lexemes → Nat → Prop}

/-- Whatever is excepted, the grammar keeps records consistent. -/
theorem invariant : Invariant (ParseState.Consistent excepted) where
  advance hs hne := ⟨hs.goesOn.trans (.step hne), hs.record⟩
  miss hs hk := ⟨hs.goesOn, hs.record.addToken hs.goesOn (.inl hk)⟩
  rule name hs := ⟨hs.goesOn, hs.record.addRule hs.goesOn name⟩
  back hs ht := ⟨hs.goesOn, ht.record⟩
  collapse name hs ht := ⟨ht.goesOn, ht.record.collapse hs.record hs.goesOn name⟩

/-- So do imports, if the tokens that stand in the place of `from` are excepted. -/
theorem keptWithoutFrom (h : ∀ lexemes i, lexemes.LacksFrom i → excepted lexemes i) :
    KeptWithoutFrom (ParseState.Consistent excepted) :=
  fun _ _ hs hlacks => ⟨hs.goesOn, hs.record.addToken hs.goesOn (.inr (h _ _ hlacks))⟩

/-- A run begins with nothing on record. -/
theorem start (lexemes : Lexemes) : ParseState.Consistent excepted lexemes {} :=
  ⟨.refl 0, .fresh (.refl 0)⟩

end ParseState.Consistent

/-! ### Requests -/

/-- What can be asked of a source. -/
inductive Request
  /-- To read it without tolerance. -/
  | strict (entry : Entry)
  /-- To read it as a program, and to skip broken statements. -/
  | tolerant
  /-- To find its imports. -/
  | imports

namespace Request

/-- What the grammar answers. -/
def Tree : Request → Type
  | strict entry => entry.Tree
  | tolerant => List (SourceUnit .parsed)
  | imports => List String

/-- The answer, placed in the source. -/
def Value : Request → Type
  | strict entry => entry.Value
  | tolerant => Program
  | imports => List String

/-- The run that answers. -/
def run : (request : Request) → Lexemes → EStateM.Result Fault ParseState request.Tree
  | strict entry, lexemes => entry.run lexemes
  | tolerant, lexemes => Grammar.units (Inner.ofLexemes lexemes) { lexemes, tolerant := true } {}
  | imports, lexemes => Grammar.importPaths { lexemes } {}

/-- Asks it of a source. -/
def read : (request : Request) → String → Except SyntaxError request.Value
  | strict entry, source => entry.read source
  | tolerant, source => Source.parse source true
  | imports, source => Source.scanImports source

/-- Are imports read for the answer? -/
def readsImports : Request → Bool
  | strict .program | tolerant | imports => true
  | strict .expression | strict .statement => false

/-- There is no answer if and only if the source is too long, or the run fails; then the error is
that of the record that the run leaves. -/
theorem read_eq_error {request : Request} {source : String} {error : SyntaxError} :
    request.read source = .error error ↔
      ¬ Source.WithinLimit source ∧ error = Source.lengthError source ∨
        Source.WithinLimit source ∧
          ∃ fault s, request.run (lex source).tokens.lexemes = .error fault s ∧
            error = Source.syntaxError (Source.layout source) s.trail.furthest := by
  cases request with
  | strict entry => exact Entry.read_eq_error
  | tolerant =>
    exact Source.read_eq_error (Grammar.units <| Inner.ofLexemes ·) true Layout.program
  | imports =>
    exact Source.read_eq_error (fun _ => Grammar.importPaths) false fun _ paths => paths

/-- Whatever is asked, a run that fails leaves something on record. So the error is never worded for
a record that is empty. -/
theorem isEmpty_eq_false {request : Request} {lexemes : Lexemes} {fault : Fault} {s : ParseState}
    (h : request.run lexemes = .error fault s) : s.trail.furthest.isEmpty = false := by
  cases request with
  | strict entry =>
    obtain ⟨hexact, hcovers, -⟩ := Entry.run_eq_error h
    exact hexact.nonempty hcovers.reported
  | tolerant =>
    have hreach : InReach { lexemes, tolerant := true } (lexemes.size + 1) {} :=
      ⟨.start lexemes, by simp⟩
    have haccounts : Parser.Accounts (.one { lexemes, tolerant := true } 0) false 0
        (Grammar.units (Inner.ofLexemes lexemes)) (Grammar.units (Inner.ofLexemes lexemes))
        fun _ _ => True := Grammar.units_accounts hreach.accounts
    obtain ⟨hleads, hcovers, -, -⟩ := haccounts {} rfl Trail.exact_empty nofun (Nat.zero_le _)
    have hexact : (Parser.final (tolerant.run lexemes)).trail.Exact :=
      hleads.grows.exact Trail.exact_empty
    rw [h] at hexact
    exact hexact.nonempty (hcovers fault s h).reported
  | imports =>
    obtain ⟨units, t, -, ht, hfails⟩ := Grammar.importPaths_eq_error h
    obtain ⟨-, hs, hreported, -⟩ := Grammar.scanStep_eq_error ht hfails
    exact hs.exact.nonempty hreported

/-- Only where imports are read, the tokens in the place of `from` are excepted. -/
def Excepts (request : Request) (lexemes : Lexemes) (i : Nat) : Prop :=
  request.readsImports = true ∧ lexemes.LacksFrom i

/-- Whatever is asked, the record is consistent in the end. -/
theorem run_consistent (request : Request) (lexemes : Lexemes) :
    ParseState.Consistent request.Excepts lexemes (Parser.final (request.run lexemes)) := by
  have hinvariant : Invariant (ParseState.Consistent request.Excepts) :=
    ParseState.Consistent.invariant
  have hi := Inner.built_ofLexemes lexemes
  have hfrom (hreads : request.readsImports = true) :
      KeptWithoutFrom (ParseState.Consistent request.Excepts) :=
    ParseState.Consistent.keptWithoutFrom fun _ _ hlacks => ⟨hreads, hlacks⟩
  have whole {α : Type} {p : Parser α} (tolerant : Bool)
      (hp : p.Keeps (ParseState.Consistent request.Excepts) []) :
      ParseState.Consistent request.Excepts lexemes (Parser.final (p { lexemes, tolerant } {})) :=
    hp { lexemes, tolerant } {} trivial (.start lexemes)
  match request with
  | strict .program => exact whole false (Grammar.keeps_units hinvariant hi (hfrom rfl))
  | strict .expression => exact whole false (Grammar.keeps_wholeExpression hinvariant hi)
  | strict .statement => exact whole false (Grammar.keeps_wholeStatement hinvariant hi)
  | tolerant => exact whole true (Grammar.keeps_units hinvariant hi (hfrom rfl))
  | imports =>
    exact whole false (Grammar.keeps_importPaths hinvariant.toStepInvariant (hfrom rfl))

/-- The error of a source that is not too long is that of the record which the run leaves, and is at
the token of the record. The kinds that the record lists, and so the message, are not those of this
token, unless it is an identifier that stands after the names of an import in the place of `from`.
The error of a source that is too long lists no kinds. -/
theorem read_error_expected {request : Request} {source : String} {error : SyntaxError}
    (h : request.read source = .error error) :
    ¬ Source.WithinLimit source ∧ error = Source.lengthError source ∨
      Source.WithinLimit source ∧
        ∃ fault s, request.run (lex source).tokens.lexemes = .error fault s ∧
          error = Source.syntaxError (Source.layout source) s.trail.furthest ∧
          error.IsAt source s.trail.furthest.position ∧
          ((lex source).tokens.lexemes.kindAt s.trail.furthest.position ∈
              s.trail.furthest.expected.toList →
            request.Excepts (lex source).tokens.lexemes s.trail.furthest.position) := by
  refine (read_eq_error.mp h).imp_right (And.imp_right ?_)
  rintro ⟨fault, s, hrun, rfl⟩
  have hs := request.run_consistent (lex source).tokens.lexemes
  rw [hrun] at hs
  refine ⟨fault, s, hrun, rfl, Source.syntaxError_isAt hs.record.goesOn, fun hmem => ?_⟩
  exact hs.record.listed (List.mem_filter.mp hmem).2

/-- A state variable without a name, in a program that is read with tolerance: an identifier was
expected, and a semicolon found. -/
theorem read_error_expected_tolerant :
    let source := "contract C \x7b uint ; \x7d"
    let error : SyntaxError :=
      ⟨"Expected identifier, `constant`, `immutable`, or `override` but `;` found.", ⟨1, 19, 18⟩⟩
    tolerant.read source = .error error ∧
      ∃ fault s, tolerant.run (lex source).tokens.lexemes = .error fault s ∧
        error = Source.syntaxError (Source.layout source) s.trail.furthest ∧
        error.IsAt source s.trail.furthest.position ∧
        ((lex source).tokens.lexemes.kindAt s.trail.furthest.position ∈
            s.trail.furthest.expected.toList →
          tolerant.Excepts (lex source).tokens.lexemes s.trail.furthest.position) := by
  intro source error
  have hread : tolerant.read source = .error error := by
    refine Source.errorOf?_eq_some_iff.mp ?_
    rw [read, Source.parse, Source.read_ofList]
    decide +kernel
  have hsize : Source.WithinLimit source := by
    rw [Source.withinLimit_ofList]
    decide
  obtain ⟨htoo, -⟩ | ⟨-, hfails⟩ := read_error_expected hread
  · exact absurd hsize htoo
  · exact ⟨hread, hfails⟩

/-- Where `form` stands in the place of `from`, an identifier is what was expected, and what was
found. -/
theorem read_error_form :
    ∃ error fault s, (strict .program).read "import * as A form \"x\";" = .error error ∧
      (strict .program).run (lex "import * as A form \"x\";").tokens.lexemes = .error fault s ∧
      error = Source.syntaxError (Source.layout "import * as A form \"x\";") s.trail.furthest ∧
      error.message = "Expected identifier but `form` found." ∧
      (lex "import * as A form \"x\";").tokens.lexemes.kindAt s.trail.furthest.position ∈
        s.trail.furthest.expected.toList := by
  have hrun : (match (strict .program).run (lex "import * as A form \"x\";").tokens.lexemes with
      | .error _ s => decide ((Source.syntaxError (Source.layout "import * as A form \"x\";")
          s.trail.furthest).message = "Expected identifier but `form` found." ∧
        (lex "import * as A form \"x\";").tokens.lexemes.kindAt s.trail.furthest.position ∈
          s.trail.furthest.expected.toList)
      | .ok _ _ => false) = true := by
    rw [Source.layout, lex_ofList]
    decide +kernel
  cases h : (strict .program).run (lex "import * as A form \"x\";").tokens.lexemes with
  | ok value s => rw [h] at hrun; cases hrun
  | error fault s =>
    rw [h] at hrun
    obtain ⟨hmessage, hmem⟩ := of_decide_eq_true hrun
    have hsize : Source.WithinLimit "import * as A form \"x\";" := by
      rw [Source.withinLimit_ofList]
      decide
    exact ⟨_, fault, s, read_eq_error.mpr (.inr ⟨hsize, fault, s, h, rfl⟩), rfl, rfl, hmessage, hmem⟩

end Request

end SolidityParser
