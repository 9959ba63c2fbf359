import SolidityParser.Proofs.Accounts.Unit
import SolidityParser.Proofs.Layout
import SolidityParser.Proofs.Lexer.Places

/-!
# What a syntax error reports

A source that is read without tolerance, as a program, an expression or a statement (`Entry`), and
is not well formed, gets one syntax error.

* The error is at the furthest token at which anything failed, in any alternative, and names that
  token as the one found; the run itself did not stop further on (`Entry.read_error_reports`).
* It depends on no token more than two places further on: another source with the same tokens up to
  there gets the same error (`Entry.read_error_local`).

Both follow from the account of the run. The second needs it for two inputs at once: a run on either
looks at most two tokens past the current one, and the current one is never past the failure.
-/

namespace SolidityParser

/-! ### Members of sets -/

/-- A set that is not empty has a member. -/
theorem TokenSet.toList_ne_nil {set : TokenSet} (h : set.isEmpty = false) : set.toList ≠ [] := by
  intro hnil
  refine beq_eq_false_iff_ne.mp h (BitVec.eq_of_getLsbD_eq fun i hi => ?_)
  have hindices : Kind.all.map Kind.index = List.range Kind.count := by decide
  obtain ⟨k, hk, rfl⟩ := List.mem_map.mp (hindices ▸ List.mem_range.mpr hi)
  simpa [contains] using List.filter_eq_nil_iff.mp hnil k hk

/-- A set that is not empty has a member. -/
theorem RuleSet.toList_ne_nil {set : RuleSet} (h : set.isEmpty = false) : set.toList ≠ [] := by
  intro hnil
  refine beq_eq_false_iff_ne.mp h (BitVec.eq_of_getLsbD_eq fun i hi => ?_)
  have hindices : RuleName.all.map RuleName.index = List.range 6 := by decide
  obtain ⟨rule, hrule, rfl⟩ := List.mem_map.mp (hindices ▸ List.mem_range.mpr hi)
  simpa [contains] using List.filter_eq_nil_iff.mp hnil rule hrule

namespace Furthest

/-- What would have been accepted, as messages mention it: rules first. -/
def alternatives (record : Furthest) : List String :=
  record.rules.toList.map (·.description) ++ record.expected.toList.map (·.display)

/-- The message for a record that is not empty tells what was expected, and names the token
found. -/
theorem message_eq {record : Furthest} (h : record.isEmpty = false) (lexemes : Lexemes) :
    record.alternatives ≠ [] ∧
      record.message lexemes = "Expected " ++ joinAlternatives record.alternatives ++ " but " ++
        foundAt lexemes record.position ++ " found." := by
  have hne : record.alternatives ≠ [] := by
    unfold isEmpty at h
    rw [Bool.and_eq_false_iff] at h
    unfold alternatives
    rcases h with h | h
    · simp [TokenSet.toList_ne_nil h]
    · simp [RuleSet.toList_ne_nil h]
  refine ⟨hne, ?_⟩
  unfold message expectedMessage
  split
  · next hnil => exact absurd hnil hne
  · rfl

end Furthest

/-! ### Names of tokens -/

/-- How messages name a token: the end of the input by these words, text that is no token by its
first character, and any other token by its text; both stand between backticks. -/
inductive Token.IsNamed (token : Token) : String → Prop
  | ending (hkind : token.kind = .eof) : IsNamed token "end of input"
  | unknown (hkind : token.kind = .error) {c : Char} {rest : List Char}
      (htext : token.text.toList = c :: rest) : IsNamed token ("`" ++ String.singleton c ++ "`")
  | plain (heof : token.kind ≠ .eof) (herror : token.kind ≠ .error) :
      IsNamed token ("`" ++ token.text ++ "`")

/-- What messages say was found at an index is the name of the token there. -/
theorem Furthest.foundAt_isNamed {source : String} {token : Token} {i : Nat}
    (h : (lex source).tokens.get? i = some token) :
    token.IsNamed (foundAt (lex source).tokens.lexemes i) := by
  unfold foundAt
  rw [TokenList.kindAt_lexemes h, TokenList.textAt_lexemes h]
  split
  · next hkind => exact .ending hkind
  · next hkind =>
    have hne : token.text.toList ≠ [] :=
      lex_text_ne (Array.mem_of_getElem? h) (by rw [hkind]; decide)
    obtain ⟨c, rest, htext⟩ := List.exists_cons_of_ne_nil hne
    rw [htext]
    exact .unknown hkind htext
  · next heof herror => exact .plain heof herror

/-! ### Entry points -/

/-- A run gives a failure if and only if it fails, and then gives the record that it leaves. -/
theorem Grammar.run_eq_error {α : Type} {parser : Parser α} {lexemes : Lexemes} {tolerant : Bool}
    {record : Furthest} :
    run parser lexemes tolerant = .error record ↔
      ∃ fault s, parser { lexemes, tolerant } {} = .error fault s ∧ record = s.trail.furthest := by
  unfold run
  cases parser { lexemes, tolerant } {} with
  | ok v s => simp
  | error fault s => simp [eq_comm]

/-- A source that is read by a run of a parser on its words gets an error if and only if it is too
long, or the run fails; then the error is that of the record that the run leaves. -/
theorem Source.read_eq_error {α β : Type} {source : String} {error : SyntaxError}
    (parser : Lexemes → Parser α) (tolerant : Bool) (place : Layout → α → β) :
    read source (fun lexemes => Grammar.run (parser lexemes) lexemes tolerant) place =
        .error error ↔
      ¬ WithinLimit source ∧ error = lengthError source ∨
        WithinLimit source ∧ ∃ fault s, parser (lex source).tokens.lexemes
            { lexemes := (lex source).tokens.lexemes, tolerant } {} = .error fault s ∧
          error = syntaxError (layout source) s.trail.furthest := by
  refine read_eq_error_iff.trans (or_congr_right (and_congr_right fun _ => ?_))
  constructor
  · rintro ⟨record, hrun, he⟩
    obtain ⟨fault, s, hfails, rfl⟩ := Grammar.run_eq_error.mp hrun
    exact ⟨fault, s, hfails, he⟩
  · rintro ⟨fault, s, hfails, he⟩
    exact ⟨_, Grammar.run_eq_error.mpr ⟨fault, s, hfails, rfl⟩, he⟩

/-- What a source can be read as. -/
inductive Entry
  | program | expression | statement

namespace Entry

/-- The trees of the grammar. -/
def Tree : Entry → Type
  | program => List (SourceUnit .parsed)
  | expression => Expression Extent
  | statement => Statement .parsed

/-- The trees, placed in a source. -/
def Value : Entry → Type
  | program => Program
  | expression => Expression Span
  | statement => Statement .located

/-- The rule for a whole input. -/
def rule : (entry : Entry) → Inner → Parser entry.Tree
  | program => Grammar.units
  | expression => Grammar.wholeExpression
  | statement => Grammar.wholeStatement

/-- The run of the rule on an input, without tolerance. -/
def run (entry : Entry) (lexemes : Lexemes) : EStateM.Result Fault ParseState entry.Tree :=
  entry.rule (Inner.ofLexemes lexemes) { lexemes } {}

/-- Reads a source, without tolerance. -/
def read : (entry : Entry) → String → Except SyntaxError entry.Value
  | program, source => Source.parse source
  | expression, source => Source.parseExpression source
  | statement, source => Source.parseStatement source

/-- A source gets an error if and only if it is too long, or the run fails; then the error is that
of the record that the run leaves. -/
theorem read_eq_error {entry : Entry} {source : String} {error : SyntaxError} :
    entry.read source = .error error ↔
      ¬ Source.WithinLimit source ∧ error = Source.lengthError source ∨
        Source.WithinLimit source ∧
          ∃ fault s, entry.run (lex source).tokens.lexemes = .error fault s ∧
            error = Source.syntaxError (Source.layout source) s.trail.furthest := by
  cases entry
  · exact Source.read_eq_error (Grammar.units <| Inner.ofLexemes ·) false Layout.program
  · exact Source.read_eq_error (Grammar.wholeExpression <| Inner.ofLexemes ·) false
      fun layout => Expression.relocate layout.span
  · exact Source.read_eq_error (Grammar.wholeStatement <| Inner.ofLexemes ·) false
      fun layout => Statement.relocate layout.relocation

/-- The rules for two inputs have an account at their start. -/
theorem rule_accounts (entry : Entry) (w : Alike) :
    (entry.rule (Inner.ofLexemes w.first.lexemes)).Accounts w false 0
      (entry.rule (Inner.ofLexemes w.second.lexemes)) fun _ _ => True := by
  have h := Inner.accounts_ofLexemes w
  cases entry
  · exact Grammar.units_accounts h
  · exact Grammar.wholeExpression_accounts h
  · exact Grammar.wholeStatement_accounts h

/-- A run that fails leaves a record that is right, at a token where the run has been, and not
before the one where it stopped. -/
theorem run_eq_error {entry : Entry} {lexemes : Lexemes} {fault : Fault} {s : ParseState}
    (h : entry.run lexemes = .error fault s) :
    s.trail.Exact ∧ s.trail.Covers s.position ∧
      lexemes.GoesOn 0 s.trail.furthest.position := by
  have haccount : Parser.Account (.refl lexemes) {} (entry.run lexemes) (entry.run lexemes)
      fun _ _ => True :=
    entry.rule_accounts (.refl lexemes) {} rfl Trail.exact_empty nofun (Nat.zero_le _)
  have hleads := haccount.leads
  have hcovers := haccount.covers fault s h
  rw [h] at hleads
  have hexact := hleads.grows.exact Trail.exact_empty
  refine ⟨hexact, hcovers, ?_⟩
  rcases hleads.inside _ (hexact.mem hcovers.reported) with hnone | hgoes
  · cases hnone
  · exact hgoes

/-! ### Where an error is -/

end Entry

/-- An error of a source is at its token `i`: located where that token starts. -/
def SyntaxError.IsAt (error : SyntaxError) (source : String) (i : Nat) : Prop :=
  ∃ token, (lex source).tokens.get? i = some token ∧
    error.location = (LineTable.ofText source.toList).locate token.span.start

/-- The index of the token that an error is at is unique. -/
theorem SyntaxError.IsAt.unique {error : SyntaxError} {source : String} {i j : Nat}
    (h : error.IsAt source i) (h' : error.IsAt source j) : i = j := by
  obtain ⟨s, hs, hloc⟩ := h
  obtain ⟨t, ht, hloc'⟩ := h'
  have hplaced := lex_placed source
  have hoffset : min s.span.start (Text.byteLength source.toList) =
      min t.span.start (Text.byteLength source.toList) :=
    congrArg Location.offset (hloc.symm.trans hloc')
  have hinside := hplaced.inside hs
  have hinside' := hplaced.inside ht
  exact hplaced.index_unique hs ht (by omega)

/-- What the error of a source reports of a run that left the state `s`. -/
structure SyntaxError.Reports (error : SyntaxError) (source : String) (s : ParseState) : Prop where
  /-- There is a failure on record. -/
  nonempty : s.trail.furthest.isEmpty = false
  /-- It was reported. -/
  mem : s.trail.furthest.position ∈ s.trail.reported
  /-- None that was reported is further on. -/
  greatest : ∀ n ∈ s.trail.reported, n ≤ s.trail.furthest.position
  /-- The run did not stop further on. -/
  reached : s.position ≤ s.trail.furthest.position
  /-- The error is at the token of the record. -/
  isAt : error.IsAt source s.trail.furthest.position
  /-- That is in the source, or at its end. -/
  inside : error.location.offset ≤ Text.byteLength source.toList
  /-- It names the token as the one found. -/
  found : ∃ token name, (lex source).tokens.get? s.trail.furthest.position = some token ∧
    token.IsNamed name ∧
    error.message = "Expected " ++
      Furthest.joinAlternatives s.trail.furthest.alternatives ++ " but " ++ name ++ " found."

/-- As long as the tokens go on, there is a token. -/
theorem lex_get?_of_goesOn {source : String} {i : Nat}
    (h : (lex source).tokens.lexemes.GoesOn 0 i) :
    ∃ token, (lex source).tokens.get? i = some token := by
  have hplaced := lex_placed source
  have hpos := hplaced.size_pos
  have hi : i < (lex source).tokens.size := by
    refine Nat.lt_of_not_le fun hle =>
      h ((lex source).tokens.size - 1) (Nat.zero_le _) (by omega) ?_
    exact TokenList.kindAt_lexemes hplaced.last
  exact ⟨_, Array.getElem?_eq_getElem hi⟩

/-- The error for a record is at the token of the record, as long as the tokens go on up to it. -/
theorem Source.syntaxError_isAt {source : String} {record : Furthest}
    (h : (lex source).tokens.lexemes.GoesOn 0 record.position) :
    (syntaxError (layout source) record).IsAt source record.position := by
  obtain ⟨token, htoken⟩ := lex_get?_of_goesOn h
  have hspan : (lex source).tokens.span record.position = token.span := by
    unfold TokenList.span
    rw [htoken]
  refine ⟨token, htoken, ?_⟩
  rw [← hspan]
  rfl

/-- The error for the record that a run leaves reports the furthest of all failures. -/
theorem Source.syntaxError_reports {entry : Entry} {source : String} {fault : Fault}
    {s : ParseState} (h : entry.run (lex source).tokens.lexemes = .error fault s) :
    (syntaxError (layout source) s.trail.furthest).Reports source s := by
  obtain ⟨hexact, hcovers, hgoes⟩ := Entry.run_eq_error h
  have hnonempty := hexact.nonempty hcovers.reported
  obtain ⟨token, htoken⟩ := lex_get?_of_goesOn hgoes
  constructor
  case nonempty => exact hnonempty
  case mem => exact hexact.mem hcovers.reported
  case greatest => exact hexact.le
  case reached => exact hcovers.le
  case isAt => exact syntaxError_isAt hgoes
  case inside => exact Nat.min_le_right _ _
  case found =>
    exact ⟨token, _, htoken, Furthest.foundAt_isNamed htoken, (Furthest.message_eq hnonempty _).2⟩

namespace Entry

/-- What is reported of a source that is not well formed is the furthest of all failures met in any
alternative. A source that is too long is not read at all, and gets an error for its length. -/
theorem read_error_reports {entry : Entry} {source : String} {error : SyntaxError}
    (h : entry.read source = .error error) :
    ¬ Source.WithinLimit source ∧ error = Source.lengthError source ∨
      Source.WithinLimit source ∧
        ∃ fault s, entry.run (lex source).tokens.lexemes = .error fault s ∧
          error.Reports source s := by
  refine (read_eq_error.mp h).imp_right (And.imp_right ?_)
  rintro ⟨fault, s, hrun, rfl⟩
  exact ⟨fault, s, hrun, Source.syntaxError_reports hrun⟩

/-- An `if` without a condition, in one of several alternatives: the failure on record is that of
the closing parenthesis. -/
theorem read_error_reports_statement :
    statement.read "if () x;" =
        .error ⟨"Expected expression but `)` found.", ⟨1, 5, 4⟩⟩ ∧
      ∃ fault s, statement.run (lex "if () x;").tokens.lexemes = .error fault s ∧
        s.trail.furthest.position = 2 ∧
        SyntaxError.Reports ⟨"Expected expression but `)` found.", ⟨1, 5, 4⟩⟩ "if () x;" s := by
  have hread : statement.read "if () x;" =
      .error ⟨"Expected expression but `)` found.", ⟨1, 5, 4⟩⟩ := by
    refine Source.errorOf?_eq_some_iff.mp ?_
    rw [read, Source.parseStatement, Source.read_ofList]
    decide +kernel
  have hsize : Source.WithinLimit "if () x;" := by
    rw [Source.withinLimit_ofList]
    decide
  have htoken : (lex "if () x;").tokens.get? 2 = some ⟨⟨.rparen, ")"⟩, ⟨4, 5⟩⟩ := by
    rw [lex_ofList]
    decide +kernel
  have hplace : (LineTable.ofText "if () x;".toList).locate 4 = ⟨1, 5, 4⟩ := by decide +kernel
  obtain ⟨htoo, -⟩ | ⟨-, fault, s, hrun, hreports⟩ := read_error_reports hread
  · exact absurd hsize htoo
  · refine ⟨hread, fault, s, hrun, hreports.isAt.unique ⟨_, htoken, hplace.symm⟩, hreports⟩

end Entry

/-! ### What an error depends on -/

/-- The tokens of two sources agree in kind and spelling up to an index; past the end of a source
stands the end of the input. -/
def AgreesUpTo (source other : String) (i : Nat) : Prop :=
  ∀ n ≤ i, (lex other).tokens.lexemes.kindAt n = (lex source).tokens.lexemes.kindAt n ∧
    (lex other).tokens.lexemes.textAt n = (lex source).tokens.lexemes.textAt n

instance (source other : String) (i : Nat) : Decidable (AgreesUpTo source other i) :=
  inferInstanceAs (Decidable (∀ n ≤ i, _))

namespace Entry

/-- A source with the same tokens, up to two places after the one that an error is at, has the same
error at its own token there, unless one of the two is too long. -/
theorem read_error_local {entry : Entry} {source other : String} {error : SyntaxError} {i : Nat}
    (hsize : Source.WithinLimit source) (hsize' : Source.WithinLimit other)
    (h : entry.read source = .error error) (hat : error.IsAt source i)
    (hagrees : AgreesUpTo source other (i + 2)) :
    ∃ error', entry.read other = .error error' ∧ error'.message = error.message ∧
      error'.IsAt other i := by
  obtain ⟨htoo, -⟩ | ⟨-, fault, s, hrun, rfl⟩ := read_eq_error.mp h
  · exact absurd hsize htoo
  have hreports := Source.syntaxError_reports hrun
  obtain rfl := hat.unique hreports.isAt
  -- the run comes no further than the failure, so the other run is the same
  have haccount := entry.rule_accounts
    { first := { lexemes := (lex source).tokens.lexemes },
      second := { lexemes := (lex other).tokens.lexemes }, bound := s.trail.furthest.position,
      kindAt := fun n hn => (hagrees n hn).1, textAt := fun n hn => (hagrees n hn).2,
      strict := rfl, strict' := rfl } {} rfl Trail.exact_empty nofun (Nat.zero_le _)
  have hsame := haccount.same (Nat.zero_le _)
  rw [show entry.rule (Inner.ofLexemes _) { lexemes := (lex source).tokens.lexemes } {} = _
    from hrun] at hsame
  have hother : entry.run (lex other).tokens.lexemes = .error fault s :=
    hsame (Nat.max_le.mpr ⟨hreports.reached, Nat.le_refl _⟩)
  refine ⟨_, read_eq_error.mpr (.inr ⟨hsize', fault, s, hother, rfl⟩), ?_,
    (Source.syntaxError_reports hother).isAt⟩
  have hfound : Furthest.foundAt (lex other).tokens.lexemes s.trail.furthest.position =
      Furthest.foundAt (lex source).tokens.lexemes s.trail.furthest.position := by
    unfold Furthest.foundAt
    rw [(hagrees _ (by omega)).1, (hagrees _ (by omega)).2]
  show Furthest.message _ (lex other).tokens.lexemes =
    Furthest.message _ (lex source).tokens.lexemes
  unfold Furthest.message
  rw [hfound]

/-- A state variable without a name: what comes after the next two tokens does not matter. -/
theorem read_error_local_contract :
    let source := "contract C \x7b uint ; \x7d contract D \x7b \x7d"
    let other := "contract C \x7b uint ; \x7d contract ["
    let error : SyntaxError :=
      ⟨"Expected identifier, `constant`, `immutable`, or `override` but `;` found.", ⟨1, 19, 18⟩⟩
    Source.WithinLimit source ∧ Source.WithinLimit other ∧ program.read source = .error error ∧
      error.IsAt source 4 ∧ AgreesUpTo source other 6 ∧
      ∃ error', program.read other = .error error' ∧ error'.message = error.message ∧
        error'.IsAt other 4 := by
  intro source other error
  have hsize : Source.WithinLimit source := by
    rw [Source.withinLimit_ofList]
    decide
  have hsize' : Source.WithinLimit other := by
    rw [Source.withinLimit_ofList]
    decide
  have hread : program.read source = .error error := by
    refine Source.errorOf?_eq_some_iff.mp ?_
    rw [read, Source.parse, Source.read_ofList]
    decide +kernel
  have htoken : (lex source).tokens.get? 4 = some ⟨⟨.semicolon, ";"⟩, ⟨18, 19⟩⟩ := by
    rw [lex_ofList]
    decide +kernel
  have hplace : (LineTable.ofText source.toList).locate 18 = ⟨1, 19, 18⟩ := by decide +kernel
  have hat : error.IsAt source 4 := ⟨_, htoken, hplace.symm⟩
  have hagrees : AgreesUpTo source other 6 := by
    rw [AgreesUpTo, lex_ofList, lex_ofList]
    decide +kernel
  exact ⟨hsize, hsize', hread, hat, hagrees, read_error_local hsize hsize' hread hat hagrees⟩

end Entry

end SolidityParser
