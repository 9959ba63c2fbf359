import SolidityParser.Proofs.Grammar.Rounds
import SolidityParser.Proofs.Parser.Truthful
import SolidityParser.Proofs.Spans
import SolidityParser.Token.Cursor

/-!
# Outcomes are truthful, and parses end

Choices go by what rules say about the input they consumed, and loops go round until a round gives
nothing, so a rule that says what is not so, or a round that consumes nothing, would break a parse
or keep it from ending. `Grammar.disciplined` rules both out, for every state that a parse may come
to and however the input is read.

* `IsRule` lists the rules of the grammar but for array suffixes, and `Disciplined` says what holds
  of a run of them: a rule that consumed input says so, one that did not is at the token where it
  began and has not succeeded, and the end of the input is not passed.
* Array suffixes end a type, and what they say is of all of it. Reckoned from any token before them
  it is so (`Disciplined.suffixes`, `Outcome.Completes.truthful`); reckoned from where they begin it
  need not be (`arraySuffixes_not_truthful`), since after `uint` alone they consume nothing, and say
  that input was consumed.
* `LoopsEnd` says that the loops end, with no budget of rounds.
* `Bottomless` says that entry rules come to the same whatever is below the levels of nesting that
  the input has tokens for, so the recursion ends as well.

Parsers read words by index. A cursor that walks over the tokens of a source sees the same wherever
a parse may be, and never leaves the tokens (`ParseState.Reachable.follows`).

A level of nesting costs a token, so at any token a run has more levels left than there are tokens
ahead, and these are the levels that rules are run at here. The flags of a scope are an argument of
every run, so a failure leaves them as they were.
-/

namespace SolidityParser

/-! ### States that a parse may come to -/

/-- The states that a parse may come to, with some further ones: a token is consumed that is not the
end of the input, a token or a rule is reported, a choice takes the position of one state and the
record of another, and what a rule tried is reported under its name. -/
inductive ParseState.Reachable (lexemes : Lexemes) : ParseState → Prop
  | start : Reachable lexemes {}
  | advance {s : ParseState} (hs : Reachable lexemes s)
      (more : lexemes.kindAt s.position ≠ .eof) :
      Reachable lexemes { s with position := s.position + 1 }
  | token {s : ParseState} (hs : Reachable lexemes s) (kind : Kind) :
      Reachable lexemes { s with trail := s.trail.addToken s.position kind }
  | rule {s : ParseState} (hs : Reachable lexemes s) (name : RuleName) :
      Reachable lexemes { s with trail := s.trail.addRule s.position name }
  | back {s t : ParseState} (hs : Reachable lexemes s) (ht : Reachable lexemes t) :
      Reachable lexemes ⟨s.position, t.trail⟩
  | collapse {s t : ParseState} (hs : Reachable lexemes s) (ht : Reachable lexemes t)
      (name : RuleName) :
      Reachable lexemes { t with trail := t.trail.collapse s.position s.trail name }

namespace ParseState.Reachable

variable {lexemes : Lexemes} {s : ParseState}

theorem regular (h : s.Reachable lexemes) : s.Regular lexemes := by
  have hinv := ParseState.Regular.invariant
  induction h with
  | start => exact .start lexemes
  | advance _ more ih => exact hinv.advance ih more
  | token _ kind ih => exact ⟨ih.goesOn, (Trail.reports_addToken _ _ _).exact ih.exact⟩
  | rule _ name ih => exact hinv.rule name ih
  | back _ _ ihs iht => exact hinv.back ihs iht
  | collapse _ _ name ihs iht => exact hinv.collapse name ihs iht

/-- What a parse can come to is kept by each of its steps. -/
theorem invariant : Invariant ParseState.Reachable where
  advance hs more := .advance hs more
  miss hs _ := .token hs _
  rule name hs := .rule hs name
  back hs ht := .back hs ht
  collapse name hs ht := .collapse hs ht name

/-- Where an import lacks `from`, a miss is recorded as anywhere else. -/
theorem keptWithoutFrom : KeptWithoutFrom ParseState.Reachable := fun _ _ hs _ => .token hs _

end ParseState.Reachable

/-! ### The cursor of a parse -/

/-- A cursor stands where a parse is. -/
structure TokenCursor.Follows (cursor : TokenCursor) (scope : Scope) (s : ParseState) : Prop where
  /-- The parse reads the words of the cursor's tokens. -/
  words : scope.lexemes = cursor.list.lexemes
  /-- Both are at the same token. -/
  position : s.position = cursor.position

namespace TokenCursor.Follows

variable {cursor : TokenCursor} {scope : Scope} {s : ParseState}

/-- The words that are ahead of both are of the same kinds. -/
theorem kindAt_eq (h : cursor.Follows scope s) (n : Nat) :
    scope.lexemes.kindAt (s.position + n) = cursor.kindAhead n := by
  rw [h.words, h.position, kindAhead, TokenList.kind_eq]

/-- The word that both are at is spelled alike. -/
theorem textAt_eq (h : cursor.Follows scope s) (hlt : cursor.position < cursor.list.size) :
    scope.lexemes.textAt s.position = cursor.text := by
  obtain ⟨token, htoken⟩ := cursor.list.exists_get? hlt
  rw [h.words, h.position, TokenList.textAt_lexemes htoken]
  change token.text = cursor.list.text cursor.position
  rw [TokenList.text, htoken]

/-- The parse looks ahead as the cursor does. -/
theorem kindAhead_run (h : cursor.Follows scope s) (n : Nat) :
    Parser.kindAhead n scope s = .ok (cursor.kindAhead n) s := by
  rw [← h.kindAt_eq]
  rfl

/-- The next token is the first one ahead. -/
theorem kind_run (h : cursor.Follows scope s) : Parser.kind scope s = .ok cursor.kind s :=
  h.kindAhead_run 0

/-- A token is spelled alike for both. Past the last token the words are spelled with nothing, and
the cursor falls back on the last token. -/
theorem text_run (h : cursor.Follows scope s) (hlt : cursor.position < cursor.list.size) :
    Parser.text scope s = .ok cursor.text s := by
  rw [← h.textAt_eq hlt]
  rfl

/-- A word stands there for both or for neither, also past the last token, where none does. -/
theorem isWord_run (h : cursor.Follows scope s) (word : String) :
    Parser.isWord word scope s = .ok (cursor.atWord word) s := by
  have hkind : scope.lexemes.kindAt s.position = cursor.kind := h.kindAt_eq 0
  have hword : scope.lexemes.isWordAt s.position word = cursor.atWord word := by
    rw [Lexemes.isWordAt, atWord, isAt, ← hkind]
    by_cases hident : scope.lexemes.kindAt s.position = .ident
    · have hlt : s.position < scope.lexemes.size :=
        Lexemes.lt_size_of_kindAt (by rw [hident]; decide)
      rw [h.words, TokenList.lexemes, Array.size_map, h.position] at hlt
      rw [h.textAt_eq hlt]
    · rw [beq_eq_false_iff_ne.mpr hident, Bool.false_and, Bool.false_and]
  rw [← hword]
  rfl

/-- Where the parse goes on to the next token, the cursor does, and at the end of the input both
stay. -/
theorem advance_run (h : cursor.Follows scope s) :
    ∃ t, Parser.advance scope s = .ok () t ∧ cursor.next.Follows scope t := by
  have hkind : scope.lexemes.kindAt s.position = cursor.kind := h.kindAt_eq 0
  by_cases hend : cursor.kind = .eof
  · refine ⟨s, if_pos (hkind.trans hend), ?_⟩
    have hnext : cursor.next = cursor := if_pos (beq_iff_eq.mpr hend)
    rwa [hnext]
  · refine ⟨{ s with position := s.position + 1 }, if_neg (hkind ▸ hend), ?_⟩
    have hnext : cursor.next = cursor.moveTo (cursor.position + 1) :=
      if_neg (mt beq_iff_eq.mp hend)
    rw [hnext]
    exact ⟨h.words, congrArg (· + 1) h.position⟩

/-- A node that began at another cursor over the same tokens and ends here lies between the spans
that the two cursors see. -/
theorem span_extent (h : cursor.Follows scope s) (text : List Char) (first : Nat) :
    (Layout.mk text cursor.list).span ⟨first, s.position⟩ =
      ⟨(cursor.moveTo first).span.start,
        max cursor.previousSpan.stop (cursor.moveTo first).span.start⟩ := by
  rw [h.position]
  rfl

end TokenCursor.Follows

/-- Wherever a parse of a source may be, a cursor gets there from the first token, by a step for
each token before, and it is at a token there. -/
theorem ParseState.Reachable.follows {source : String} {scope : Scope} {s : ParseState}
    (hscope : scope.lexemes = (lex source).tokens.lexemes) (hs : s.Reachable scope.lexemes) :
    let cursor := Nat.repeat TokenCursor.next s.position { list := (lex source).tokens }
    cursor.Follows scope s ∧ cursor.position < cursor.list.size := by
  have hfollows :
      (Nat.repeat TokenCursor.next s.position { list := (lex source).tokens }).Follows scope s := by
    induction hs with
    | start => exact ⟨hscope, rfl⟩
    | advance _ more ih =>
      obtain ⟨t, hrun, ht⟩ := ih.advance_run
      rw [Parser.advance, if_neg more] at hrun
      cases hrun
      exact ht
    | token _ _ ih => exact ⟨ih.words, ih.position⟩
    | rule _ _ ih => exact ⟨ih.words, ih.position⟩
    | back _ _ ih _ => exact ⟨ih.words, ih.position⟩
    | collapse _ _ _ _ ih => exact ⟨ih.words, ih.position⟩
  refine ⟨hfollows, ?_⟩
  have hsize := congrArg Array.size (hscope.symm.trans hfollows.words)
  rw [TokenList.lexemes, TokenList.lexemes, Array.size_map, Array.size_map] at hsize
  rw [← hfollows.position, TokenList.size, ← hsize]
  -- The end of the input stands last, and no token before the position is the end.
  refine Nat.lt_of_not_le fun hle => ?_
  have hplaced := lex_placed source
  have hlast := TokenList.kindAt_lexemes hplaced.last
  have hpos := hplaced.size_pos
  refine hs.regular.goesOn _ (Nat.zero_le _) ?_ (hscope ▸ hlast)
  unfold TokenList.size at *
  omega

namespace Grammar

open SolidityParser.Parser (Accounts Ends)

/-! ### Rules -/

/-- A state variable that is not taken back. -/
def committedVariable (inner : Inner) : Rule (StateVariable Extent) :=
  Rule.ofParser <| Parser.within .stateVariable do
    let start ← Parser.position
    let type ← inner.typeName.finish
    let attributes ← Parser.iterate variableAttribute? {}
    let name ← Parser.expectIdent
    let value ← initialValue? inner
    Parser.expect .semicolon
    return ⟨← Parser.extentFrom start, type, name.name, attributes.visibility,
      attributes.isConstant, attributes.isImmutable, attributes.overrides, value⟩

/-- A state variable is tried, and taken back where it does not come through. -/
theorem stateVariable_eq (inner : Inner) :
    stateVariable inner = (committedVariable inner).attempt := rfl

/-- A rule of the grammar that begins where it is tried, which array suffixes do not: for types and
statements at one level of nesting, for members and units at the level around it. The type that a
member begins with is read at the level within, and no token is consumed in between. -/
inductive IsRule (outer inner : Inner) : {α : Type} → Rule α → Prop
  | namedType : IsRule outer inner namedType
  | mappingType : IsRule outer inner (mappingType inner)
  | functionType : IsRule outer inner (functionType inner)
  | typeName : IsRule outer inner (typeName inner)
  | keywordStatement : IsRule outer inner (keywordStatement inner)
  | placeholder : IsRule outer inner placeholder
  | revertStatement : IsRule outer inner (revertStatement inner)
  | declarationStatement : IsRule outer inner (Rule.ofParser (declarationStatement inner))
  | declarationAttempt : IsRule outer inner (declarationAttempt inner)
  | expressionStatement : IsRule outer inner (Rule.ofParser (expressionStatement inner))
  | statement : IsRule outer inner (statement inner)
  | contractFunction : IsRule outer inner (contractFunction outer)
  | freeFunction : IsRule outer inner (freeFunction outer)
  | constructorFunction : IsRule outer inner (constructorFunction outer)
  | receiveFunction : IsRule outer inner (receiveFunction outer)
  | fallbackFunction : IsRule outer inner (fallbackFunction outer)
  | modifierDeclaration : IsRule outer inner (modifierDeclaration outer)
  | eventDefinition : IsRule outer inner (eventDefinition outer)
  | errorDefinition : IsRule outer inner (errorDefinition outer)
  | structDefinition : IsRule outer inner (structDefinition outer)
  | enumDefinition : IsRule outer inner enumDefinition
  | usingDirective : IsRule outer inner (usingDirective outer)
  | valueTypeDefinition : IsRule outer inner valueTypeDefinition
  | committedVariable : IsRule outer inner (committedVariable outer)
  | stateVariable : IsRule outer inner (stateVariable outer)
  | contractPart : IsRule outer inner (contractPart outer)
  | pragmaDirective : IsRule outer inner pragmaDirective
  | importDirective : IsRule outer inner importDirective
  | contract : IsRule outer inner (contract outer)
  | fileConstant : IsRule outer inner (fileConstant outer)
  | sourceUnit : IsRule outer inner (sourceUnit outer)

/-- What is known of a rule by how it is put together, and from its account at one token. -/
structure Known {α : Type} (w : Alike) (i : Nat) (r : Rule α) : Prop where
  /-- Its outcomes fit its runs. -/
  fits : r.Fits []
  /-- It comes to states that a parse may come to. -/
  keeps : r.Keeps ParseState.Reachable []
  /-- Where it succeeds, it has consumed a token. -/
  moves : ∃ tells, r.Accounts w tells i r fun _ j => i < j

/-- A rule that is built from parts that are known, and moves on, is known. -/
theorem Known.of_built {α : Type} {w : Alike} {i : Nat} {r : Rule α} {tells : Bool}
    {b : α → Ledger} (built : Rule.Built [] {} r b)
    (moves : r.Accounts w tells i r fun _ j => i < j) : Known w i r :=
  ⟨built.fits, built.keeps ParseState.Reachable.invariant, tells, moves⟩

/-- The outcomes of a pragma fit its runs, since its keyword decides it. -/
theorem pragmaDirective_fits : pragmaDirective.Fits [] := by
  rw [pragmaDirective_eq]
  exact .within <| .opening <| .ofParser <| Parser.Steady.position.bind fun _ =>
    Parser.Steady.advance.bind fun _ =>
    .bind (Parser.Built.steady expectIdent_built) fun _ => pragmaRest_steady

/-- So do those of an import, whose keyword decides it too. -/
theorem importDirective_fits : importDirective.Fits [] := by
  rw [importDirective_eq]
  exact .within <| .opening <| .ofParser <| Parser.Steady.position.bind fun _ =>
    Parser.Steady.advance.bind fun _ => importRest_steady

section Facts

variable {w : Alike} {i : Nat} {inner : Inner} (hi : inner.Built)

include hi

/-- The outcomes of a unit fit its runs as those of each of its alternatives do. -/
theorem sourceUnit_fits : (sourceUnit inner).Fits [] := by
  have declared : Rule.Built [] {} (Rule.firstOf (declarations inner)) _ := declarations_built hi
  rw [sourceUnit_eq]
  exact .named <| .orElse pragmaDirective_fits <| .orElse (.map importDirective_fits) declared.fits

/-- Reading a unit comes to states that a parse comes to. -/
theorem sourceUnit_keeps : (sourceUnit inner).Keeps ParseState.Reachable [] := by
  have hinv := ParseState.Reachable.invariant
  have declared : Rule.Built [] {} (Rule.firstOf (declarations inner)) _ := declarations_built hi
  rw [sourceUnit_eq]
  exact hinv.keeps_ruleNamed <| hinv.keeps_orElse (pragmaDirective_keeps hinv.toStepInvariant) <|
    hinv.keeps_orElse
      (.map (importDirective_keeps hinv.toStepInvariant ParseState.Reachable.keptWithoutFrom))
      (declared.keeps hinv)

omit hi in
/-- A state variable is past its first token where it comes through. -/
theorem committedVariable_accounts (h : Inner.Accounts w i inner inner) :
    (committedVariable inner).Accounts w true i (committedVariable inner) fun _ j => i < j :=
  .ofParser <| .within <| .position <| (h.typeName (by omega)).finish.bind fun _ _ _ _ =>
    .bind (.iterate fun _ _ _ => variableAttribute?_accounts) fun _ _ _ _ =>
    .expectIdent fun _ => (initialValue?_accounts (h.later (by omega))).bind fun _ _ _ _ =>
    .expect nofun fun _ => .extentFrom <| .pure (by omega)

/-- It is built from the rules for types and expressions within. -/
theorem committedVariable_built {known : List Kind} {a : Ledger} :
    Rule.Built known a (committedVariable inner) fun _ => a :=
  .ofParser <| .within _ <| .position fun _ => .bind (.weaken (.finish (hi.typeName a))) fun _ =>
    .bind (.iterate fun _ => variableAttribute?_built) fun _ => .bind expectIdent_built fun _ =>
    .bind (initialValue?_built hi) fun _ => .bind (.expect rfl) fun _ => .extentFrom fun _ => .done

/-- All rules that begin where they are tried are known: the outcomes fit, states are kept and
tokens are consumed. -/
theorem IsRule.known {outer : Inner} (ho : outer.Built) (h : Inner.Accounts w i outer outer)
    (h' : Inner.Accounts w (i + 1) inner inner) {α : Type} {r : Rule α}
    (hr : IsRule outer inner r) : Known w i r := by
  have hinv := ParseState.Reachable.invariant
  cases hr with
  | namedType => exact .of_built namedType_built namedType_accounts
  | mappingType => exact .of_built (mappingType_built hi) (mappingType_accounts h')
  | functionType => exact .of_built (functionType_built hi) (functionType_accounts h')
  | typeName => exact .of_built (typeName_built hi) (typeName_accounts h')
  | keywordStatement =>
    exact .of_built (keywordStatement_built hi) (keywordStatement_accounts h')
  | placeholder => exact .of_built placeholder_built placeholder_accounts
  | revertStatement => exact .of_built (revertStatement_built hi) (revertStatement_accounts h')
  | declarationStatement =>
    exact .of_built (.ofParser (declarationStatement_built hi))
      (.ofParser (declarationStatement_accounts h'))
  | declarationAttempt =>
    exact .of_built (declarationAttempt_built hi) (declarationAttempt_accounts h')
  | expressionStatement =>
    exact .of_built (.ofParser (expressionStatement_built hi))
      (.ofParser (expressionStatement_accounts h'))
  | statement => exact .of_built (statement_built hi) (statement_accounts h')
  | contractFunction => exact .of_built (contractFunction_built ho) (contractFunction_accounts h)
  | freeFunction => exact .of_built (freeFunction_built ho) (freeFunction_accounts h)
  | constructorFunction =>
    exact .of_built (constructorFunction_built ho) (constructorFunction_accounts h)
  | receiveFunction => exact .of_built (receiveFunction_built ho) (receiveFunction_accounts h)
  | fallbackFunction => exact .of_built (fallbackFunction_built ho) (fallbackFunction_accounts h)
  | modifierDeclaration =>
    exact .of_built (modifierDeclaration_built ho) (modifierDeclaration_accounts h)
  | eventDefinition => exact .of_built (eventDefinition_built ho) (eventDefinition_accounts h)
  | errorDefinition => exact .of_built (errorDefinition_built ho) (errorDefinition_accounts h)
  | structDefinition => exact .of_built (structDefinition_built ho) (structDefinition_accounts h)
  | enumDefinition => exact .of_built enumDefinition_built enumDefinition_accounts
  | usingDirective => exact .of_built (usingDirective_built ho) (usingDirective_accounts h)
  | valueTypeDefinition => exact .of_built valueTypeDefinition_built valueTypeDefinition_accounts
  | committedVariable =>
    exact .of_built (committedVariable_built ho) (committedVariable_accounts h)
  | stateVariable => exact .of_built (stateVariable_built ho) (stateVariable_accounts h)
  | contractPart => exact .of_built (contractPart_built ho) (contractPart_accounts h)
  | pragmaDirective =>
    exact ⟨pragmaDirective_fits, pragmaDirective_keeps hinv.toStepInvariant, _,
      pragmaDirective_accounts⟩
  | importDirective =>
    exact ⟨importDirective_fits,
      importDirective_keeps hinv.toStepInvariant ParseState.Reachable.keptWithoutFrom, _,
      importDirective_accounts⟩
  | contract => exact .of_built (contract_built ho) (contract_accounts h)
  | fileConstant => exact .of_built (fileConstant_built ho) (fileConstant_accounts h)
  | sourceUnit => exact ⟨sourceUnit_fits ho, sourceUnit_keeps ho, _, sourceUnit_accounts h⟩

end Facts

/-! ### Discipline -/

/-- A parser, run from a state, comes to one that a parse may come to, and consumes a token if it
succeeds. -/
structure Consumes {α : Type} (p : Parser α) (scope : Scope) (s : ParseState) : Prop where
  /-- It comes to a state that a parse may come to. -/
  reaches : (Parser.final (p scope s)).Reachable scope.lexemes
  /-- If it succeeds, it consumes a token. -/
  moves : ∀ v t, p scope s = .ok v t → s.position < t.position

/-- What holds of the grammar at a state; loops and array suffixes come after a token. -/
structure Disciplined (outer inner : Inner) (scope : Scope) (s : ParseState) : Prop where
  /-- No token before the current one is the end of the input. -/
  inside : scope.lexemes.GoesOn 0 s.position
  /-- The outcome of a rule tells whether it consumed input, and never that it succeeded without. -/
  truthful : ∀ {α : Type} {r : Rule α}, IsRule outer inner r →
    (r scope s).1.Truthful s.position (r scope s).2.position
  /-- A rule comes to a state of which the same holds. -/
  reaches : ∀ {α : Type} {r : Rule α}, IsRule outer inner r → (r scope s).2.Reachable scope.lexemes
  /-- Array suffixes end a type that began before: they say that input was consumed. -/
  suffixes : ∀ start base, (arraySuffixes outer start base scope s).1.Completes s.position
    (arraySuffixes outer start base scope s).2.position
  /-- They come to a state of which the same holds. -/
  suffixed : ∀ start base,
    (arraySuffixes outer start base scope s).2.Reachable scope.lexemes
  /-- An expression consumes a token. -/
  expression : Consumes (expression inner) scope s
  /-- A block consumes a token. -/
  block : Consumes (block inner.statement) scope s
  /-- Skipping comes to a state of which the same holds. -/
  skips : (Parser.final (skipIncomplete outer.statement scope s)).Reachable scope.lexemes
  /-- What is skipped in the place of a statement has a token. -/
  skipped : ∀ skipped t, skipIncomplete outer.statement scope s = .ok (some skipped) t →
    s.position < t.position
  /-- A round of a loop that is not the last consumes a token, and not the end of the input. -/
  round : ∀ {β : Type} {round : Parser (Option β)} {v : β} {t : ParseState}, IsRound outer round →
    round scope s = .ok (some v) t →
      s.position < t.position ∧ scope.lexemes.GoesOn 0 t.position

/-- The loops of the grammar, begun at a state, end without a budget, and come to what they come to
with one. -/
structure LoopsEnd (inner : Inner) (scope : Scope) (s : ParseState) : Prop where
  /-- Loops that go on with what a round gives. -/
  iterate : ∀ {β : Type} {step : β → Parser (Option β)} (v : β), (∀ v, IsRound inner (step v)) →
    Ends scope (Parser.iterateBody step) v s (Parser.iterate step v scope s)
  /-- Loops that collect what rounds give. -/
  collect : ∀ {α : Type} {step : Parser (Option α)}, IsRound inner step →
    Ends scope (Parser.collectBody step) [] s (Parser.collect step scope s)
  /-- Items with commas between. -/
  separated : ∀ {α : Type} {item : Parser α}, IsRound inner (itemBeforeComma? item) →
    Ends scope (Parser.separatedBody item) [] s (Parser.separated item scope s)
  /-- The loop that skips a statement. -/
  skip : ∀ brackets, Ends scope (Parser.skipBody inner.statement) brackets s
    (skipAtFuel inner.statement (scope.lexemes.size - s.position + 1) brackets scope s)

/-- What is below more levels of nesting than the input has tokens does not matter to the entry
rules; the one for imports alone has no levels. -/
structure Bottomless (lexemes : Lexemes) (tolerant : Bool) : Prop where
  /-- Units of a source. -/
  units : ∀ base depth, lexemes.size < depth →
    run (units (Inner.above base depth)) lexemes tolerant = parseUnits lexemes tolerant
  /-- An expression. -/
  expression : ∀ base depth, lexemes.size < depth →
    run (wholeExpression (Inner.above base depth)) lexemes = parseExpression lexemes
  /-- A statement. -/
  statement : ∀ base depth, lexemes.size < depth →
    run (wholeStatement (Inner.above base depth)) lexemes = parseStatement lexemes

section Parts

variable {scope : Scope} {s : ParseState} {depth : Nat} (hs : InReach scope (depth + 1) s)

include hs

/-- After a token, the level within has accounts too. -/
theorem accounts_within :
    Inner.Accounts (.one scope 0) (s.position + 1) (.upTo depth) (.upTo depth) := by
  have hdepth : scope.lexemes.size < s.position + 1 + depth := by
    have := hs.deep
    omega
  exact Inner.accounts_upTo depth depth hdepth hdepth

/-- A rule is known at the token a run is at. -/
theorem IsRule.known_here {α : Type} {r : Rule α}
    (hr : IsRule (.upTo (depth + 1)) (.upTo depth) r) : Known (.one scope 0) s.position r :=
  hr.known (Inner.built_upTo depth) (Inner.built_upTo (depth + 1)) hs.accounts (accounts_within hs)

/-- What succeeds consumes a token, and what consumes one says so. -/
theorem IsRule.truthful {α : Type} {r : Rule α}
    (hr : IsRule (.upTo (depth + 1)) (.upTo depth) r) :
    (r scope s).1.Truthful s.position (r scope s).2.position := by
  obtain ⟨hfits, -, tells, hmoves⟩ := hr.known_here hs
  exact (hfits scope s trivial).truthful (hmoves s rfl hs.regular.exact hs.regular.le_size).gives

omit hs in
/-- What is built from combinators comes to states that a parse may come to. -/
theorem reaches_of_built {α : Type} {p : Parser α} {b : α → Ledger}
    (built : Parser.Built [] {} p b) (hreached : s.Reachable scope.lexemes) :
    (Parser.final (p scope s)).Reachable scope.lexemes := by
  have hkeeps : p.Keeps ParseState.Reachable [] := built.keeps ParseState.Reachable.invariant
  exact hkeeps scope s trivial hreached

/-- An expression takes up at least one token. -/
theorem expression_consumes (hreached : s.Reachable scope.lexemes) :
    Consumes (expression (.upTo depth)) scope s where
  reaches := reaches_of_built (expression_built (Inner.built_upTo depth)) hreached
  moves := ((expression_accounts (accounts_within hs)).at hs.regular).2.2

/-- So does a block. -/
theorem block_consumes (hreached : s.Reachable scope.lexemes) :
    Consumes (block (Inner.upTo depth).statement) scope s where
  reaches := reaches_of_built (block_built (Inner.built_upTo depth)) hreached
  moves := ((block_accounts (accounts_within hs)).at hs.regular).2.2

/-- Skipping past a statement that cannot be read goes on by at least one token. -/
theorem skipIncomplete_moves {skipped : Extent} {t : ParseState}
    (hrun : skipIncomplete (Inner.upTo (depth + 1)).statement scope s = .ok (some skipped) t) :
    s.position < t.position := by
  have haccounts : Accounts (.one scope 0) false s.position _ _ _ :=
    skipIncomplete_accounts rfl (Nat.le_max_left _ _) fun j hj =>
      hs.accounts.speculative.statement (Nat.le_of_lt hj)
  exact ((haccounts.at hs.regular).2.2 _ t hrun).2 rfl

/-- At each level of nesting the rules keep to their outcomes, if those one level further in do. -/
theorem disciplined_upTo (hreached : s.Reachable scope.lexemes) :
    Disciplined (.upTo (depth + 1)) (.upTo depth) scope s where
  inside := hs.regular.goesOn
  truthful hr := hr.truthful hs
  reaches hr := (hr.known_here hs).keeps scope s trivial hreached
  suffixes start base := arraySuffixes_completes start base hs
  suffixed start base := by
    have hinv := ParseState.Reachable.invariant
    have hkeeps : (arraySuffixes (.upTo (depth + 1)) start base).Keeps ParseState.Reachable [] :=
      .decided <| .iterate (fun _ =>
        (nextArray?_built (Inner.built_upTo (depth + 1)) (a := {})).keeps hinv) base
    exact hkeeps scope s trivial hreached
  expression := expression_consumes hs hreached
  block := block_consumes hs hreached
  skips := by
    have hkeeps :
        (skipIncomplete (Inner.upTo (depth + 1)).statement).Keeps ParseState.Reachable [] :=
      ParseState.Reachable.invariant.keeps_skipIncomplete _
    exact hkeeps scope s trivial hreached
  skipped _ _ := skipIncomplete_moves hs
  round hround hrun := by
    obtain ⟨hlt, ht⟩ := hround.moves hs hrun
    exact ⟨hlt, ht.goesOn⟩

/-- Their loops end, since each round consumes a token or is the last. -/
theorem loopsEnd_upTo : LoopsEnd (.upTo (depth + 1)) scope s where
  iterate _ hstep := .iterate (iterateBody_movesOn hstep) hs
  collect hstep := .collect (collectBody_movesOn hstep) hs
  separated hitem := .separated (separatedBody_movesOn hitem) hs
  skip _ := .skip skipBody_movesOn hs

end Parts

/-- Runs that come to the same up to any token come to the same. -/
theorem run_eq_run {α : Type} {lexemes : Lexemes} {tolerant : Bool} {p q : Parser α}
    {post : α → Nat → Prop}
    (h : ∀ bound, Accounts (.one { lexemes, tolerant } bound) false 0 p q post) :
    run q lexemes tolerant = run p lexemes tolerant := by
  have hagain := (h (Parser.final (p { lexemes, tolerant } {})).mark {} rfl Trail.exact_empty nofun
    (Nat.zero_le _)).same (Nat.zero_le _) (Nat.le_max_right _ _)
  unfold run
  rw [show q { lexemes, tolerant } {} = p { lexemes, tolerant } {} from hagain]

/-- With more levels of nesting than there are tokens, the entry rules do not come to the last. -/
theorem bottomless (lexemes : Lexemes) (tolerant : Bool) : Bottomless lexemes tolerant := by
  have h {tolerant : Bool} (base : Inner) {depth : Nat} (hdepth : lexemes.size < depth)
      (bound : Nat) : Inner.Accounts (.one { lexemes, tolerant } bound) 0 (.ofLexemes lexemes)
        (base.above depth) := by
    unfold Inner.ofLexemes
    rw [Inner.upTo_eq_above]
    exact Inner.accounts_above _ _ (by simp [Alike.one]) (by simpa [Alike.one] using hdepth)
  exact {
    units := fun base _ hdepth => run_eq_run fun bound => units_accounts (h base hdepth bound)
    expression := fun base _ hdepth =>
      run_eq_run fun bound => wholeExpression_accounts (h base hdepth bound)
    statement := fun base _ hdepth =>
      run_eq_run fun bound => wholeStatement_accounts (h base hdepth bound) }

/-- Wherever a parse may be, with or without tolerance, outcomes are truthful, what is to consume
input does, loops end, and what the entry rules come to does not depend on a bound on nesting. -/
theorem disciplined {scope : Scope} {s : ParseState} {depth : Nat}
    (hs : s.Reachable scope.lexemes) (hdepth : scope.lexemes.size ≤ s.position + depth) :
    Disciplined (.upTo (depth + 1)) (.upTo depth) scope s ∧ LoopsEnd (.upTo (depth + 1)) scope s ∧
      Bottomless scope.lexemes scope.tolerant := by
  have hreach : InReach scope (depth + 1) s := ⟨hs.regular, Nat.lt_succ_of_le hdepth⟩
  exact ⟨disciplined_upTo hreach hs, loopsEnd_upTo hreach,
    bottomless scope.lexemes scope.tolerant⟩

/-- In the body of a function that is read with tolerance, after one of two tokens. -/
theorem disciplined_body :
    let scope : Scope :=
      { lexemes := #[⟨.lbrace, "\x7b"⟩, ⟨.rbrace, "\x7d"⟩], tolerant := true, inBody := true }
    let s : ParseState := { position := 1 }
    s.Reachable scope.lexemes ∧ scope.lexemes.size ≤ s.position + 1 ∧
      Disciplined (.upTo 2) (.upTo 1) scope s ∧ LoopsEnd (.upTo 2) scope s ∧
      Bottomless scope.lexemes scope.tolerant := by
  intro scope s
  have hs : s.Reachable scope.lexemes := .advance .start (by decide)
  exact ⟨hs, by decide, disciplined hs (by decide)⟩

/-- After `uint`, where the input ends, array suffixes succeed where they began, and say that they
consumed input. -/
theorem arraySuffixes_not_truthful :
    let scope : Scope := { lexemes := #[⟨.ident, "uint"⟩] }
    let s : ParseState := { position := 1 }
    let base : TypeName Extent := .elementary ⟨0, 1⟩ "uint" false
    s.Reachable scope.lexemes ∧
      arraySuffixes (.upTo 1) 0 base scope s = (.consumedOk base, s) ∧
      ¬ (arraySuffixes (.upTo 1) 0 base scope s).1.Truthful s.position
        (arraySuffixes (.upTo 1) 0 base scope s).2.position := by
  intro scope s base
  have hrun : arraySuffixes (.upTo 1) 0 base scope s = (.consumedOk base, s) := rfl
  refine ⟨.advance .start (by decide), hrun, ?_⟩
  rw [hrun]
  exact Nat.lt_irrefl 1

end Grammar

end SolidityParser
