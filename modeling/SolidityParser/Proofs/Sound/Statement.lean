import SolidityParser.Proofs.Complete.TypeName
import SolidityParser.Proofs.Grammar.Entry
import SolidityParser.Proofs.Grammar.Progress
import SolidityParser.Proofs.Sound.Block

/-!
# What the rules for statements read

Each rule for a statement reads one that stands in the input, and the choice among them the first
that can be read: what is taken for an expression could not be taken for a declaration, since the
attempt at one would have read it (`Rule.Missed.not_declares`).
-/

namespace SolidityParser

open Lexemes (Lays IsStatement)

namespace Rule

variable {α : Type} {scope : Scope} {i j : Nat} {v : α} {r : Rule α}

/-- What begins with a token does not miss where the token is. -/
theorem Missed.not_keyword {f : Nat → Parser α}
    (h : (Rule.ofParser (do
      let start ← Parser.position
      Parser.advance
      f start)).Missed scope i)
    (hf : ∀ n, (f n).Steady 0) : scope.lexemes.kindAt i = .eof := by
  obtain ⟨s, rfl, hmissed⟩ := h
  refine Decidable.byContradiction fun hne => ?_
  unfold Rule.ofParser at hmissed
  rw [Parser.bind_of_ok (show Parser.position scope s = .ok _ s from rfl),
    Parser.bind_of_ok (Parser.advance_run hne)] at hmissed
  have hforward := (hf s.position).forward scope { s with position := s.position + 1 }
  cases hrun : f s.position scope { s with position := s.position + 1 } with
  | ok w t =>
    simp only [hrun] at hmissed
    split at hmissed <;> cases hmissed
  | error fault t =>
    simp only [hrun, Parser.reached] at hmissed hforward
    rw [if_pos (Nat.lt_of_succ_le hforward)] at hmissed
    cases hmissed

/-- No declaration stands where the attempt at one missed. -/
theorem Missed.not_declares {inner : Inner} {depth : Nat} (hc : inner.Complete depth)
    (hd : scope.lexemes.size ≤ i + depth) (h : (Grammar.declarationAttempt inner).Missed scope i) :
    ¬ scope.lexemes.Declares i := by
  rintro ⟨place, slots, initial, j, hphrase⟩
  have hreads : (Grammar.declarationStatement inner).Reads { scope with speculative := true } i
      (.declaration place slots initial) j :=
    Grammar.declarationStatement_reads hc
      (show ({ scope with speculative := true } : Scope).lexemes.size ≤ i + depth from hd) hphrase
  exact h.not_reads (.attempt (.ofParser hreads))

end Rule

namespace Lexemes

variable {lexemes : Lexemes} {repairs : Repairs} {i j : Nat} {s : Statement .parsed}
  {symbols : List Symbol}

/-- A statement with no others in it, and no declaration or expression in place of another. -/
theorem IsStatement.of_composed (hplace : (Part.statement s).place = ⟨i, j⟩)
    (hcomposed : (Part.statement s).Composed symbols) (hspells : lexemes.Spells i symbols j)
    (hdecided : lexemes.Decided (.statement s)) (hchosen : lexemes.Chosen s)
    (hwhole : ∀ field ∈ (Part.statement s).fields, ∀ e, Part.expression e ∈ field → e.IsWhole)
    (hbelow : ∀ field ∈ (Part.statement s).fields, ∀ child ∈ field,
      child.All (lexemes.Supports repairs)) : lexemes.IsStatement repairs i s j :=
  ⟨.of_composed hplace hwhole hdecided hcomposed hspells hbelow, hchosen⟩

/-- A statement with nothing below it can be read in one way only. -/
theorem IsStatement.of_leaf (hcomposed : (Part.statement s).Composed symbols)
    (hspells : lexemes.Spells i symbols j)
    (h : s.place = ⟨i, j⟩ ∧ (Part.statement s).fields = []) :
    lexemes.IsStatement repairs i s j ∧ ¬ (Part.statement s).IsIncomplete := by
  obtain ⟨hplace, hfields⟩ := h
  suffices hs : lexemes.Decided (.statement s) ∧ lexemes.Chosen s ∧
      ¬ (Part.statement s).IsIncomplete by
    exact ⟨.of_composed hplace hcomposed hspells hs.1 hs.2.1 (by simp [hfields])
      (by simp [hfields]), hs.2.2⟩
  cases hcomposed <;> first
    | exact ⟨.of_none ⟨rfl, rfl, rfl, rfl⟩, ⟨trivial, trivial⟩, id⟩
    | cases hfields

/-- Statements that stand where any may, each being the first way to read it. -/
theorem Decided.of_branches {branches : List (Statement .parsed)}
    (h : (Part.statement s).branches = branches ∧ (Part.statement s).initial? = none)
    (hbranches : ∀ b ∈ branches, lexemes.Chosen b ∧ ¬ (Part.statement b).IsIncomplete) :
    lexemes.Decided (.statement s) := by
  obtain ⟨rfl, hinitial⟩ := h
  exact ⟨fun b hb => (hbranches b hb).1, fun b hb => (hbranches b hb).2, by simp [hinitial],
    by simp [Part.members]⟩

end Lexemes

namespace Grammar

variable {inner : Inner} {scope : Scope} {i j k : Nat} {s : Statement .parsed}

/-! ### Statements without others in them -/

/-- A statement that is one keyword spells the keyword and a semicolon. -/
theorem bareKeyword_spells {keyword : Kind} {statement : Extent → Statement .parsed}
    (hk : scope.lexemes.kindAt i = keyword) (hne : keyword ≠ .eof)
    (h : (bareKeyword statement).Gives scope i s j) :
    s = statement ⟨i, j⟩ ∧ scope.lexemes.Spells i [.token keyword, .token .semicolon] j := by
  obtain ⟨hsemi, h⟩ := (h.position.advance (by rwa [hk])).expect (by decide)
  obtain ⟨rfl, rfl⟩ := h.extentFrom.pure
  exact ⟨rfl, ⟨hne, hk⟩, ⟨by decide, hsemi⟩, rfl⟩

/-- A language may stand before the flags of an assembly block. -/
theorem language_spells {language : Option String}
    (h : Parser.Gives scope i
      (do if (← Parser.kind) = .string then some <$> expectString else pure none) language j) :
    ∃ given : Option String, language = given.map Quoted.valueOf ∧
      scope.lexemes.Spells i (given.toList.map (.word .string)) j := by
  rcases h.kindIf with ⟨-, h⟩ | ⟨-, h⟩
  · obtain ⟨value, hvalue, rfl⟩ := h.map
    obtain ⟨text, rfl, hspells⟩ := expectString_spells hvalue
    exact ⟨some text, rfl, hspells⟩
  · obtain ⟨rfl, rfl⟩ := h.pure
    exact ⟨none, rfl, rfl⟩

/-- Flags are strings in parentheses, if there are parentheses. -/
theorem flags_spells {values : List String}
    (h : Parser.Gives scope i (do
      if ← Parser.eat .lparen then Parser.series .rparen expectString else pure []) values j) :
    ∃ given : Option (List String), values = (given.getD []).map Quoted.valueOf ∧
      scope.lexemes.Spells i (Symbol.flags given) j := by
  rcases h.eatIf (by decide) with ⟨hopen, h⟩ | ⟨-, h⟩
  · obtain ⟨texts, rfl, hspells⟩ := h.series_exists_spells (by decide)
      fun _ _ _ h => expectString_spells h
    exact ⟨some texts, rfl, ⟨by decide, hopen⟩, hspells⟩
  · obtain ⟨rfl, rfl⟩ := h.pure
    exact ⟨none, rfl, rfl⟩

/-- Assembly is a passage in braces that is not looked into. -/
theorem assemblyStatement_isStatement {repairs : Repairs}
    (hk : scope.lexemes.kindAt i = .kwAssembly) (h : assemblyStatement.Gives scope i s j) :
    scope.lexemes.IsStatement repairs i s j ∧ ¬ (Part.statement s).IsIncomplete := by
  obtain ⟨_, k, hlanguage, h⟩ := (h.position.advance (by rw [hk]; decide)).kindBind
  obtain ⟨_, l, hflags, h⟩ := h.eatBind
  obtain ⟨language, rfl, hspells⟩ := language_spells hlanguage
  obtain ⟨flags, rfl, hspells'⟩ := flags_spells hflags
  obtain ⟨hopen, h⟩ := h.position.expect (by decide)
  obtain ⟨_, m, hbody, h⟩ := h.bind
  obtain ⟨rfl, rfl⟩ := h.extentFrom.extentFrom.pure
  obtain ⟨kinds, hclose, hbody⟩ := skipBraces_spells hbody
  refine IsStatement.of_leaf (.assembly hclose) ?_ ⟨rfl, rfl⟩
  have hword : scope.lexemes.Spells i [.token .kwAssembly] (i + 1) := ⟨⟨by decide, hk⟩, rfl⟩
  have hbraces : scope.lexemes.Spells l
      (.here l :: .token .lbrace :: kinds.map .token ++ [.here j]) j :=
    ⟨rfl, ⟨by decide, hopen⟩, hbody.append ⟨rfl, rfl⟩⟩
  simpa using hword.append (hspells.append (hspells'.append hbraces))

/-- A placeholder is one word, with a semicolon right after it. -/
theorem placeholder_isStatement {repairs : Repairs} (h : placeholder.Gives scope i s j) :
    scope.lexemes.IsStatement repairs i s j ∧ ¬ (Part.statement s).IsIncomplete := by
  obtain ⟨htest, h⟩ := h.provided
  obtain ⟨hword, hsemi⟩ := Bool.and_eq_true_iff.mp htest
  replace hsemi := beq_iff_eq.mp hsemi
  have hk := Lexemes.kindAt_of_isWordAt hword
  obtain ⟨rfl, rfl⟩ := ((h.taking (by rw [hk]; decide)).advance
    (by rw [hsemi]; decide)).extentFrom.pure
  exact IsStatement.of_leaf .placeholder
    ⟨⟨by decide, hk, Lexemes.textAt_of_isWordAt hword⟩, ⟨by decide, hsemi⟩, rfl⟩ ⟨rfl, rfl⟩

section Nested

variable (hi : inner.Sound) (hw : scope.lexemes.WellSpelled)

include hi hw

/-! ### Statements with expressions in them -/

/-- A test is an expression in parentheses. -/
theorem test_spells {e : Expression Extent} (h : (test inner).Gives scope i e j) :
    scope.lexemes.Spells i [.token .lparen, .part e.place, .token .rparen] j ∧
      (Part.expression e).All scope.lexemes.Holds ∧ e.IsWhole := by
  obtain ⟨hopen, h⟩ := h.expect (by decide)
  obtain ⟨value, k, hvalue, h⟩ := h.bind
  obtain ⟨hclose, h⟩ := h.expect (by decide)
  obtain ⟨rfl, rfl⟩ := h.pure
  have hread := expression_isRead hi hw hvalue
  exact ⟨⟨⟨by decide, hopen⟩, hread.phrase.spells ⟨⟨by decide, hclose⟩, rfl⟩⟩,
    hread.phrase.holds, hread.level_le⟩

/-- An expression stands in front of a token, or the token stands there right away. -/
theorem expressionUnless_spells {close : Kind} {given : Option (Expression Extent)}
    (h : (expressionUnless inner close).Gives scope i given j) :
    scope.lexemes.Spells i (Symbol.option (given.map (·.place))) j ∧
      ∀ e ∈ given, (Part.expression e).All scope.lexemes.Holds ∧ e.IsWhole := by
  rcases h.kindIf with ⟨-, h⟩ | ⟨-, h⟩
  · obtain ⟨rfl, rfl⟩ := h.pure
    exact ⟨rfl, by simp⟩
  · obtain ⟨e, hvalue, rfl⟩ := h.map
    have hread := expression_isRead hi hw hvalue
    refine ⟨hread.phrase.spells rfl, ?_⟩
    rintro _ ⟨⟩
    exact ⟨hread.phrase.holds, hread.level_le⟩

/-- An expression with a semicolon is a statement. -/
theorem expressionStatement_lays {repairs : Repairs}
    (h : (expressionStatement inner).Gives scope i s j) :
    scope.lexemes.Lays repairs i (.statement s) j ∧ ∃ value, s = .expression ⟨i, j⟩ value := by
  obtain ⟨value, k, hvalue, h⟩ := h.position.bind
  obtain ⟨hsemi, h⟩ := h.expect (by decide)
  obtain ⟨rfl, rfl⟩ := h.extentFrom.pure
  have hread := expression_isRead hi hw hvalue
  refine ⟨.of_composed rfl ?_ (.of_none ⟨rfl, rfl, rfl, rfl⟩) .expression
    (hread.phrase.spells ⟨⟨by decide, hsemi⟩, rfl⟩) ?_, value, rfl⟩
  · simpa [Part.Tight, Part.fields, Part.statementFields, Expression.IsWhole] using hread.level_le
  · simpa [Part.fields, Part.statementFields] using hread.phrase.lays.stands

/-- A word before an expression and a semicolon. -/
theorem prefixedExpression_spells {statement : Extent → Expression Extent → Statement .parsed}
    (hne : scope.lexemes.kindAt i ≠ .eof)
    (h : (prefixedExpression inner statement).Gives scope i s j) :
    ∃ value, s = statement ⟨i, j⟩ value ∧
      scope.lexemes.Spells (i + 1) [.part value.place, .token .semicolon] j ∧
      (Part.expression value).All scope.lexemes.Holds ∧ value.IsWhole := by
  obtain ⟨value, k, hvalue, h⟩ := (h.position.advance hne).bind
  obtain ⟨hsemi, h⟩ := h.expect (by decide)
  obtain ⟨rfl, rfl⟩ := h.extentFrom.pure
  have hread := expression_isRead hi hw hvalue
  exact ⟨value, rfl, hread.phrase.spells ⟨⟨by decide, hsemi⟩, rfl⟩, hread.phrase.holds,
    hread.level_le⟩

/-- To revert with an error is a word and a call. -/
theorem revertStatement_isStatement {repairs : Repairs}
    (h : (revertStatement inner).Gives scope i s j) :
    scope.lexemes.IsStatement repairs i s j ∧ ¬ (Part.statement s).IsIncomplete := by
  obtain ⟨htest, h⟩ := h.provided
  obtain ⟨hword, hident⟩ := Bool.and_eq_true_iff.mp htest
  have hk := Lexemes.kindAt_of_isWordAt hword
  obtain ⟨value, rfl, hspells, hall, hwhole⟩ :=
    prefixedExpression_spells hi hw (by rw [hk]; decide) h.ofParser
  refine ⟨.of_composed rfl .revert
    ⟨⟨by decide, hk, Lexemes.textAt_of_isWordAt hword⟩, hspells⟩
    (.of_none ⟨rfl, rfl, rfl, rfl⟩) ⟨trivial, beq_iff_eq.mp hident⟩ ?_ ?_, id⟩
  · simpa [Part.fields, Part.statementFields] using hwhole
  · simpa [Part.fields, Part.statementFields] using hall.mono fun _ => .phrase

/-- To emit an event is a keyword and a call. -/
theorem emitStatement_isStatement {repairs : Repairs} (hk : scope.lexemes.kindAt i = .kwEmit)
    (h : (prefixedExpression inner fun place event => .emit place event).Gives scope i s j) :
    scope.lexemes.IsStatement repairs i s j ∧ ¬ (Part.statement s).IsIncomplete := by
  obtain ⟨value, rfl, hspells, hall, hwhole⟩ :=
    prefixedExpression_spells hi hw (by rw [hk]; decide) h
  refine ⟨.of_composed rfl .emit ⟨⟨by decide, hk⟩, hspells⟩
    (.of_none ⟨rfl, rfl, rfl, rfl⟩) ⟨trivial, trivial⟩ ?_ ?_, id⟩
  · simpa [Part.fields, Part.statementFields] using hwhole
  · simpa [Part.fields, Part.statementFields] using hall.mono fun _ => .phrase

/-- To return is a keyword, and a value if there is one. -/
theorem returnStatement_isStatement {repairs : Repairs} (hk : scope.lexemes.kindAt i = .kwReturn)
    (h : (returnStatement inner).Gives scope i s j) :
    scope.lexemes.IsStatement repairs i s j ∧ ¬ (Part.statement s).IsIncomplete := by
  obtain ⟨argument, k, hargument, h⟩ := (h.position.advance (by rw [hk]; decide)).bind
  obtain ⟨hsemi, h⟩ := h.expect (by decide)
  obtain ⟨rfl, rfl⟩ := h.extentFrom.pure
  obtain ⟨hspells, hall⟩ := expressionUnless_spells hi hw hargument
  refine ⟨.of_composed rfl .returned ?_ (.of_none ⟨rfl, rfl, rfl, rfl⟩) ⟨trivial, trivial⟩ ?_ ?_,
    id⟩
  · exact ⟨⟨by decide, hk⟩, hspells.append ⟨⟨by decide, hsemi⟩, rfl⟩⟩
  · simpa [Part.fields, Part.statementFields] using fun e he => (hall e he).2
  · simpa [Part.fields, Part.statementFields] using
      fun e he => (hall e he).1.mono fun _ => .phrase

/-- A declaration that was tried and came through is a phrase. -/
theorem declarationAttempt_isPhrase (h : (declarationAttempt inner).Gives scope i s j) :
    scope.lexemes.IsPhrase i (.statement s) j ∧
      ∃ place slots initial, s = .declaration place slots initial := by
  have hw' : ({ scope with speculative := true } : Scope).lexemes.WellSpelled := hw
  have hphrase := declarationStatement_isPhrase hi hw' h.attempt.ofParser
  refine ⟨hphrase, ?_⟩
  obtain ⟨symbols, hphrased, -⟩ := hphrase.written
  cases hphrased
  · exact ⟨_, _, _, rfl⟩
  · exact ⟨_, _, _, rfl⟩

/-- What a loop does first is a declaration, or an expression where there is none. -/
theorem forInitial_spells {depth : Nat} (hc : inner.Complete depth)
    (hd : scope.lexemes.size ≤ i + depth) {initial : Option (Statement .parsed)}
    (h : (forInitial inner).Gives scope i initial j) :
    scope.lexemes.Spells i (Symbol.initial (initial.map (·.place))) j ∧
      ∀ b ∈ initial, (Part.statement b).All (scope.lexemes.Supports (.ofTolerance scope.tolerant)) ∧
        b.IsSimple ∧ scope.lexemes.Preferred b := by
  rcases h.eatIf (by decide) with ⟨hk, h⟩ | ⟨-, h⟩
  · obtain ⟨rfl, rfl⟩ := h.pure
    exact ⟨⟨⟨by decide, hk⟩, rfl⟩, by simp⟩
  · obtain ⟨b, hb, rfl⟩ := h.map
    suffices hlays : scope.lexemes.Lays (.ofTolerance scope.tolerant) i (.statement b) j ∧
        b.IsSimple ∧ scope.lexemes.Preferred b by
      refine ⟨hlays.1.spells rfl, ?_⟩
      rintro _ ⟨⟩
      exact ⟨hlays.1.stands, hlays.2⟩
    rcases hb.finish.elim with h | ⟨hmissed, h⟩
    · obtain ⟨hphrase, place, slots, initial, rfl⟩ := declarationAttempt_isPhrase hi hw h
      exact ⟨hphrase.lays, trivial, trivial⟩
    · rcases h.elim with h | ⟨-, h⟩
      · obtain ⟨hlays, value, rfl⟩ := expressionStatement_lays hi hw h.ofParser
        exact ⟨hlays, trivial, hmissed.not_declares hc hd⟩
      · exact h.none.elim

/-- Parameters stand in parentheses, if there are parentheses. -/
theorem parametersIfOpen_spells {given : Option (List (Parameter Extent))}
    (h : (parametersIfOpen inner).Gives scope i given j) :
    scope.lexemes.Spells i (Symbol.given given) j ∧
      ∀ p ∈ given.getD [], (Part.parameter p).All scope.lexemes.Holds ∧ p.isIndexed = false := by
  rcases h.kindIf with ⟨-, h⟩ | ⟨-, h⟩
  · obtain ⟨parameters, hparameters, rfl⟩ := h.map
    obtain ⟨hspells, hall⟩ := parameters_spells (typeName_readsTypes hi hw) hparameters
    exact ⟨hspells, fun p hp => (hall p hp).imp_right fun h => h rfl⟩
  · obtain ⟨rfl, rfl⟩ := h.pure
    exact ⟨rfl, by simp⟩

end Nested

/-- Neither of the words that are tried first stands where both rules missed. -/
theorem noWord_of_missed (hb : inner.Built) (hplaceholder : placeholder.Missed scope i)
    (hrevert : (revertStatement inner).Missed scope i) : scope.lexemes.NoWord i := by
  have not_word {word : String} (hword : scope.lexemes.isWordAt i word = true)
      (heof : scope.lexemes.kindAt i = .eof) : False := by
    rw [Lexemes.kindAt_of_isWordAt hword] at heof
    cases heof
  refine ⟨fun ⟨hword, hsemi⟩ => ?_, fun ⟨hword, hident⟩ => ?_⟩
  · rcases hplaceholder.provided with htest | h
    · rw [hword, hsemi] at htest
      cases htest
    · exact Rule.Missed.not_taking h
  · rcases hrevert.provided with htest | h
    · rw [hword, hident] at htest
      cases htest
    · exact not_word hword <| h.not_keyword fun start =>
        (Parser.Steady.built (expression_built hb)).bind fun _ => Parser.Steady.expect.bind fun _ =>
          (Parser.Steady.extentFrom start).bind fun _ => .pure _

/-! ### Statements with others in them -/

section Others

variable {lo : Nat} (hi : inner.Sound) (hw : scope.lexemes.WellSpelled)
  (hs : inner.statement.ReadsStatements scope lo)

include hs

/-- What comes after `else` is spelled, and where nothing does there is no `else`. -/
theorem alternate_spells (hlo : lo ≤ i + 1) {alternate : Option (Statement .parsed)}
    (h : Parser.Gives scope i (do
      if ← Parser.eat .kwElse then some <$> inner.statement.finish else pure none) alternate j) :
    scope.lexemes.Spells i (Symbol.orElse (alternate.map (·.place))) j ∧
      ∀ b ∈ alternate,
        (Part.statement b).All (scope.lexemes.Supports (.ofTolerance scope.tolerant)) ∧
        scope.lexemes.Chosen b ∧ ¬ (Part.statement b).IsIncomplete := by
  rcases h.eatIf (by decide) with ⟨hk, h⟩ | ⟨hk, h⟩
  · obtain ⟨b, hb, rfl⟩ := h.map
    obtain ⟨⟨hlays, hchosen⟩, hcomplete⟩ := hs hlo hb.finish
    refine ⟨⟨⟨by decide, hk⟩, hlays.spells rfl⟩, ?_⟩
    rintro _ ⟨⟩
    exact ⟨hlays.stands, hchosen, hcomplete⟩
  · obtain ⟨rfl, rfl⟩ := h.pure
    exact ⟨⟨by rwa [Lexemes.ahead_kind (by decide)], rfl⟩, by simp⟩

/-- An unchecked block is a statement. -/
theorem uncheckedStatement_isStatement (hlo : lo ≤ i + 1)
    (hk : scope.lexemes.kindAt i = .kwUnchecked)
    (h : (uncheckedStatement inner).Gives scope i s j) :
    scope.lexemes.IsStatement (.ofTolerance scope.tolerant) i s j ∧
      ¬ (Part.statement s).IsIncomplete := by
  obtain ⟨body, k, hbody, h⟩ := (h.position.advance (by rw [hk]; decide)).bind
  obtain ⟨rfl, rfl⟩ := h.extentFrom.pure
  have hlays := block_lays (hs.mono (by omega)) hbody
  exact ⟨.of_composed rfl .unchecked ⟨⟨by decide, hk⟩, hlays.spells rfl⟩
    (.of_none ⟨rfl, rfl, rfl, rfl⟩) ⟨trivial, trivial⟩
    (by simp [Part.fields, Part.statementFields])
    (by simpa [Part.fields, Part.statementFields] using hlays.stands), id⟩

/-- A block is a statement by itself. -/
theorem blockStatement_isStatement (hlo : lo ≤ i + 1)
    (h : (.block <$> block inner.statement : Parser (Statement .parsed)).Gives scope i s j) :
    scope.lexemes.IsStatement (.ofTolerance scope.tolerant) i s j ∧
      ¬ (Part.statement s).IsIncomplete := by
  obtain ⟨body, hbody, rfl⟩ := h.map
  have hlays := block_lays (hs.mono hlo) hbody
  exact ⟨.of_composed hlays.place .blockStatement (hlays.spells rfl)
    (.of_none ⟨rfl, rfl, rfl, rfl⟩) ⟨trivial, trivial⟩
    (by simp [Part.fields, Part.statementFields])
    (by simpa [Part.fields, Part.statementFields] using hlays.stands), id⟩

include hi hw

/-- A choice takes the next `else` there is, so that none is left to one around it. -/
theorem ifStatement_isStatement (hlo : lo ≤ i + 1) (hk : scope.lexemes.kindAt i = .kwIf)
    (h : (ifStatement inner).Gives scope i s j) :
    scope.lexemes.IsStatement (.ofTolerance scope.tolerant) i s j ∧
      ¬ (Part.statement s).IsIncomplete := by
  obtain ⟨e, k, htest, h⟩ := (h.position.advance (by rw [hk]; decide)).bind
  obtain ⟨consequent, l, hconsequent, h⟩ := h.bind
  obtain ⟨alternate, m, halternate, h⟩ := h.eatBind
  obtain ⟨rfl, rfl⟩ := h.extentFrom.pure
  obtain ⟨htest, hall, hwhole⟩ := test_spells hi hw htest
  have hle := htest.inside.1
  obtain ⟨⟨hlays, hchosen⟩, hcomplete⟩ := hs (by omega) hconsequent.finish
  have hlt := hlays.lt
  obtain ⟨hspells, halternate⟩ := alternate_spells hs (by omega) halternate
  have hif : scope.lexemes.Spells i
      [.token .kwIf, .token .lparen, .part e.place, .token .rparen] k :=
    ⟨⟨by decide, hk⟩, htest⟩
  refine ⟨.of_composed rfl .ifElse (hif.append (hlays.spells hspells))
    (.of_branches ⟨rfl, rfl⟩ ?_) ⟨trivial, trivial⟩ ?_ ?_, id⟩
  · simpa [Part.branches] using ⟨⟨hchosen, hcomplete⟩, fun b hb => (halternate b hb).2⟩
  · simpa [Part.fields, Part.statementFields] using hwhole
  · simpa [Part.fields, Part.statementFields] using
      ⟨hall.mono fun _ => .phrase, hlays.stands, fun b hb => (halternate b hb).1⟩

/-- A loop is its test and its body. -/
theorem whileStatement_isStatement (hlo : lo ≤ i + 1) (hk : scope.lexemes.kindAt i = .kwWhile)
    (h : (whileStatement inner).Gives scope i s j) :
    scope.lexemes.IsStatement (.ofTolerance scope.tolerant) i s j ∧
      ¬ (Part.statement s).IsIncomplete := by
  obtain ⟨e, k, htest, h⟩ := (h.position.advance (by rw [hk]; decide)).bind
  obtain ⟨body, l, hbody, h⟩ := h.bind
  obtain ⟨rfl, rfl⟩ := h.extentFrom.pure
  obtain ⟨htest, hall, hwhole⟩ := test_spells hi hw htest
  have hle := htest.inside.1
  obtain ⟨⟨hlays, hchosen⟩, hcomplete⟩ := hs (by omega) hbody.finish
  have hwhile : scope.lexemes.Spells i
      [.token .kwWhile, .token .lparen, .part e.place, .token .rparen] k :=
    ⟨⟨by decide, hk⟩, htest⟩
  refine ⟨.of_composed rfl .whileLoop (hwhile.append (hlays.spells rfl))
    (.of_branches ⟨rfl, rfl⟩ ?_) ⟨trivial, trivial⟩ ?_ ?_, id⟩
  · simpa [Part.branches] using ⟨hchosen, hcomplete⟩
  · simpa [Part.fields, Part.statementFields] using hwhole
  · simpa [Part.fields, Part.statementFields] using ⟨hall.mono fun _ => .phrase, hlays.stands⟩

/-- The test may come after the body, with a semicolon. -/
theorem doWhileStatement_isStatement (hlo : lo ≤ i + 1) (hk : scope.lexemes.kindAt i = .kwDo)
    (h : (doWhileStatement inner).Gives scope i s j) :
    scope.lexemes.IsStatement (.ofTolerance scope.tolerant) i s j ∧
      ¬ (Part.statement s).IsIncomplete := by
  obtain ⟨body, k, hbody, h⟩ := (h.position.advance (by rw [hk]; decide)).bind
  obtain ⟨hwhile, h⟩ := h.expect (by decide)
  obtain ⟨e, l, htest, h⟩ := h.bind
  obtain ⟨hsemi, h⟩ := h.expect (by decide)
  obtain ⟨rfl, rfl⟩ := h.extentFrom.pure
  obtain ⟨⟨hlays, hchosen⟩, hcomplete⟩ := hs (by omega) hbody.finish
  obtain ⟨htest, hall, hwhole⟩ := test_spells hi hw htest
  have hend : scope.lexemes.Spells l [.token .semicolon] (l + 1) := ⟨⟨by decide, hsemi⟩, rfl⟩
  refine ⟨.of_composed rfl .doWhile
    ⟨⟨by decide, hk⟩, hlays.spells ⟨⟨by decide, hwhile⟩, htest.append hend⟩⟩
    (.of_branches ⟨rfl, rfl⟩ ?_) ⟨trivial, trivial⟩ ?_ ?_, id⟩
  · simpa [Part.branches] using ⟨hchosen, hcomplete⟩
  · simpa [Part.fields, Part.statementFields] using hwhole
  · simpa [Part.fields, Part.statementFields] using ⟨hlays.stands, hall.mono fun _ => .phrase⟩

/-- The head of a loop has two semicolons, the first of which belongs to what the loop begins
with. -/
theorem forStatement_isStatement {depth : Nat} (hc : inner.Complete depth)
    (hd : scope.lexemes.size ≤ i + depth) (hlo : lo ≤ i + 1)
    (hk : scope.lexemes.kindAt i = .kwFor) (h : (forStatement inner).Gives scope i s j) :
    scope.lexemes.IsStatement (.ofTolerance scope.tolerant) i s j ∧
      ¬ (Part.statement s).IsIncomplete := by
  obtain ⟨hopen, h⟩ := (h.position.advance (by rw [hk]; decide)).expect (by decide)
  obtain ⟨initial, k, hinitial, h⟩ := h.bind
  obtain ⟨test, l, htest, h⟩ := h.bind
  obtain ⟨hsemi, h⟩ := h.expect (by decide)
  obtain ⟨update, m, hupdate, h⟩ := h.bind
  obtain ⟨hclose, h⟩ := h.expect (by decide)
  obtain ⟨body, n, hbody, h⟩ := h.bind
  obtain ⟨rfl, rfl⟩ := h.extentFrom.pure
  obtain ⟨hspells, hinitial⟩ := forInitial_spells hi hw hc (by omega) hinitial
  obtain ⟨hspells', htest⟩ := expressionUnless_spells hi hw htest
  obtain ⟨hspells'', hupdate⟩ := expressionUnless_spells hi hw hupdate
  have hle := hspells.inside.1
  have hle' := hspells'.inside.1
  have hle'' := hspells''.inside.1
  obtain ⟨⟨hlays, hchosen⟩, hcomplete⟩ := hs (by omega) hbody.finish
  refine ⟨.of_composed rfl (.forLoop fun b hb => (hinitial b hb).2.1) ?_ ?_ ⟨trivial, trivial⟩
    ?_ ?_, id⟩
  · have hfor : scope.lexemes.Spells i
        (.token .kwFor :: .token .lparen :: Symbol.initial (initial.map (·.place))) k :=
      ⟨⟨by decide, hk⟩, ⟨by decide, hopen⟩, hspells⟩
    have hrest : scope.lexemes.Spells l
        (.token .semicolon :: Symbol.option (update.map (·.place))) m :=
      ⟨⟨by decide, hsemi⟩, hspells''⟩
    have hend : scope.lexemes.Spells m [.token .rparen, .part body.place] j :=
      ⟨⟨by decide, hclose⟩, hlays.spells rfl⟩
    simpa using hfor.append (hspells'.append (hrest.append hend))
  · refine ⟨?_, ?_, fun b hb => (hinitial b hb).2.2, by simp [Part.members]⟩
    · simpa [Part.choices, Part.branches] using hchosen
    · simpa [Part.branches] using hcomplete
  · simpa [Part.fields, Part.statementFields, or_imp, forall_and] using
      ⟨fun e he => (htest e he).2, fun e he => (hupdate e he).2⟩
  · simpa [Part.fields, Part.statementFields, or_imp, forall_and] using
      ⟨fun b hb => (hinitial b hb).1, fun e he => (htest e he).1.mono fun _ => .phrase,
        fun e he => (hupdate e he).1.mono fun _ => .phrase, hlays.stands⟩

/-! ### Clauses -/

/-- A clause may say what it catches and declare parameters. -/
theorem catchClause_lays (hlo : lo ≤ i + 1) {clause : CatchClause .parsed}
    (h : (catchClause inner).Gives scope i clause j) :
    scope.lexemes.Lays (.ofTolerance scope.tolerant) i (.clause clause) j := by
  obtain ⟨hk, h⟩ := h.position.expect (by decide)
  obtain ⟨kind, k, hkind, h⟩ := h.bind
  obtain ⟨given, l, hgiven, h⟩ := h.bind
  obtain ⟨body, m, hbody, h⟩ := h.bind
  obtain ⟨rfl, rfl⟩ := h.extentFrom.pure
  have hspells := eatIdent_spells hkind
  obtain ⟨hspells', hgiven⟩ := parametersIfOpen_spells hi hw hgiven
  have hle := hspells.inside.1
  have hle' := hspells'.inside.1
  have hlays := block_lays (hs.mono (by omega)) hbody
  refine .of_composed rfl (by simp [Part.Tight, Part.fields, Part.parametersField])
    (.of_none ⟨rfl, rfl, rfl, rfl⟩) (.clause fun p hp => (hgiven p hp).2) ?_ ?_
  · have hcatch : scope.lexemes.Spells i (.token .kwCatch :: Symbol.name kind) k :=
      ⟨⟨by decide, hk⟩, hspells⟩
    have hrest : scope.lexemes.Spells l [.part body.place] j := hlays.spells rfl
    simpa using hcatch.append (hspells'.append hrest)
  · simpa [Part.fields, Part.parametersField] using
      ⟨fun p hp => (hgiven p hp).1.mono fun _ => .phrase, hlays.stands⟩

/-- Clauses stand one right after the other, as many as there are. -/
theorem moreClauses_spells (hlo : lo ≤ i + 1) {clauses : List (CatchClause .parsed)}
    (h : Collected scope (do
      if (← Parser.kind) = .kwCatch then some <$> catchClause inner else return none)
      i clauses j) :
    scope.lexemes.Spells i (Symbol.row (clauses.map (·.place)) ++ [.no (.kinds [.kwCatch])]) j ∧
      ∀ c ∈ clauses, (Part.clause c).All
        (scope.lexemes.Supports (.ofTolerance scope.tolerant)) := by
  induction h with
  | nil last =>
    rcases last.kindIf with ⟨-, h⟩ | ⟨hk, h⟩
    · obtain ⟨_, -, hnone⟩ := h.map
      cases hnone
    · obtain ⟨-, rfl⟩ := h.pure
      exact ⟨⟨by rwa [Lexemes.ahead_kind (by decide)], rfl⟩, by simp⟩
  | cons first _ ih =>
    rcases first.kindIf with ⟨-, h⟩ | ⟨-, h⟩
    · obtain ⟨clause, hclause, hsome⟩ := h.map
      cases hsome
      have hlays := catchClause_lays hi hw hs hlo hclause
      have hlt := hlays.lt
      obtain ⟨hspells, hall⟩ := ih (by omega)
      exact ⟨hlays.spells hspells, List.forall_mem_cons.mpr ⟨hlays.stands, hall⟩⟩
    · cases h.pure.1

/-- There is at least one clause, and none follows the last. -/
theorem catchClauses_spells (hlo : lo ≤ i + 1) {clauses : List (CatchClause .parsed)}
    (h : (catchClauses inner).Gives scope i clauses j) :
    scope.lexemes.Spells i
        (Symbol.row (clauses.map (·.place)) ++ [.no (.kinds [.kwCatch])]) j ∧ clauses ≠ [] ∧
      ∀ c ∈ clauses, (Part.clause c).All
        (scope.lexemes.Supports (.ofTolerance scope.tolerant)) := by
  obtain ⟨first, k, hfirst, h⟩ := h.bind
  obtain ⟨others, l, hothers, h⟩ := h.bind
  obtain ⟨rfl, rfl⟩ := h.pure
  have hlays := catchClause_lays hi hw hs hlo hfirst
  have hlt := hlays.lt
  obtain ⟨hspells, hall⟩ := moreClauses_spells hi hw hs (by omega) hothers.collect
  exact ⟨hlays.spells hspells, by simp, List.forall_mem_cons.mpr ⟨hlays.stands, hall⟩⟩

/-- A call that is tried has its clauses after its block. -/
theorem tryStatement_isStatement (hlo : lo ≤ i + 1) (hk : scope.lexemes.kindAt i = .kwTry)
    (h : (tryStatement inner).Gives scope i s j) :
    scope.lexemes.IsStatement (.ofTolerance scope.tolerant) i s j ∧
      ¬ (Part.statement s).IsIncomplete := by
  obtain ⟨call, k, hcall, h⟩ := (h.position.advance (by rw [hk]; decide)).bind
  obtain ⟨returns, l, hreturns, h⟩ := h.bind
  obtain ⟨body, m, hbody, h⟩ := h.bind
  obtain ⟨clauses, n, hclauses, h⟩ := h.bind
  obtain ⟨rfl, rfl⟩ := h.extentFrom.pure
  have hread := expression_isRead hi hw hcall
  have hlt := hread.phrase.lt
  obtain ⟨hspells, hreturns⟩ := returns?_spells (typeName_readsTypes hi hw) hreturns
  have hle := hspells.inside.1
  have hlays := block_lays (hs.mono (by omega)) hbody
  have hlt' := hlays.lt
  obtain ⟨hspells', hne, hclauses⟩ := catchClauses_spells hi hw hs (by omega) hclauses
  refine ⟨.of_composed rfl (.tryCatch (fun p hp => (hreturns p hp).2) hne) ?_
    (.of_none ⟨rfl, rfl, rfl, rfl⟩) ⟨trivial, trivial⟩ ?_ ?_, id⟩
  · have htry : scope.lexemes.Spells i [.token .kwTry, .part call.place, .no .options] k :=
      ⟨⟨by decide, hk⟩, hread.phrase.spells ⟨hread.stops.options, rfl⟩⟩
    simpa [Part.place] using htry.append (hspells.append (hlays.spells hspells'))
  · simpa [Part.fields, Part.statementFields, Part.parametersField, Expression.IsWhole]
      using hread.level_le
  · simpa [Part.fields, Part.statementFields, Part.parametersField] using
      ⟨hread.phrase.lays.stands, fun p hp => (hreturns p hp).1.mono fun _ => .phrase,
        hlays.stands, hclauses⟩

/-! ### Statements -/

/-- What begins with a keyword is a statement of its kind. -/
theorem keywordStatement_isStatement {depth : Nat} (hc : inner.Complete depth)
    (hd : scope.lexemes.size ≤ i + depth) (hlo : lo ≤ i + 1)
    (h : (keywordStatement inner).Gives scope i s j) :
    scope.lexemes.IsStatement (.ofTolerance scope.tolerant) i s j ∧
      ¬ (Part.statement s).IsIncomplete := by
  rw [keywordStatement_eq] at h
  obtain ⟨p, hchoice, h⟩ := h.select
  unfold keywordStatement? at hchoice
  split at hchoice <;> cases hchoice
  case h_1 => exact blockStatement_isStatement hs hlo h.within
  case h_2 hk => exact ifStatement_isStatement hi hw hs hlo hk h.within
  case h_3 hk => exact forStatement_isStatement hi hw hs hc hd hlo hk h.within
  case h_4 hk => exact whileStatement_isStatement hi hw hs hlo hk h.within
  case h_5 hk => exact doWhileStatement_isStatement hi hw hs hlo hk h.within
  case h_6 hk => exact tryStatement_isStatement hi hw hs hlo hk h.within
  case h_7 hk => exact returnStatement_isStatement hi hw hk h
  case h_8 hk => exact emitStatement_isStatement hi hw hk h
  case h_9 hk =>
    obtain ⟨rfl, hspells⟩ := bareKeyword_spells hk (by decide) h
    exact IsStatement.of_leaf .breakLoop hspells ⟨rfl, rfl⟩
  case h_10 hk =>
    obtain ⟨rfl, hspells⟩ := bareKeyword_spells hk (by decide) h
    exact IsStatement.of_leaf .continueLoop hspells ⟨rfl, rfl⟩
  case h_11 hk =>
    obtain ⟨rfl, hspells⟩ := bareKeyword_spells hk (by decide) h
    exact IsStatement.of_leaf .throwError hspells ⟨rfl, rfl⟩
  case h_12 hk => exact uncheckedStatement_isStatement hs hlo hk h
  case h_13 hk => exact assemblyStatement_isStatement hk h.within

/-- A statement is read in the first of the ways in which it can be. -/
theorem statement_isStatement (hb : inner.Built) {depth : Nat} (hc : inner.Complete depth)
    (hd : scope.lexemes.size ≤ i + depth) (hlo : lo ≤ i + 1)
    (h : (statement inner).Gives scope i s j) :
    scope.lexemes.IsStatement (.ofTolerance scope.tolerant) i s j ∧
      ¬ (Part.statement s).IsIncomplete := by
  rcases h.of_named.elim with h | ⟨-, h⟩
  · exact keywordStatement_isStatement hi hw hs hc hd hlo h
  rcases h.elim with h | ⟨hplaceholder, h⟩
  · exact placeholder_isStatement h
  rcases h.elim with h | ⟨hrevert, h⟩
  · exact revertStatement_isStatement hi hw h
  have hword := noWord_of_missed hb hplaceholder hrevert
  rcases h.elim with h | ⟨hmissed, h⟩
  · obtain ⟨hphrase, place, slots, initial, rfl⟩ := declarationAttempt_isPhrase hi hw h
    obtain rfl := hphrase.place
    exact ⟨⟨hphrase.lays, trivial, hword⟩, id⟩
  rcases h.elim with h | ⟨-, h⟩
  · obtain ⟨hlays, value, rfl⟩ :
        scope.lexemes.Lays (.ofTolerance scope.tolerant) i (.statement s) j ∧ _ :=
      expressionStatement_lays hi hw h.ofParser
    exact ⟨⟨hlays, hmissed.not_declares hc hd, hword⟩, id⟩
  · exact h.none.elim

end Others

end Grammar

/-! ### Every depth -/

/-- The rule for statements nested at most so deeply reads those that begin so close to the end of
the input. -/
theorem Inner.readsStatements_upTo {scope : Scope} (hw : scope.lexemes.WellSpelled) {depth lo : Nat}
    (hd : scope.lexemes.size < lo + depth) :
    (upTo depth).statement.ReadsStatements scope lo := by
  induction depth generalizing lo with
  | zero => exact fun _ h => Rule.Gives.none h |>.elim
  | succ depth ih =>
    intro i s j hlo h
    exact Grammar.statement_isStatement (sound_upTo depth) hw (ih (by omega)) (built_upTo depth)
      (complete_upTo depth) (by omega) (Nat.le_refl (i + 1)) h

end SolidityParser
