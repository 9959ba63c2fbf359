import SolidityParser.Proofs.Accounts.Expression
import SolidityParser.Proofs.Parser.Follows

/-!
# Statements account for what they read

Accounts of the rules of `Grammar/Statement`, and of blocks. Where broken statements are not
skipped, a block is a loop over statements that have to succeed. Where they are, what a statement
that failed has reported is struck off the record, and whether a statement can be read from
further on is tried; so the marks of the run do not bound what it looked at, and all of the input
has to agree.
-/

namespace SolidityParser.Grammar

open SolidityParser.Parser (Accounts Onward)

variable {w : Alike} {due : Bool} {i : Nat} {inner inner' : Inner}

/-! ### Skipping -/

section Skipping

variable {r r' : Rule (Statement .parsed)} (hone : w.second = w.first)
  (hbound : w.first.lexemes.size ≤ w.bound)

include hone hbound

/-- Where all that is ahead agrees, so does whether to go on from here. -/
theorem resumes_accounts {last : Kind} {brackets : OpenBrackets}
    (h : r.Accounts w.speculative true i r' fun _ j => i < j) :
    Accounts w due i (resumes r last brackets) (resumes r' last brackets)
      fun verdict j => j = i ∧ (w.first.lexemes.kindAt i = .eof → verdict = true) := by
  rintro s rfl hexact - hsize
  obtain ⟨verdict, hrun, -, hgo⟩ := resumes_run r w.first s last brackets
  rw [hrun]
  refine .ok (.refl s) ⟨rfl, fun heof => ?_⟩ fun _ hmark => ?_
  · cases verdict with
    | true => rfl
    | false => exact absurd heof (hgo rfl).1
  · -- a statement is tried here by the second run if and only if it is by the first
    have hprobe := (Rule.Accounts.attempt h) s rfl hexact hsize
    have hagain : r'.attempt w.first s = r.attempt w.first s := by
      have hagain := hprobe.same (by rwa [hone])
        (hprobe.leads.mark_le_size hexact hsize hmark hbound)
      rwa [hone] at hagain
    rw [hone, ← hrun]
    unfold resumes parsesHere
    rw [hagain]

/-- A token is skipped, and another one only before the end of the input. -/
theorem skipToken_accounts {brackets : OpenBrackets} (hi : w.first.lexemes.kindAt i ≠ .eof)
    (h : r.Accounts w.speculative true (i + 1) r' fun _ j => i + 1 < j) :
    Accounts w due i (skipToken r brackets) (skipToken r' brackets)
      fun next j => i < j ∧ (next.isSome = true → w.first.lexemes.kindAt j ≠ .eof) :=
  .kind <| .advance hi <| (resumes_accounts hone hbound h).bind fun _ _ _ hverdict => .ite
    (fun _ => .pure ⟨by omega, nofun⟩)
    fun hgo => .pure ⟨by omega, fun _ heof => hgo (hverdict.2 (hverdict.1 ▸ heof))⟩

theorem skipAtFuel_accounts
    (h : ∀ j, i < j → r.Accounts w.speculative true j r' fun _ k => j < k) :
    (fuel : Nat) → ∀ {due brackets j}, i ≤ j → w.first.lexemes.kindAt j ≠ .eof →
      w.first.lexemes.size < j + fuel →
        Accounts w due j (skipAtFuel r fuel brackets) (skipAtFuel r' fuel brackets) fun _ k => j < k
  | 0, _, _, _, _, hne, hfuel => absurd (Lexemes.lt_size_of_kindAt hne) (by omega)
  | fuel + 1, _, _, j, hj, hne, hfuel =>
    (skipToken_accounts hone hbound hne (h _ (by omega))).bind fun next k _ hnext => by
      cases next with
      | none => exact .pure hnext.1
      | some brackets =>
        exact (skipAtFuel_accounts h fuel (by omega) (hnext.2 rfl) (by omega)).mono
          fun _ _ _ _ => by omega

/-- At the end of the input nothing is skipped, and before it a token at least. -/
theorem skipIncomplete_accounts
    (h : ∀ j, i < j → r.Accounts w.speculative true j r' fun _ k => j < k) :
    Accounts w due i (skipIncomplete r) (skipIncomplete r')
      fun skipped j => (skipped = none → j = i) ∧ Onward i skipped j := by
  have hsize : w.second.lexemes.size = w.first.lexemes.size := by rw [hone]
  refine .kindIf (fun _ => .pure ⟨fun _ => rfl, .last⟩) fun hi => .position <| .budget ?_
  rw [hsize]
  exact (skipAtFuel_accounts hone hbound h _ (Nat.le_refl _) hi (by omega)).bind fun _ _ _ hj =>
    .extentFrom <| .pure ⟨nofun, .more hj⟩

end Skipping

/-! ### Blocks -/

/-- Both blocks are cut short, or none is. -/
theorem cutShort_accounts {β : Type} {f g : Bool → Parser β} {post : β → Nat → Prop}
    (h : ∀ cut, Accounts w due i (f cut) (g cut) post) :
    Accounts w due i (cutShort >>= f) (cutShort >>= g) post := by
  rintro s rfl hexact hdue hsize
  have hcut : ∃ cut, cutShort w.first s = .ok cut s ∧ cutShort w.second s = .ok cut s := by
    cases hw : w.skips with
    | true => exact ⟨_, rfl, by rw [(w.whole hw).1]; rfl⟩
    | false =>
      refine ⟨false, ?_, ?_⟩
      · simp [cutShort, Scope.recovers, w.strict, hw]
      · simp [cutShort, Scope.recovers, w.strict', hw]
  obtain ⟨cut, hfirst, hsecond⟩ := hcut
  rw [Parser.bind_run, Parser.bind_run, hfirst, hsecond]
  exact h cut s rfl hexact hdue hsize

/-- Where nothing is skipped, a statement of a block has to succeed. -/
theorem statementOrSkipped_strict {statement : Rule (Statement .parsed)} {scope : Scope}
    (h : scope.recovers = false) : statementOrSkipped statement scope = statement.finish scope := by
  funext s
  unfold statementOrSkipped
  rw [h]
  cases statement.finish scope s <;> rfl

section Blocks

variable {statement statement' : Rule (Statement .parsed)}
  (h : ∀ w', w.Same w' → ∀ j, i ≤ j → statement.Accounts w' true j statement' fun _ k => j < k)

include h

/-- A statement that fails is skipped, and what it reported is struck off the record. -/
theorem statementOrSkipped_accounts :
    Accounts w due i (statementOrSkipped statement) (statementOrSkipped statement')
      fun _ j => i < j := by
  have hhere : Accounts w due i statement.finish statement'.finish fun _ j => i < j :=
    (h w ⟨rfl, rfl, rfl⟩ i (Nat.le_refl i)).finish
  cases hw : w.skips with
  | false =>
    exact hhere.congr (statementOrSkipped_strict (by simp [Scope.recovers, w.strict, hw]))
      (statementOrSkipped_strict (by simp [Scope.recovers, w.strict', hw]))
  | true =>
    rintro s rfl hexact hdue hsize
    obtain ⟨hone, hbound⟩ := w.whole hw
    obtain ⟨hleads, hcovers, hgives, hsame⟩ := hhere s rfl hexact hdue hsize
    unfold statementOrSkipped
    rw [hone] at hsame ⊢
    cases hrun : statement.finish w.first s with
    | ok v t =>
      rw [hrun] at hleads hsame
      exact .ok hleads (hgives v t hrun) fun _ hmark => by rw [hsame hsize hmark]
    | error fault t =>
      rw [hrun] at hleads hsame
      have hcovered := hcovers fault t hrun
      dsimp only
      by_cases hrec : w.first.recovers = true
      · rw [if_pos hrec]
        -- what is on record in between does not come into the marks of the whole run
        have hagain (hs : s.mark ≤ w.bound) : statement'.finish w.first s = .error fault t :=
          hsame hsize (hleads.mark_le_size hexact hsize hs hbound)
        have hback := hleads.back
        obtain ⟨hleads', hcovers', hgives', hsame'⟩ := skipIncomplete_accounts hone hbound
          (fun j hj => h w.speculative ⟨rfl, rfl, rfl⟩ j (Nat.le_of_lt hj))
          { t with position := s.position } rfl (hback.grows.exact hexact)
          (nofun : false = true → _) hsize
        rw [hone] at hsame'
        have hskip (hs : s.mark ≤ w.bound) :
            skipIncomplete statement' w.first { t with position := s.position } =
              skipIncomplete statement w.first { t with position := s.position } :=
          hsame' hsize ((hback.trans hleads').mark_le_size hexact hsize hs hbound)
        rcases hrun' : skipIncomplete statement w.first { t with position := s.position } with
          ⟨skipped, u⟩ | ⟨fault', u⟩
        all_goals rw [hrun'] at hleads' hskip
        · have hall : Leads w.first.lexemes s u := hback.trans hleads'
          obtain ⟨hstays, honward⟩ := hgives' skipped u hrun'
          cases skipped with
          | some skipped =>
            exact .ok hall.forget (honward rfl) fun _ hmark => by
              have hs := Nat.le_trans hall.forget.mark_le hmark
              simp only [hagain hs, hskip hs, if_pos hrec]
          | none =>
            have hu : u.position ≤ t.position := by
              rw [hstays rfl]
              exact hleads.le
            exact .error hall ((hleads'.grows.covers hcovered).mono hu) fun _ hmark => by
              have hs := Nat.le_trans hall.mark_le hmark
              simp only [hagain hs, hskip hs, if_pos hrec]
        · have hall : Leads w.first.lexemes s u := hback.trans hleads'
          exact .error hall (hcovers' fault' u hrun') fun _ hmark => by
            have hs := Nat.le_trans hall.mark_le hmark
            simp only [hagain hs, hskip hs, if_pos hrec]
      · rw [if_neg hrec]
        exact .error hleads hcovered fun _ hmark => by
          simp only [hsame hsize hmark, if_neg hrec]

theorem blockItem_accounts :
    Accounts w due i (blockItem statement) (blockItem statement') (Onward i) :=
  .eatIf nofun (fun _ => .pure .last) fun _ => cutShort_accounts fun _ => .ite
    (fun _ => .pure .last)
    fun _ => (statementOrSkipped_accounts h).bind fun _ _ _ hj => .pure (.more hj)

end Blocks

theorem block_accounts (h : Inner.Accounts w (i + 1) inner inner') :
    Accounts w due i (block inner.statement) (block inner'.statement) fun _ j => i < j :=
  .position <| .expect nofun fun _ =>
    .bind (.collect fun _ _ => blockItem_accounts fun w' hw j _ => (h w' j hw (by omega)).statement)
      fun _ _ _ _ => .extentFrom <| .pure (by omega)

/-! ### Declarations and expressions

A declaration is a type and a name, or a list in parentheses, of which each slot may be empty; an
expression is past its first token.
-/

section

variable (h : Inner.Accounts w (i + 1) inner inner')

include h

theorem variableDeclaration_accounts :
    Accounts w due i (variableDeclaration inner) (variableDeclaration inner') fun _ j => i < j :=
  .position <| (typeName_accounts h).finish.bind fun _ _ _ _ =>
    location?_accounts.bind fun _ _ _ _ => .expectIdent fun _ => .extentFrom <| .pure (by omega)

theorem variableSlot_accounts :
    Accounts w due i (variableSlot inner) (variableSlot inner') fun _ _ => True :=
  .kind <| .ite (fun _ => .done) fun _ => (variableDeclaration_accounts h).bind fun _ _ _ _ => .done

theorem declarationStatement_accounts :
    Accounts w due i (declarationStatement inner) (declarationStatement inner')
      fun _ j => i < j :=
  .position <| .eatIf nofun
    (fun _ => .bind (.separated fun _ _ => variableSlot_accounts (h.later (by omega)))
      fun _ _ _ _ => .expect nofun fun _ => .expect nofun fun _ =>
      (expression_accounts (h.later (by omega))).bind fun _ _ _ _ => .expect nofun fun _ =>
      .extentFrom <| .pure (by omega))
    fun _ => (variableDeclaration_accounts h).bind fun _ _ _ _ => .eatEither nofun
      (fun _ => .map <| (expression_accounts (h.later (by omega))).mono fun _ _ _ _ => trivial)
      (fun _ => .done) fun _ _ _ _ => .expect nofun fun _ => .extentFrom <| .pure (by omega)

theorem expressionStatement_accounts :
    Accounts w due i (expressionStatement inner) (expressionStatement inner') fun _ j => i < j :=
  .position <| (expression_accounts h).bind fun _ _ _ _ => .expect nofun fun _ =>
    .extentFrom <| .pure (by omega)

theorem declarationAttempt_accounts :
    (declarationAttempt inner).Accounts w true i (declarationAttempt inner') fun _ j => i < j :=
  .attempt <| .ofParser <| declarationStatement_accounts h.speculative

/-! ### Control flow

A statement that a keyword begins is past it; what is nested in it is read from the next token on.
-/

theorem test_accounts : Accounts w due i (test inner) (test inner') fun _ j => i < j :=
  .expect nofun fun _ => (expression_accounts (h.later (by omega))).bind fun _ _ _ _ =>
    .expect nofun fun _ => .pure (by omega)

theorem ifStatement_accounts (hi : w.first.lexemes.kindAt i ≠ .eof) :
    Accounts w due i (ifStatement inner) (ifStatement inner') fun _ j => i < j :=
  .position <| .advance hi <| (test_accounts (h.later (by omega))).bind fun _ _ _ _ =>
    (h.statement (by omega)).finish.bind fun _ _ _ _ => .eatEither nofun
      (fun _ => .map <| (h.statement (by omega)).finish.mono fun _ _ _ _ => trivial)
      (fun _ => .done)
      fun _ _ _ _ => .extentFrom <| .pure (by omega)

theorem forInitial_accounts :
    Accounts w due i (forInitial inner) (forInitial inner') fun _ _ => True :=
  .eatIf nofun (fun _ => .done) fun _ => .map <|
    (Rule.Accounts.finish <| .orElse (declarationAttempt_accounts h) <|
      .orElse (.ofParser (expressionStatement_accounts h)) .none).mono fun _ _ _ _ => trivial

theorem expressionUnless_accounts {close : Kind} :
    Accounts w due i (expressionUnless inner close) (expressionUnless inner' close)
      fun _ _ => True :=
  .kindIf (fun _ => .done) fun _ =>
    .map <| (expression_accounts h).mono fun _ _ _ _ => trivial

theorem forStatement_accounts (hi : w.first.lexemes.kindAt i ≠ .eof) :
    Accounts w due i (forStatement inner) (forStatement inner') fun _ j => i < j :=
  .position <| .advance hi <| .expect nofun fun _ =>
    (forInitial_accounts (h.later (by omega))).bind fun _ _ _ _ =>
    (expressionUnless_accounts (h.later (by omega))).bind fun _ _ _ _ =>
    .expect nofun fun _ =>
    (expressionUnless_accounts (h.later (by omega))).bind fun _ _ _ _ =>
    .expect nofun fun _ => (h.statement (by omega)).finish.bind fun _ _ _ _ =>
    .extentFrom <| .pure (by omega)

theorem whileStatement_accounts (hi : w.first.lexemes.kindAt i ≠ .eof) :
    Accounts w due i (whileStatement inner) (whileStatement inner') fun _ j => i < j :=
  .position <| .advance hi <| (test_accounts (h.later (by omega))).bind fun _ _ _ _ =>
    (h.statement (by omega)).finish.bind fun _ _ _ _ => .extentFrom <| .pure (by omega)

theorem doWhileStatement_accounts (hi : w.first.lexemes.kindAt i ≠ .eof) :
    Accounts w due i (doWhileStatement inner) (doWhileStatement inner') fun _ j => i < j :=
  .position <| .advance hi <| (h.statement (by omega)).finish.bind fun _ _ _ _ =>
    .expect nofun fun _ =>
    (test_accounts (h.later (by omega))).bind fun _ _ _ _ => .expect nofun fun _ =>
    .extentFrom <| .pure (by omega)

theorem parametersIfOpen_accounts :
    Accounts w due i (parametersIfOpen inner) (parametersIfOpen inner') fun _ _ => True :=
  .kindIf
    (fun _ => .map <|
      (parameters_accounts fun _ _ => typeName_accounts (h.later (by omega))).mono
        fun _ _ _ _ => trivial)
    fun _ => .done

theorem catchClause_accounts :
    Accounts w due i (catchClause inner) (catchClause inner') fun _ j => i < j :=
  .position <| .expect nofun fun _ => Accounts.eatIdent.bind fun _ _ _ _ =>
    (parametersIfOpen_accounts (h.later (by omega))).bind fun _ _ _ _ =>
    (block_accounts (h.later (by omega))).bind fun _ _ _ _ =>
    .extentFrom <| .pure (by omega)

theorem catchClauses_accounts :
    Accounts w due i (catchClauses inner) (catchClauses inner') fun _ j => i < j :=
  (catchClause_accounts h).bind fun _ _ _ _ => .bind
    (.collect fun _ _ => .kindIf
      (fun _ => .map <| (catchClause_accounts (h.later (by omega))).mono fun _ _ _ hj => .more hj)
      fun _ => .pure .last)
    fun _ _ _ _ => .pure (by omega)

theorem tryStatement_accounts (hi : w.first.lexemes.kindAt i ≠ .eof) :
    Accounts w due i (tryStatement inner) (tryStatement inner') fun _ j => i < j :=
  .position <| .advance hi <| (expression_accounts (h.later (by omega))).bind fun _ _ _ _ =>
    (returns?_accounts fun _ _ => typeName_accounts (h.later (by omega))).bind fun _ _ _ _ =>
    (block_accounts (h.later (by omega))).bind fun _ _ _ _ =>
    (catchClauses_accounts (h.later (by omega))).bind fun _ _ _ _ => .extentFrom <| .pure (by omega)

theorem returnStatement_accounts (hi : w.first.lexemes.kindAt i ≠ .eof) :
    Accounts w due i (returnStatement inner) (returnStatement inner') fun _ j => i < j :=
  .position <| .advance hi <| (expressionUnless_accounts (h.later (by omega))).bind fun _ _ _ _ =>
    .expect nofun fun _ => .extentFrom <| .pure (by omega)

theorem prefixedExpression_accounts {make : Extent → Expression Extent → Statement .parsed}
    (hi : w.first.lexemes.kindAt i ≠ .eof) :
    Accounts w due i (prefixedExpression inner make) (prefixedExpression inner' make)
      fun _ j => i < j :=
  .position <| .advance hi <| (expression_accounts (h.later (by omega))).bind fun _ _ _ _ =>
    .expect nofun fun _ => .extentFrom <| .pure (by omega)

omit h in
theorem bareKeyword_accounts {make : Extent → Statement .parsed}
    (hi : w.first.lexemes.kindAt i ≠ .eof) :
    Accounts w due i (bareKeyword make) (bareKeyword make) fun _ j => i < j :=
  .position <| .advance hi <| .expect nofun fun _ => .extentFrom <| .pure (by omega)

theorem uncheckedStatement_accounts (hi : w.first.lexemes.kindAt i ≠ .eof) :
    Accounts w due i (uncheckedStatement inner) (uncheckedStatement inner') fun _ j => i < j :=
  .position <| .advance hi <| (block_accounts (h.later (by omega))).bind fun _ _ _ _ =>
    .extentFrom <| .pure (by omega)

end

/-! ### Assembly -/

theorem expectString_accounts :
    Accounts w due i expectString expectString fun _ j => i < j :=
  .text <| .expect nofun fun _ => .pure (by omega)

/-- Braces are matched; where they are not, a closing brace is missed at the end of the input. -/
theorem skipBraces_accounts : Accounts w due i skipBraces skipBraces fun _ j => i ≤ j := by
  refine .bind (.iterate fun depth j _ => .ite (fun _ => .pure .last) fun _ => .kind ?_)
    fun _ _ hj _ => .pure hj
  split
  case h_1 => exact .reportToken .fail
  case h_2 hj | h_3 hj => exact .take hj nofun <| .pure (.more (by omega))
  case h_4 hj _ _ => exact .advance hj <| .pure (.more (by omega))

theorem assemblyStatement_accounts (hi : w.first.lexemes.kindAt i ≠ .eof) :
    Accounts w due i assemblyStatement assemblyStatement fun _ j => i < j :=
  .position <| .advance hi <| .kind <| .either
    (fun _ => .map <| expectString_accounts.mono fun _ _ _ _ => trivial) (fun _ => .done)
    fun _ _ _ _ => .eatEither nofun
      (fun _ => (Accounts.series (by simp) fun _ _ =>
        expectString_accounts.mono fun _ _ _ _ => trivial).mono fun _ _ _ _ => trivial)
      (fun _ => .done) fun _ _ _ _ => .position <| .expect nofun fun _ =>
    skipBraces_accounts.bind fun _ _ _ _ => .extentFrom <| .extentFrom <| .pure (by omega)

/-! ### Statements -/

section

variable (h : Inner.Accounts w (i + 1) inner inner')

include h

theorem keywordStatement?_accounts {k : Kind} (hi : w.first.lexemes.kindAt i = k) :
    Option.Rel (fun p p' => Accounts w false i p p' fun _ j => i < j)
      (keywordStatement? inner k) (keywordStatement? inner' k) := by
  unfold keywordStatement?
  split
  case h_1 => exact .some <| .within <| .map <| block_accounts h
  case h_2 => exact .some <| .within <| ifStatement_accounts h (Lexemes.ne_eof hi nofun)
  case h_3 => exact .some <| .within <| forStatement_accounts h (Lexemes.ne_eof hi nofun)
  case h_4 => exact .some <| .within <| whileStatement_accounts h (Lexemes.ne_eof hi nofun)
  case h_5 => exact .some <| .within <| doWhileStatement_accounts h (Lexemes.ne_eof hi nofun)
  case h_6 => exact .some <| .within <| tryStatement_accounts h (Lexemes.ne_eof hi nofun)
  case h_7 => exact .some <| returnStatement_accounts h (Lexemes.ne_eof hi nofun)
  case h_8 => exact .some <| prefixedExpression_accounts h (Lexemes.ne_eof hi nofun)
  case h_9 | h_10 | h_11 => exact .some <| bareKeyword_accounts (Lexemes.ne_eof hi nofun)
  case h_12 => exact .some <| uncheckedStatement_accounts h (Lexemes.ne_eof hi nofun)
  case h_13 => exact .some <| .within <| assemblyStatement_accounts (Lexemes.ne_eof hi nofun)
  case h_14 => exact .none

theorem keywordStatement_accounts :
    (keywordStatement inner).Accounts w false i (keywordStatement inner') fun _ j => i < j := by
  rw [keywordStatement_eq, keywordStatement_eq]
  exact .select (keywordStatement?_accounts h rfl)

omit h in
theorem placeholder_accounts : placeholder.Accounts w false i placeholder fun _ j => i < j :=
  .provided (fun hi => by rw [w.isWordAt (by omega), w.kindAt _ (by omega)]) fun hi => by
    obtain ⟨hword, hnext, -⟩ := Lexemes.shows_word hi
    exact .taking hword nofun fun _ => .take hnext nofun <| .extentFrom <| .pure (by omega)

theorem revertStatement_accounts :
    (revertStatement inner).Accounts w false i (revertStatement inner') fun _ j => i < j :=
  .provided (fun hi => by rw [w.isWordAt (by omega), w.kindAt _ (by omega)]) fun hi =>
    .ofParser <| prefixedExpression_accounts h (Lexemes.ne_eof (Lexemes.shows_word hi).1 nofun)

theorem statement_accounts :
    (statement inner).Accounts w true i (statement inner') fun _ j => i < j :=
  .named <| .orElse (keywordStatement_accounts h) <| .orElse placeholder_accounts <|
    .orElse (revertStatement_accounts h) <| .orElse (declarationAttempt_accounts h) <|
    .orElse (.ofParser (expressionStatement_accounts h)) .none

end

end SolidityParser.Grammar
