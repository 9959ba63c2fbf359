import SolidityParser.Proofs.Complete.Unit
import SolidityParser.Proofs.Production.Prune

/-!
# Where blocks come from

A tree alone does not tell why a statement was skipped and no more of the input with it; the run
that read its block does. Each block of a tree was read by the rule for blocks, at its place, with
enough levels of nesting left for what follows (`Part.IsRun`, `Grammar.parseUnits_isRun`).
-/

namespace SolidityParser

open Grammar

namespace Part

variable {scope : Scope} {part : Part .parsed}

/-- If this is a block, the rule for blocks reads it where it stands. -/
def IsRun (scope : Scope) (part : Part .parsed) : Prop :=
  ∀ b, part = .block b → ∃ depth, scope.lexemes.size ≤ b.place.first + depth ∧
    (Grammar.block (Inner.upTo depth).statement).Gives scope b.place.first b b.place.next

/-- What is no block stands where all below it does. -/
theorem all_isRun (hpart : ¬ part.IsBlock)
    (h : ∀ field ∈ part.fields, ∀ child ∈ field, child.All (IsRun scope)) :
    part.All (IsRun scope) := by
  refine all_iff.mpr ⟨fun b hb => ?_, h⟩
  subst hb
  exact (hpart trivial).elim

/-- There are no blocks in a phrase. -/
theorem IsPhrasal.all_isRun (h : part.IsPhrasal) : part.All (IsRun scope) := by
  induction part using Part.induction with
  | step part ih =>
    refine Part.all_isRun (fun hblock => ?_) fun field hfield child hchild =>
      ih field hfield child hchild (h.below field hfield child hchild)
    cases part with
    | block => exact h
    | _ => exact hblock

@[simp] theorem all_isRun_expression (value : Expression Extent) :
    (expression value : Part .parsed).All (IsRun scope) :=
  IsPhrasal.all_isRun trivial

@[simp] theorem all_isRun_parameter (value : Parameter Extent) :
    (parameter value : Part .parsed).All (IsRun scope) :=
  IsPhrasal.all_isRun trivial

@[simp] theorem all_isRun_invocation (value : Invocation Extent) :
    (invocation value : Part .parsed).All (IsRun scope) :=
  IsPhrasal.all_isRun trivial

@[simp] theorem all_isRun_path (value : NamePath Extent) :
    (path value : Part .parsed).All (IsRun scope) :=
  IsPhrasal.all_isRun trivial

end Part

/-- A rule gives statements with blocks that are read where they stand, if these begin at `lo` or
later. -/
def Rule.RunsBlocks (scope : Scope) (lo : Nat) (rule : Rule (Statement .parsed)) : Prop :=
  ∀ {i s j}, lo ≤ i → rule.Gives scope i s j → (Part.statement s).All (Part.IsRun scope)

namespace Grammar

variable {scope : Scope} {i j lo depth : Nat} {s : Statement .parsed}

/-! ### Blocks -/

section Statements

variable (hs : (Inner.upTo depth).statement.RunsBlocks scope lo)

include hs

/-- What stands in a block was read, or skipped. -/
theorem blockItems_isRun (hlo : lo ≤ i) {body : List (Statement .parsed)}
    (h : Collected scope (blockItem (Inner.upTo depth).statement) i body j) :
    ∀ v ∈ body, (Part.statement v).All (Part.IsRun scope) := by
  have hsteady : (Inner.upTo depth).statement.Steady :=
    Rule.Built.steady ((Inner.built_upTo depth).statement {})
  induction h with
  | nil => simp
  | cons first _ ih =>
    have hle := first.le (.blockItem hsteady (Inner.built_upTo depth).ends)
    refine List.forall_mem_cons.mpr ⟨?_, ih (Nat.le_trans hlo hle)⟩
    rcases first.eatIf (by decide) with ⟨-, h⟩ | ⟨-, h⟩
    · cases h.pure.1
    obtain ⟨cut, k, ⟨s, t, hcut, rfl, rfl⟩, h⟩ := h.bind
    cases hcut
    split at h
    · cases h.pure.1
    obtain ⟨v, l, ⟨s', t', hrun, hstart, rfl⟩, h⟩ := h.bind
    cases h.pure.1
    unfold statementOrSkipped at hrun
    split at hrun
    · next hstatement =>
      cases hrun
      exact hs (hstart ▸ hlo) (Parser.Gives.of_run hstatement).finish
    · split at hrun
      · split at hrun <;> cases hrun
        exact Part.all_isRun id (by simp [Part.fields, Part.statementFields])
      · cases hrun

/-- A block that a run of its rule gives is one that its rule reads, and so are the blocks in it. -/
theorem block_isRun (hlo : lo ≤ i + 1) (hd : scope.lexemes.size ≤ i + depth) {b : Block .parsed}
    (h : (block (Inner.upTo depth).statement).Gives scope i b j) :
    (Part.block b).All (Part.IsRun scope) := by
  obtain ⟨hopen, h'⟩ := h.position.expect (by decide)
  obtain ⟨body, l, hbody, h'⟩ := h'.bind
  obtain ⟨rfl, rfl⟩ := h'.extentFrom.pure
  refine Part.all_iff.mpr ⟨?_, ?_⟩
  · rintro _ ⟨⟩
    exact ⟨depth, hd, h⟩
  · simpa [Part.fields, Block.body] using blockItems_isRun hs hlo hbody.collect

/-! ### Clauses

A clause holds one block, which is read by the rule for blocks right after its parameters. Clauses
stand in a row, so that what is shown of one is carried along the row.
-/

/-- The block of a clause was read by the rule for blocks, whatever the clause catches. -/
theorem catchClause_isRun (hlo : lo ≤ i + 1) (hd : scope.lexemes.size ≤ i + depth)
    {clause : CatchClause .parsed} (h : (catchClause (Inner.upTo depth)).Gives scope i clause j) :
    (Part.clause clause).All (Part.IsRun scope) := by
  have hi : (Inner.upTo depth).Built := Inner.built_upTo depth
  obtain ⟨-, h⟩ := h.position.expect (by decide)
  obtain ⟨kind, k, hkind, h⟩ := h.bind
  obtain ⟨given, l, hgiven, h⟩ := h.bind
  obtain ⟨body, m, hbody, h⟩ := h.bind
  obtain ⟨rfl, rfl⟩ := h.extentFrom.pure
  have hle := hkind.le (.built eatIdent_built)
  have hle' := hgiven.le (.built (parametersIfOpen_built hi))
  refine Part.all_isRun id ?_
  simpa [Part.fields, Part.parametersField] using block_isRun hs (by omega) (by omega) hbody

/-- So were those of the clauses after the first, one clause a round. -/
theorem moreClauses_isRun (hlo : lo ≤ i + 1) (hd : scope.lexemes.size ≤ i + depth)
    {clauses : List (CatchClause .parsed)}
    (h : Collected scope (do
      if (← Parser.kind) = .kwCatch then some <$> catchClause (Inner.upTo depth) else return none)
      i clauses j) :
    ∀ c ∈ clauses, (Part.clause c).All (Part.IsRun scope) := by
  induction h with
  | nil => simp
  | cons first _ ih =>
    rcases first.kindIf with ⟨-, h⟩ | ⟨-, h⟩
    · obtain ⟨clause, hclause, hsome⟩ := h.map
      cases hsome
      have hle := hclause.le (.built (catchClause_built (Inner.built_upTo depth)))
      exact List.forall_mem_cons.mpr
        ⟨catchClause_isRun hs hlo hd hclause, ih (by omega) (by omega)⟩
    · cases h.pure.1

/-- A row of clauses is the first and those after it. -/
theorem catchClauses_isRun (hlo : lo ≤ i + 1) (hd : scope.lexemes.size ≤ i + depth)
    {clauses : List (CatchClause .parsed)}
    (h : (catchClauses (Inner.upTo depth)).Gives scope i clauses j) :
    ∀ c ∈ clauses, (Part.clause c).All (Part.IsRun scope) := by
  obtain ⟨first, k, hfirst, h⟩ := h.bind
  obtain ⟨others, l, hothers, h⟩ := h.bind
  obtain ⟨rfl, rfl⟩ := h.pure
  have hle := hfirst.le (.built (catchClause_built (Inner.built_upTo depth)))
  exact List.forall_mem_cons.mpr ⟨catchClause_isRun hs hlo hd hfirst,
    moreClauses_isRun hs (by omega) (by omega) hothers.collect⟩

/-! ### Statements

For each keyword, the statements and blocks that its rule takes are read by the rules for them. A
keyword stands in front, so that all of them begin after `lo`.
-/

/-- After `else`, if it is there, a statement is read. -/
theorem alternate_isRun (hlo : lo ≤ i + 1) {alternate : Option (Statement .parsed)}
    (h : Parser.Gives scope i (do
      if ← Parser.eat .kwElse then some <$> (Inner.upTo depth).statement.finish else pure none)
      alternate j) :
    ∀ b ∈ alternate, (Part.statement b).All (Part.IsRun scope) := by
  rcases h.eatIf (by decide) with ⟨-, h⟩ | ⟨-, h⟩
  · obtain ⟨b, hb, rfl⟩ := h.map
    rintro _ ⟨⟩
    exact hs hlo hb.finish
  · cases h.pure.1
    simp

/-- Both branches of a choice are statements that were read. -/
theorem ifStatement_isRun (hlo : lo ≤ i + 1) (hk : scope.lexemes.kindAt i = .kwIf)
    (h : (ifStatement (Inner.upTo depth)).Gives scope i s j) :
    (Part.statement s).All (Part.IsRun scope) := by
  have hi : (Inner.upTo depth).Built := Inner.built_upTo depth
  obtain ⟨test, k, htest, h⟩ := (h.position.advance (by rw [hk]; decide)).bind
  obtain ⟨consequent, l, hconsequent, h⟩ := h.bind
  obtain ⟨alternate, m, halternate, h⟩ := h.eatBind
  obtain ⟨rfl, rfl⟩ := h.extentFrom.pure
  have hle := htest.le (.built (test_built hi))
  have hle' := hconsequent.le (.built (.finish (hi.statement {})))
  refine Part.all_isRun id ?_
  simpa [Part.fields, Part.statementFields] using
    ⟨hs (by omega) hconsequent.finish, alternate_isRun hs (by omega) halternate⟩

/-- The body of a loop is. -/
theorem whileStatement_isRun (hlo : lo ≤ i + 1) (hk : scope.lexemes.kindAt i = .kwWhile)
    (h : (whileStatement (Inner.upTo depth)).Gives scope i s j) :
    (Part.statement s).All (Part.IsRun scope) := by
  have hi : (Inner.upTo depth).Built := Inner.built_upTo depth
  obtain ⟨test, k, htest, h⟩ := (h.position.advance (by rw [hk]; decide)).bind
  obtain ⟨body, l, hbody, h⟩ := h.bind
  obtain ⟨rfl, rfl⟩ := h.extentFrom.pure
  have hle := htest.le (.built (test_built hi))
  refine Part.all_isRun id ?_
  simpa [Part.fields, Part.statementFields] using hs (by omega) hbody.finish

/-- The body before its test is as well. -/
theorem doWhileStatement_isRun (hlo : lo ≤ i + 1) (hk : scope.lexemes.kindAt i = .kwDo)
    (h : (doWhileStatement (Inner.upTo depth)).Gives scope i s j) :
    (Part.statement s).All (Part.IsRun scope) := by
  obtain ⟨body, k, hbody, h⟩ := (h.position.advance (by rw [hk]; decide)).bind
  obtain ⟨-, h⟩ := h.expect (by decide)
  obtain ⟨test, l, -, h⟩ := h.bind
  obtain ⟨-, h⟩ := h.expect (by decide)
  obtain ⟨rfl, rfl⟩ := h.extentFrom.pure
  refine Part.all_isRun id ?_
  simpa [Part.fields, Part.statementFields] using hs hlo hbody.finish

/-- The block of `try` was read, and those of the clauses after it. -/
theorem tryStatement_isRun (hlo : lo ≤ i + 1) (hd : scope.lexemes.size ≤ i + depth)
    (hk : scope.lexemes.kindAt i = .kwTry)
    (h : (tryStatement (Inner.upTo depth)).Gives scope i s j) :
    (Part.statement s).All (Part.IsRun scope) := by
  have hi : (Inner.upTo depth).Built := Inner.built_upTo depth
  obtain ⟨call, k, hcall, h⟩ := (h.position.advance (by rw [hk]; decide)).bind
  obtain ⟨returns, l, hreturns, h⟩ := h.bind
  obtain ⟨body, m, hbody, h⟩ := h.bind
  obtain ⟨clauses, n, hclauses, h⟩ := h.bind
  obtain ⟨rfl, rfl⟩ := h.extentFrom.pure
  have hle := hcall.le (.built (expression_built hi))
  have hle' := hreturns.le (.built (returns?_built fun _ => typeName_built hi))
  have hle'' := hbody.le (.built (block_built hi))
  refine Part.all_isRun id ?_
  simpa [Part.fields, Part.statementFields, Part.parametersField] using
    ⟨block_isRun hs (by omega) (by omega) hbody,
      catchClauses_isRun hs (by omega) (by omega) hclauses⟩

/-- An unchecked statement is its block. -/
theorem uncheckedStatement_isRun (hlo : lo ≤ i + 1) (hd : scope.lexemes.size ≤ i + depth)
    (hk : scope.lexemes.kindAt i = .kwUnchecked)
    (h : (uncheckedStatement (Inner.upTo depth)).Gives scope i s j) :
    (Part.statement s).All (Part.IsRun scope) := by
  obtain ⟨body, k, hbody, h⟩ := (h.position.advance (by rw [hk]; decide)).bind
  obtain ⟨rfl, rfl⟩ := h.extentFrom.pure
  refine Part.all_isRun id ?_
  simpa [Part.fields, Part.statementFields] using block_isRun hs (by omega) (by omega) hbody

variable (hw : scope.lexemes.WellSpelled)

include hw

/-- A loop with a head has its body read, and a declaration or an expression in the head, which has
no blocks. -/
theorem forStatement_isRun (hlo : lo ≤ i + 1) (hd : scope.lexemes.size ≤ i + depth)
    (hk : scope.lexemes.kindAt i = .kwFor)
    (h : (forStatement (Inner.upTo depth)).Gives scope i s j) :
    (Part.statement s).All (Part.IsRun scope) := by
  have hi : (Inner.upTo depth).Built := Inner.built_upTo depth
  obtain ⟨-, h⟩ := (h.position.advance (by rw [hk]; decide)).expect (by decide)
  obtain ⟨initial, k, hinitial, h⟩ := h.bind
  obtain ⟨test, l, htest, h⟩ := h.bind
  obtain ⟨-, h⟩ := h.expect (by decide)
  obtain ⟨update, m, hupdate, h⟩ := h.bind
  obtain ⟨-, h⟩ := h.expect (by decide)
  obtain ⟨body, n, hbody, h⟩ := h.bind
  obtain ⟨rfl, rfl⟩ := h.extentFrom.pure
  have hle := hinitial.le (.built (forInitial_built hi))
  have hle' := htest.le (.built (expressionUnless_built hi))
  have hle'' := hupdate.le (.built (expressionUnless_built hi))
  have hsimple : ∀ b ∈ initial, (Part.statement b).All (Part.IsRun scope) := by
    intro b hb
    have hb := ((forInitial_spells (Inner.sound_upTo depth) hw (Inner.complete_upTo depth)
      (by omega) hinitial).2 b hb).2.1
    cases b <;> first
      | exact hb.elim
      | exact Part.IsPhrasal.all_isRun trivial
      | exact Part.all_isRun id (by simp [Part.fields, Part.statementFields])
  refine Part.all_isRun id ?_
  simpa [Part.fields, Part.statementFields] using ⟨hsimple, hs (by omega) hbody.finish⟩

/-- The rule for statements reads the blocks of a statement where they stand, if it does so one
level further in. What begins with no keyword has no blocks, except for a block itself. -/
theorem statement_isRun (hlo : lo ≤ i + 1) (hd : scope.lexemes.size ≤ i + depth)
    (h : (statement (Inner.upTo depth)).Gives scope i s j) :
    (Part.statement s).All (Part.IsRun scope) := by
  have hi : (Inner.upTo depth).Sound := Inner.sound_upTo depth
  have hleaf : (Part.statement s).fields = [] → (Part.statement s).All (Part.IsRun scope) :=
    fun hfields => Part.all_isRun id (by simp [hfields])
  rcases h.of_named.elim with h | ⟨-, h⟩
  · rw [keywordStatement_eq] at h
    obtain ⟨p, hchoice, h⟩ := h.select
    unfold keywordStatement? at hchoice
    split at hchoice <;> cases hchoice
    case h_1 =>
      obtain ⟨body, hbody, rfl⟩ := h.within.map
      refine Part.all_isRun id ?_
      simpa [Part.fields, Part.statementFields] using block_isRun hs hlo hd hbody
    case h_2 hk => exact ifStatement_isRun hs hlo hk h.within
    case h_3 hk => exact forStatement_isRun hs hw hlo hd hk h.within
    case h_4 hk => exact whileStatement_isRun hs hlo hk h.within
    case h_5 hk => exact doWhileStatement_isRun hs hlo hk h.within
    case h_6 hk => exact tryStatement_isRun hs hlo hd hk h.within
    case h_7 hk =>
      obtain ⟨argument, k, -, h⟩ := (h.position.advance (by rw [hk]; decide)).bind
      obtain ⟨-, h⟩ := h.expect (by decide)
      obtain ⟨rfl, rfl⟩ := h.extentFrom.pure
      exact Part.all_isRun id (by simp [Part.fields, Part.statementFields])
    case h_8 hk =>
      obtain ⟨value, rfl, -⟩ := prefixedExpression_spells hi hw (by rw [hk]; decide) h
      exact Part.all_isRun id (by simp [Part.fields, Part.statementFields])
    case h_9 hk =>
      obtain ⟨rfl, -⟩ := bareKeyword_spells hk (by decide) h
      exact Part.all_isRun id (by simp [Part.fields, Part.statementFields])
    case h_10 hk =>
      obtain ⟨rfl, -⟩ := bareKeyword_spells hk (by decide) h
      exact Part.all_isRun id (by simp [Part.fields, Part.statementFields])
    case h_11 hk =>
      obtain ⟨rfl, -⟩ := bareKeyword_spells hk (by decide) h
      exact Part.all_isRun id (by simp [Part.fields, Part.statementFields])
    case h_12 hk => exact uncheckedStatement_isRun hs hlo hd hk h
    case h_13 hk =>
      obtain ⟨language, k, -, h⟩ := (h.within.position.advance (by rw [hk]; decide)).kindBind
      obtain ⟨flags, l, -, h⟩ := h.eatBind
      obtain ⟨-, h⟩ := h.position.expect (by decide)
      obtain ⟨_, m, -, h⟩ := h.bind
      obtain ⟨rfl, rfl⟩ := h.extentFrom.extentFrom.pure
      exact Part.all_isRun id (by simp [Part.fields, Part.statementFields])
  rcases h.elim with h | ⟨-, h⟩
  · obtain ⟨htest, h⟩ := h.provided
    have hk := Lexemes.kindAt_of_isWordAt (Bool.and_eq_true_iff.mp htest).1
    obtain ⟨_, _, -, h⟩ := (h.taking (by rw [hk]; decide)).bind
    obtain ⟨rfl, rfl⟩ := h.extentFrom.pure
    exact Part.all_isRun id (by simp [Part.fields, Part.statementFields])
  rcases h.elim with h | ⟨-, h⟩
  · obtain ⟨htest, h⟩ := h.provided
    have hk := Lexemes.kindAt_of_isWordAt (Bool.and_eq_true_iff.mp htest).1
    obtain ⟨value, rfl, -⟩ := prefixedExpression_spells hi hw (by rw [hk]; decide) h.ofParser
    exact Part.all_isRun id (by simp [Part.fields, Part.statementFields])
  rcases h.elim with h | ⟨-, h⟩
  · obtain ⟨-, place, slots, initial, rfl⟩ := declarationAttempt_isPhrase hi hw h
    exact Part.IsPhrasal.all_isRun trivial
  rcases h.elim with h | ⟨-, h⟩
  · obtain ⟨-, value, rfl⟩ : scope.lexemes.Lays .none i (.statement s) j ∧
        ∃ value, s = .expression ⟨i, j⟩ value := expressionStatement_lays hi hw h.ofParser
    exact Part.all_isRun id (by simp [Part.fields, Part.statementFields])
  · exact h.none.elim

end Statements

end Grammar

/-- The rule for statements nested at most so deeply reads blocks where they stand, so close to the
end of the input. -/
theorem Inner.runsBlocks_upTo {scope : Scope} (hw : scope.lexemes.WellSpelled) {depth lo : Nat}
    (hd : scope.lexemes.size < lo + depth) : (upTo depth).statement.RunsBlocks scope lo := by
  induction depth generalizing lo with
  | zero => exact fun _ h => Rule.Gives.none h |>.elim
  | succ depth ih =>
    intro i s j hlo h
    exact Grammar.statement_isRun (ih (by omega)) hw (Nat.le_refl (i + 1)) (by omega) h

namespace Grammar

variable {lexemes : Lexemes} {tolerant : Bool} {i j depth : Nat}

/-! ### Members -/

section Members

variable (hw : lexemes.WellSpelled) (hd : lexemes.size < i + depth)

include hw hd

/-- The body of a function was read with the flag that it is one, under which unread statements may
be skipped. -/
theorem functionBody_isRun {b : Block .parsed}
    (h : (functionBody (Inner.upTo depth)).Gives { lexemes, tolerant } i b j) :
    (Part.block b).All (Part.IsRun { lexemes, tolerant, inBody := true }) := by
  have hs : (Inner.upTo depth).statement.RunsBlocks { lexemes, tolerant, inBody := true } i :=
    Inner.runsBlocks_upTo hw hd
  exact block_isRun hs (Nat.le_succ i) (Nat.le_of_lt hd) h.inBody

/-- So was a body where a semicolon may stand instead. -/
theorem bodyOrSemicolon_isRun {body : Option (Block .parsed)}
    (h : (bodyOrSemicolon (Inner.upTo depth)).Gives { lexemes, tolerant } i body j) :
    ∀ b ∈ body, (Part.block b).All (Part.IsRun { lexemes, tolerant, inBody := true }) := by
  rcases h.eatIf (by decide) with ⟨-, h⟩ | ⟨-, h⟩
  · cases h.pure.1
    simp
  · obtain ⟨b, hb, rfl⟩ := h.map
    rintro _ ⟨⟩
    exact functionBody_isRun hw hd hb

/-- Before the body of a function there are only phrases, which have no blocks. -/
theorem functionRest_isRun {start : Nat} {name : String} {function : FunctionDeclaration .parsed}
    (h : (functionRest (Inner.upTo depth) start name).Gives { lexemes, tolerant } i function j) :
    (Part.member (.function function)).All
      (Part.IsRun { lexemes, tolerant, inBody := true }) := by
  have hi : (Inner.upTo depth).Built := Inner.built_upTo depth
  obtain ⟨given, k, hgiven, h⟩ := h.bind
  obtain ⟨attributes, l, hattributes, h⟩ := h.bind
  obtain ⟨returns, m, hreturns, h⟩ := h.bind
  obtain ⟨body, n, hbody, h⟩ := h.bind
  obtain ⟨rfl, rfl⟩ := h.extentFrom.pure
  have hle := hgiven.le (.built (parameters_built hi.typeName))
  have hle' := hattributes.le (.built (functionAttributes_built hi))
  have hle'' := hreturns.le (.built (returns?_built hi.typeName))
  refine Part.all_isRun id ?_
  simpa [Part.fields, Part.memberFields, Part.functionFields, Part.parametersField,
    Part.attributeFields, Part.overridesField] using bodyOrSemicolon_isRun hw (by omega) hbody

/-- The same for fallback functions, which have no name. -/
theorem fallbackRest_isRun {start : Nat} {function : FallbackFunction .parsed}
    (h : (fallbackRest (Inner.upTo depth) start).Gives { lexemes, tolerant } i function j) :
    (Part.member (.fallback function)).All
      (Part.IsRun { lexemes, tolerant, inBody := true }) := by
  have hi : (Inner.upTo depth).Built := Inner.built_upTo depth
  obtain ⟨given, k, hgiven, h⟩ := h.bind
  obtain ⟨attributes, l, hattributes, h⟩ := h.bind
  obtain ⟨returns, m, hreturns, h⟩ := h.bind
  obtain ⟨body, n, hbody, h⟩ := h.bind
  obtain ⟨rfl, rfl⟩ := h.extentFrom.pure
  have hle := hgiven.le (.built (parameters_built hi.typeName))
  have hle' := hattributes.le (.built (functionAttributes_built hi))
  have hle'' := hreturns.le (.built (returns?_built hi.typeName))
  refine Part.all_isRun id ?_
  simpa [Part.fields, Part.memberFields, Part.parametersField, Part.attributeFields,
    Part.overridesField] using bodyOrSemicolon_isRun hw (by omega) hbody

/-- A function in a contract has a name, or is a fallback function. -/
theorem contractFunction_isRun {member : ContractPart .parsed}
    (h : (contractFunction (Inner.upTo depth)).Gives { lexemes, tolerant } i member j) :
    (Part.member member).All (Part.IsRun { lexemes, tolerant, inBody := true }) := by
  obtain ⟨hk, h⟩ := keywordRule_gives h
  rcases (h.position.advance (by rw [hk]; decide)).kindIf with ⟨-, h⟩ | ⟨-, h⟩
  · obtain ⟨function, k, hfunction, h⟩ := h.bind
    obtain ⟨rfl, rfl⟩ := h.pure
    exact fallbackRest_isRun hw (by omega) hfunction
  · obtain ⟨-, h⟩ := h.expectIdent
    obtain ⟨function, k, hfunction, h⟩ := h.bind
    obtain ⟨rfl, rfl⟩ := h.pure
    exact functionRest_isRun hw (by omega) hfunction

/-- A function outside contracts is read like one inside. -/
theorem freeFunction_isRun {function : FunctionDeclaration .parsed}
    (h : (freeFunction (Inner.upTo depth)).Gives { lexemes, tolerant } i function j) :
    (Part.member (.function function)).All
      (Part.IsRun { lexemes, tolerant, inBody := true }) := by
  obtain ⟨hk, h⟩ := keywordRule_gives h
  obtain ⟨-, h⟩ := (h.position.advance (by rw [hk]; decide)).expectIdent
  exact functionRest_isRun hw (by omega) h

/-- A constructor has to have a body. -/
theorem constructorFunction_isRun {function : Constructor .parsed}
    (h : (constructorFunction (Inner.upTo depth)).Gives { lexemes, tolerant } i function j) :
    (Part.member (.constructor function)).All
      (Part.IsRun { lexemes, tolerant, inBody := true }) := by
  have hi : (Inner.upTo depth).Built := Inner.built_upTo depth
  obtain ⟨hk, h⟩ := keywordRule_gives h
  obtain ⟨given, k, hgiven, h⟩ := (h.position.advance (by rw [hk]; decide)).bind
  obtain ⟨attributes, l, hattributes, h⟩ := h.bind
  obtain ⟨body, m, hbody, h⟩ := h.bind
  obtain ⟨rfl, rfl⟩ := h.extentFrom.pure
  have hle := hgiven.le (.built (parameters_built hi.typeName))
  have hle' := hattributes.le (.built (functionAttributes_built hi))
  refine Part.all_isRun id ?_
  simpa [Part.fields, Part.memberFields] using functionBody_isRun hw (by omega) hbody

/-- A receiving function has attributes and a body as a fallback function does. -/
theorem receiveFunction_isRun {function : ReceiveFunction .parsed}
    (h : (receiveFunction (Inner.upTo depth)).Gives { lexemes, tolerant } i function j) :
    (Part.member (.receive function)).All
      (Part.IsRun { lexemes, tolerant, inBody := true }) := by
  have hi : (Inner.upTo depth).Built := Inner.built_upTo depth
  obtain ⟨⟨hk, -⟩, -, h⟩ := wordRule_gives h
  obtain ⟨-, h⟩ := (h.position.advance (by rw [hk]; decide)).expect (by decide)
  obtain ⟨-, h⟩ := h.expect (by decide)
  obtain ⟨attributes, l, hattributes, h⟩ := h.bind
  obtain ⟨body, m, hbody, h⟩ := h.bind
  obtain ⟨rfl, rfl⟩ := h.extentFrom.pure
  have hle := hattributes.le (.built (functionAttributes_built hi))
  refine Part.all_isRun id ?_
  simpa [Part.fields, Part.memberFields, Part.attributeFields, Part.overridesField] using
    bodyOrSemicolon_isRun hw (by omega) hbody

/-- The body of a modifier is that of a function. -/
theorem modifierDeclaration_isRun {modifier : ModifierDeclaration .parsed}
    (h : (modifierDeclaration (Inner.upTo depth)).Gives { lexemes, tolerant } i modifier j) :
    (Part.member (.modifier modifier)).All
      (Part.IsRun { lexemes, tolerant, inBody := true }) := by
  have hi : (Inner.upTo depth).Built := Inner.built_upTo depth
  obtain ⟨hk, h⟩ := keywordRule_gives h
  obtain ⟨-, h⟩ := (h.position.advance (by rw [hk]; decide)).expectIdent
  obtain ⟨given, k, hgiven, h⟩ := h.bind
  obtain ⟨⟨isVirtual, overrides⟩, l, hattributes, h⟩ := h.bind
  obtain ⟨body, m, hbody, h⟩ := h.bind
  obtain ⟨rfl, rfl⟩ := h.extentFrom.pure
  obtain ⟨items, -, -, -, hspells, -⟩ := modifierAttributes_spells hattributes
  have hle := hgiven.le (.built (parametersIfOpen_built hi))
  have hle' := hspells.inside.1
  refine Part.all_isRun id ?_
  simpa [Part.fields, Part.memberFields, Part.parametersField, Part.overridesField] using
    bodyOrSemicolon_isRun hw (by omega) hbody

/-- The members that are no functions have no blocks. -/
theorem contractPart_isRun {member : ContractPart .parsed}
    (h : (contractPart (Inner.upTo depth)).Gives { lexemes, tolerant } i member j) :
    (Part.member member).All (Part.IsRun { lexemes, tolerant, inBody := true }) := by
  rcases h.of_named.elim with h | ⟨-, h⟩
  · obtain ⟨_, -, rfl⟩ := h.provided.2.of_map
    exact Part.IsPhrasal.all_isRun trivial
  rcases h.elim with h | ⟨-, h⟩
  · exact contractFunction_isRun hw hd h
  rcases h.elim with h | ⟨-, h⟩
  · obtain ⟨function, hrule, rfl⟩ := h.of_map
    exact constructorFunction_isRun hw hd hrule
  rcases h.elim with h | ⟨-, h⟩
  · obtain ⟨function, hrule, rfl⟩ := h.of_map
    exact receiveFunction_isRun hw hd hrule
  rcases h.elim with h | ⟨-, h⟩
  · obtain ⟨function, hrule, rfl⟩ := h.of_map
    obtain ⟨⟨hk, -⟩, -, h⟩ := wordRule_gives hrule
    exact fallbackRest_isRun hw (by omega) (h.position.advance (by rw [hk]; decide))
  rcases h.elim with h | ⟨-, h⟩
  · obtain ⟨modifier, hrule, rfl⟩ := h.of_map
    exact modifierDeclaration_isRun hw hd hrule
  -- no other member has a body
  iterate 7
    rcases h.elim with h | ⟨-, h⟩
    · obtain ⟨_, -, rfl⟩ := h.of_map
      exact Part.IsPhrasal.all_isRun trivial
  exact h.none.elim

/-! ### Units -/

/-- The members of a contract are read one after the other. -/
theorem contractParts_isRun {body : List (ContractPart .parsed)}
    (h : Collected { lexemes, tolerant } (nextPart? (Inner.upTo depth)) i body j) :
    ∀ m ∈ body, (Part.member m).All (Part.IsRun { lexemes, tolerant, inBody := true }) := by
  induction h with
  | nil => simp
  | cons first _ ih =>
    rcases first.eatIf (by decide) with ⟨-, h⟩ | ⟨-, h⟩
    · cases h.pure.1
    · obtain ⟨member, hmember, hsome⟩ := h.map
      cases hsome
      have hle := hmember.le (.built (.finish (contractPart_built (Inner.built_upTo depth))))
      exact List.forall_mem_cons.mpr ⟨contractPart_isRun hw hd hmember.finish, ih (by omega)⟩

/-- A contract has no blocks but those of its members. -/
theorem contract_isRun {declaration : Contract .parsed}
    (h : (contract (Inner.upTo depth)).Gives { lexemes, tolerant } i declaration j) :
    (Part.unit (.contract declaration)).All
      (Part.IsRun { lexemes, tolerant, inBody := true }) := by
  have hi : (Inner.upTo depth).Built := Inner.built_upTo depth
  rw [contract_eq] at h
  obtain ⟨isAbstract, k, habstract, h⟩ := h.oneOf.2.within.ofParser.position.bind
  obtain ⟨kind, l, hkind, h⟩ := h.bind
  obtain ⟨-, h⟩ := h.expectIdent
  obtain ⟨values, m, hvalues, h⟩ := h.bind
  obtain ⟨-, h⟩ := h.expect (by decide)
  obtain ⟨body, n, hbody, h⟩ := h.bind
  obtain ⟨rfl, rfl⟩ := h.extentFrom.pure
  have hle := habstract.le (.eat : Parser.Steady 1 _)
  have hle' := hkind.le (.built contractKind_built)
  have hle'' := hvalues.le (.built (bases_built hi))
  refine Part.all_isRun id ?_
  simpa [Part.fields, Part.unitFields] using contractParts_isRun hw (by omega) hbody.collect

/-- A unit has blocks if it is a contract or a function. -/
theorem sourceUnit_isRun {unit : SourceUnit .parsed}
    (h : (sourceUnit (Inner.upTo depth)).Gives { lexemes, tolerant } i unit j) :
    (Part.unit unit).All (Part.IsRun { lexemes, tolerant, inBody := true }) := by
  rcases h.of_named.elim with h | ⟨-, h⟩
  · obtain ⟨symbols, hphrased, -⟩ := (pragmaDirective_isPhrase h).written
    exact hphrased.isPhrasal.all_isRun
  rcases h.elim with h | ⟨-, h⟩
  · obtain ⟨_, -, rfl⟩ := h.of_map
    exact Part.IsPhrasal.all_isRun trivial
  rcases h.elim with h | ⟨-, h⟩
  · obtain ⟨declaration, hrule, rfl⟩ := h.of_map
    exact contract_isRun hw hd hrule
  rcases h.elim with h | ⟨-, h⟩
  · obtain ⟨function, hrule, rfl⟩ := h.of_map
    have hall := freeFunction_isRun hw hd hrule
    exact Part.all_isRun id fun field hfield child hchild => hall.below hfield hchild
  -- no other unit has a body
  iterate 7
    rcases h.elim with h | ⟨-, h⟩
    · obtain ⟨_, -, rfl⟩ := h.of_map
      exact Part.IsPhrasal.all_isRun trivial
  exact h.none.elim

/-- The units of an input are read one after the other. -/
theorem units_isRun {units : List (SourceUnit .parsed)}
    (h : Collected { lexemes, tolerant } (nextUnit? (Inner.upTo depth)) i units j) :
    ∀ u ∈ units, (Part.unit u).All (Part.IsRun { lexemes, tolerant, inBody := true }) := by
  induction h with
  | nil => simp
  | cons first _ ih =>
    rcases first.check with ⟨-, h⟩ | ⟨-, h⟩
    · cases h.pure.1
    · obtain ⟨unit, hunit, hsome⟩ := h.map
      cases hsome
      have hle := hunit.le (sourceUnit_steady (Inner.built_upTo depth)).finish.sooner
      exact List.forall_mem_cons.mpr ⟨sourceUnit_isRun hw hd hunit.finish, ih (by omega)⟩

end Members

/-- Of what the input as a whole parses to, each block was read by the rule for blocks. -/
theorem parseUnits_isRun (hw : lexemes.WellSpelled) {units : List (SourceUnit .parsed)}
    (h : parseUnits lexemes tolerant = .ok units) :
    ∀ u ∈ units, (Part.unit u).All (Part.IsRun { lexemes, tolerant, inBody := true }) := by
  unfold parseUnits run at h
  split at h
  · next value t hrun =>
    cases h
    rw [units_eq] at hrun
    exact units_isRun hw (by omega) (Parser.Gives.of_run hrun).collect
  · cases h

end Grammar

end SolidityParser
