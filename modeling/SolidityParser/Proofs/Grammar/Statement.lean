import SolidityParser.Proofs.Grammar.Expression

/-!
# Statements are built from combinators

Derivations for the rules of `Grammar/Statement`. A statement closes every bracket that it opens,
and the passages that it adds to the ledger are `Statement.passages`: the bodies of its assembly
blocks.
-/

namespace SolidityParser.Grammar

open SolidityParser.Parser (Built)

variable {known : List Kind} {a : Ledger} {inner : Inner} (hi : inner.Built)

include hi

/-! ### Declarations and expressions

These leave the ledger as it is.
-/

theorem variableDeclaration_built : Built known a (variableDeclaration inner) fun _ => a :=
  .position fun _ => .bind (.finish (typeName_built hi)) fun _ => .bind location?_built fun _ =>
    .bind expectIdent_built fun _ => .extentFrom fun _ => .done

theorem variableSlot_built : Built known a (variableSlot inner) fun _ => a :=
  .kind fun _ => .ite (fun _ => .done) fun _ =>
    .bind (variableDeclaration_built hi) fun _ => .done

theorem declarationStatement_built :
    Built known a (declarationStatement inner) fun v => a.note v.passages :=
  .position fun _ => .eatIf rfl
    (.bind (.separated (variableSlot_built hi)) fun _ => .bind (.expect rfl) fun _ =>
      .bind (.expect rfl) fun _ => .bind (expression_built hi) fun _ => .bind (.expect rfl) fun _ =>
      .extentFrom fun _ => .pure (Ledger.note_nil a)) <|
    .bind (variableDeclaration_built hi) fun _ =>
    .eatEither rfl (.map (expression_built hi)) .done fun _ => .bind (.expect rfl) fun _ =>
    .extentFrom fun _ => .pure (Ledger.note_nil a)

theorem expressionStatement_built :
    Built known a (expressionStatement inner) fun v => a.note v.passages :=
  .position fun _ => .bind (expression_built hi) fun _ => .bind (.expect rfl) fun _ =>
    .extentFrom fun _ => .pure (Ledger.note_nil a)

theorem declarationAttempt_built :
    Rule.Built known a (declarationAttempt inner) fun v => a.note v.passages :=
  .attempt (.ofParser (declarationStatement_built hi))

/-! ### Control flow

A statement notes the passages of the statements and blocks in it, one after the other.
-/

theorem block_built : Built known a (block inner.statement) fun v => a.note v.passages :=
  .block hi.statement hi.ends

theorem test_built : Built known a (test inner) fun _ => a :=
  .bind (.expect rfl) fun _ => .bind (expression_built hi) fun _ => .bind (.expect rfl) fun _ =>
    .done

theorem ifStatement_built :
    Built [.kwIf] a (ifStatement inner) fun v => a.note v.passages :=
  .position fun _ => .advance rfl <| .bind (test_built hi) fun _ =>
    .bind (.finish (hi.statement a)) fun consequent =>
    .eatEither (b := fun v => (a.note consequent.passages).note (Statement.passagesOption v)) rfl
      (.map (.finish (hi.statement _))) (.pure (Ledger.note_nil _)) fun _ =>
    .extentFrom fun _ => .pure (Ledger.note_note _ _ _).symm

theorem forInitial_built :
    Built known a (forInitial inner) fun v => a.note (Statement.passagesOption v) :=
  .eatIf rfl (.pure (Ledger.note_nil a)) <| .map <| .finish <|
    .orElse (declarationAttempt_built hi) <|
    .orElse (.ofParser (expressionStatement_built hi)) .none

theorem expressionUnless_built {close : Kind} :
    Built known a (expressionUnless inner close) fun _ => a :=
  .kindIf .done (.map (expression_built hi))

theorem forStatement_built :
    Built [.kwFor] a (forStatement inner) fun v => a.note v.passages :=
  .position fun _ => .advance rfl <| .bind (.expect rfl) fun _ =>
    .bind (forInitial_built hi) fun _ => .bind (expressionUnless_built hi) fun _ =>
    .bind (.expect rfl) fun _ => .bind (expressionUnless_built hi) fun _ =>
    .bind (.expect rfl) fun _ => .bind (.finish (hi.statement _)) fun _ =>
    .extentFrom fun _ => .pure (Ledger.note_note a _ _).symm

theorem whileStatement_built :
    Built [.kwWhile] a (whileStatement inner) fun v => a.note v.passages :=
  .position fun _ => .advance rfl <| .bind (test_built hi) fun _ =>
    .bind (.finish (hi.statement a)) fun _ => .extentFrom fun _ => .pure rfl

theorem doWhileStatement_built :
    Built [.kwDo] a (doWhileStatement inner) fun v => a.note v.passages :=
  .position fun _ => .advance rfl <| .bind (.finish (hi.statement a)) fun _ =>
    .bind (.expect rfl) fun _ => .bind (test_built hi) fun _ => .bind (.expect rfl) fun _ =>
    .extentFrom fun _ => .pure rfl

theorem parametersIfOpen_built : Built known a (parametersIfOpen inner) fun _ => a :=
  .kindIf (.map (parameters_built fun _ => typeName_built hi)) .done

theorem catchClause_built :
    Built known a (catchClause inner) fun v => a.note v.passages :=
  .position fun _ => .bind (.expect rfl) fun _ => .bind eatIdent_built fun _ =>
    .bind (parametersIfOpen_built hi) fun _ => .bind (block_built hi) fun _ =>
    .extentFrom fun _ => .pure rfl

theorem catchClauses_built :
    Built known a (catchClauses inner) fun vs => a.note (vs.flatMap CatchClause.passages) :=
  .bind (catchClause_built hi) fun _ =>
    .bind (.collect CatchClause.passages fun ps => .kindIf
      (.map (.congr (catchClause_built hi) fun v => Ledger.note_note _ ps v.passages)) (.pure rfl))
    fun _ => .pure (Ledger.note_note a _ _).symm

theorem tryStatement_built :
    Built [.kwTry] a (tryStatement inner) fun v => a.note v.passages :=
  .position fun _ => .advance rfl <| .bind (expression_built hi) fun _ =>
    .bind (returns?_built fun _ => typeName_built hi) fun _ => .bind (block_built hi) fun body =>
    .bind (catchClauses_built hi) fun clauses => .extentFrom fun _ => .pure <| by
      rw [Ledger.note_note, Statement.passages, CatchClause.passagesList_eq_flatMap]

theorem returnStatement_built :
    Built [.kwReturn] a (returnStatement inner) fun v => a.note v.passages :=
  .position fun _ => .advance rfl <| .bind (expressionUnless_built hi) fun _ =>
    .bind (.expect rfl) fun _ => .extentFrom fun _ => .pure (Ledger.note_nil a)

theorem prefixedExpression_built {k : Kind}
    {statement : Extent → Expression Extent → Statement .parsed} (h : a.after? k = some a)
    (hs : ∀ place value, (statement place value).passages = []) :
    Built (k :: known) a (prefixedExpression inner statement) fun v => a.note v.passages :=
  .position fun _ => .advance h <| .bind (expression_built hi) fun _ => .bind (.expect rfl) fun _ =>
    .extentFrom fun _ => .pure <| by rw [hs, Ledger.note_nil]

omit hi in
theorem bareKeyword_built {k : Kind} {statement : Extent → Statement .parsed}
    (h : a.after? k = some a) (hs : ∀ place, (statement place).passages = []) :
    Built [k] a (bareKeyword statement) fun v => a.note v.passages :=
  .position fun _ => .advance h <| .bind (.expect rfl) fun _ => .extentFrom fun _ =>
    .pure <| by rw [hs, Ledger.note_nil]

theorem uncheckedStatement_built :
    Built [.kwUnchecked] a (uncheckedStatement inner) fun v => a.note v.passages :=
  .position fun _ => .advance rfl <| .bind (block_built hi) fun _ => .extentFrom fun _ => .pure rfl

/-! ### Assembly -/

omit hi in
theorem expectString_built : Built known a expectString fun _ => a :=
  .text fun _ => .bind (.expect rfl) fun _ => .done

omit hi in
theorem assemblyStatement_built :
    Built [.kwAssembly] a assemblyStatement fun v => a.note v.passages :=
  .position fun _ => .advance rfl <|
    .kindEither (.map expectString_built) .done fun _ =>
    .eatEither rfl (.series rfl expectString_built) .done fun _ =>
    .unread fun _ => .extentFrom fun _ => .pure rfl

/-! ### Statements

A statement notes what is passed over in it, whichever rule reads it.
-/

theorem keywordStatement_built :
    Rule.Built known a (keywordStatement inner) fun v => a.note v.passages := by
  rw [keywordStatement_eq]
  refine .select fun k p h => ?_
  unfold keywordStatement? at h
  split at h <;> cases h
  · exact .within _ (.map (block_built hi))
  · exact .within _ (ifStatement_built hi)
  · exact .within _ (forStatement_built hi)
  · exact .within _ (whileStatement_built hi)
  · exact .within _ (doWhileStatement_built hi)
  · exact .within _ (tryStatement_built hi)
  · exact returnStatement_built hi
  · exact prefixedExpression_built hi rfl fun _ _ => rfl
  · exact bareKeyword_built rfl fun _ => rfl
  · exact bareKeyword_built rfl fun _ => rfl
  · exact bareKeyword_built rfl fun _ => rfl
  · exact uncheckedStatement_built hi
  · exact .within _ assemblyStatement_built

omit hi in
theorem placeholder_built : Rule.Built known a placeholder fun v => a.note v.passages :=
  .provided (fun _ _ => Lexemes.shows_word) <| .taking rfl fun _ _ => .advance rfl <|
    .extentFrom fun _ => .pure (Ledger.note_nil a)

theorem revertStatement_built :
    Rule.Built known a (revertStatement inner) fun v => a.note v.passages :=
  .provided (fun _ _ => Lexemes.shows_word) <| .ofParser <|
    prefixedExpression_built hi rfl fun _ _ => rfl

theorem statement_built : Rule.Built known a (statement inner) fun v => a.note v.passages :=
  .ruleNamed _ <| .orElse (keywordStatement_built hi) <| .orElse placeholder_built <|
    .orElse (revertStatement_built hi) <| .orElse (declarationAttempt_built hi) <|
    .orElse (.ofParser (expressionStatement_built hi)) .none

end SolidityParser.Grammar
