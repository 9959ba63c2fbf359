import SolidityParser.Proofs.Grammar.Recovery
import SolidityParser.Proofs.Grammar.Statement
import SolidityParser.Proofs.Parser.Ensures

/-!
# A statement consumes a token

`statement_moves`: a statement that is read has at least one token, so a block with as many rounds
as there are tokens reads or skips all of its statements. A statement begins with a keyword, with a
brace, or ends with a semicolon; that no part of it goes back is `Parser.Steady.forward`.
-/

namespace SolidityParser

/-! ### Runs that consume a token -/

namespace Parser

variable {α β : Type} {known : List Kind} {k : Kind} {p : Parser α} {f : α → Parser β}

/-- A run that succeeds consumes a token. -/
abbrev Moves (known : List Kind) (p : Parser α) : Prop := p.Ensures known fun _ _ i _ j => i < j

namespace Moves

/-- The first part consumes a token. -/
theorem bind_left (hp : Moves known p) (hf : ∀ v, (f v).Steady 0) : Moves known (p >>= f) := by
  intro scope s u w hshows hrun
  obtain ⟨v, t, hfirst, hrest⟩ := bind_eq_ok hrun
  have hlt := hp scope s t v hshows hfirst
  have hle := (hf v).le hrest
  omega

/-- The second part consumes a token. -/
theorem bind_right (hp : p.Steady 0) (hf : ∀ v, Moves [] (f v)) : Moves known (p >>= f) := by
  intro scope s u w _ hrun
  obtain ⟨v, t, hfirst, hrest⟩ := bind_eq_ok hrun
  have hle := hp.le hfirst
  have hlt := hf v scope t u w trivial hrest
  omega

/-- A step forward consumes a token. -/
theorem advance (hk : k ≠ .eof) : Moves (k :: known) Parser.advance := by
  intro scope s t v hshows hrun
  rw [advance_run (by rw [hshows.1]; exact hk)] at hrun
  cases hrun
  exact Nat.lt_succ_self _

/-- So does a token that is expected. -/
theorem expect (hk : k ≠ .eof) : Moves known (Parser.expect k) := by
  intro scope s t v _ hrun
  obtain ⟨-, rfl⟩ := expect_eq_ok hk hrun
  exact Nat.lt_succ_self _

/-- What is made of a value does not change that. -/
theorem map {g : α → β} (h : Moves known p) : Moves known (g <$> p) := by
  rw [← bind_pure_comp]
  exact bind_left h fun v => .pure (g v)

/-- A construct that begins with a keyword. -/
theorem keyword (hk : k ≠ .eof) {f : Nat → Parser α} (hf : ∀ i, (f i).Steady 0) :
    Moves (k :: known) (do
      let start ← Parser.position
      Parser.advance
      f start) := by
  intro scope s t v hshows hrun
  exact bind_left (advance hk) (fun _ => hf s.position) scope s t v hshows hrun

end Moves

end Parser

/-- A run of the rule that succeeds consumes a token. -/
abbrev Rule.Moves {α : Type} (known : List Kind) (r : Rule α) : Prop :=
  r.Ensures known fun _ _ i _ j => i < j

/-! ### Statements

Each of these begins with a token of its own, or with a phrase that consumes one.
-/

namespace Grammar

open SolidityParser.Parser (Steady Moves)

variable {inner : Inner} (hi : inner.Built)

theorem assemblyStatement_moves : Moves [.kwAssembly] assemblyStatement := by
  have hstring : expectString.Steady 0 := Steady.built expectString_built
  have hflags : (Parser.series .rparen expectString).Steady 0 :=
    Steady.eat.bind fun _ => .ite (.pure []) <| hstring.separated.bind fun _ =>
      Steady.expect.bind fun _ => .pure _
  have hbody (start : Nat) (language : Option String) (flags : List String) :
      Steady 0 (do
        let opening ← Parser.position
        Parser.expect .lbrace
        skipBraces
        let body ← Parser.extentFrom opening
        return .assembly (← Parser.extentFrom start) language flags body :
        Parser (Statement .parsed)) :=
    Steady.position.bind fun opening => Steady.expect.bind fun _ =>
      Steady.skipBraces.sooner.bind fun _ => (Steady.extentFrom opening).bind fun _ =>
      (Steady.extentFrom start).bind fun _ => .pure _
  refine Moves.keyword (by decide) fun start => Steady.kind.bind fun _ => ?_
  exact .ite
    (hstring.map.bind fun _ => Steady.eat.bind fun _ =>
      .ite (hflags.bind fun _ => hbody start _ _) ((Steady.pure []).bind fun _ => hbody start _ _))
    ((Steady.pure none).bind fun _ => Steady.eat.bind fun _ =>
      .ite (hflags.bind fun _ => hbody start _ _) ((Steady.pure []).bind fun _ => hbody start _ _))

theorem bareKeyword_moves {k : Kind} {statement : Extent → Statement .parsed} (hk : k ≠ .eof) :
    Moves [k] (bareKeyword statement) :=
  Moves.keyword hk fun start => Steady.expect.bind fun _ =>
    (Steady.extentFrom start).bind fun _ => .pure _

theorem placeholder_moves : Rule.Moves [] placeholder :=
  .provided (fun _ _ => Lexemes.shows_word) <| Rule.Ensures.taking fun start _ =>
    Moves.bind_left (.advance (by decide)) fun _ =>
    Steady.advance.bind fun _ => (Steady.extentFrom start).bind fun _ => .pure _

include hi

theorem prefixedExpression_moves {k : Kind} {known : List Kind}
    {statement : Extent → Expression Extent → Statement .parsed} (hk : k ≠ .eof) :
    Moves (k :: known) (prefixedExpression inner statement) :=
  Moves.keyword hk fun start => (Steady.built (expression_built hi)).bind fun _ =>
    Steady.expect.bind fun _ => (Steady.extentFrom start).bind fun _ => .pure _

theorem keywordStatement_moves : Rule.Moves [] (keywordStatement inner) := by
  have hexpression : (expression inner).Steady 0 := Steady.built (expression_built hi)
  have hstatement : inner.statement.finish.Steady 0 := Steady.built (.finish (hi.statement {}))
  have hblock : (block inner.statement).Steady 0 := Steady.built (block_built hi)
  have htest : (test inner).Steady 0 := Steady.built (test_built hi)
  have hunless (close : Kind) : (expressionUnless inner close).Steady 0 :=
    Steady.built (expressionUnless_built hi)
  rw [keywordStatement_eq]
  refine .select fun k p h => ?_
  unfold keywordStatement? at h
  split at h <;> cases h
  · exact .within <| Moves.map <| Moves.bind_right .position fun start =>
      Moves.bind_left (.expect (by decide)) fun _ =>
      .blockRest (Rule.Built.steady (hi.statement {})) hi.ends start
  · exact .within <| Moves.keyword (by decide) fun start => htest.bind fun _ =>
      hstatement.bind fun _ => Steady.eat.bind fun _ =>
      .ite (hstatement.map.bind fun _ => (Steady.extentFrom start).bind fun _ => .pure _)
        ((Steady.pure none).bind fun _ => (Steady.extentFrom start).bind fun _ => .pure _)
  · exact .within <| Moves.keyword (by decide) fun start => Steady.expect.bind fun _ =>
      (Steady.built (forInitial_built hi)).bind fun _ =>
      (hunless _).bind fun _ => Steady.expect.bind fun _ =>
      (hunless _).bind fun _ => Steady.expect.bind fun _ =>
      hstatement.bind fun _ => (Steady.extentFrom start).bind fun _ => .pure _
  · exact .within <| Moves.keyword (by decide) fun start => htest.bind fun _ =>
      hstatement.bind fun _ => (Steady.extentFrom start).bind fun _ => .pure _
  · exact .within <| Moves.keyword (by decide) fun start => hstatement.bind fun _ =>
      Steady.expect.bind fun _ => htest.bind fun _ =>
      Steady.expect.bind fun _ => (Steady.extentFrom start).bind fun _ => .pure _
  · exact .within <| Moves.keyword (by decide) fun start => hexpression.bind fun _ =>
      (Steady.built (returns?_built fun _ => typeName_built hi)).bind fun _ => hblock.bind fun _ =>
      (Steady.built (catchClauses_built hi)).bind fun _ =>
      (Steady.extentFrom start).bind fun _ => .pure _
  · exact Moves.keyword (by decide) fun start => (hunless _).bind fun _ =>
      Steady.expect.bind fun _ => (Steady.extentFrom start).bind fun _ => .pure _
  · exact prefixedExpression_moves hi (by decide)
  · exact bareKeyword_moves (by decide)
  · exact bareKeyword_moves (by decide)
  · exact bareKeyword_moves (by decide)
  · exact Moves.keyword (by decide) fun start => hblock.bind fun _ =>
      (Steady.extentFrom start).bind fun _ => .pure _
  · exact .within assemblyStatement_moves

theorem revertStatement_moves : Rule.Moves [] (revertStatement inner) :=
  .provided (fun _ _ => Lexemes.shows_word) <| .ofParser <|
    prefixedExpression_moves hi (by decide)

theorem expressionStatement_moves : Moves [] (expressionStatement inner) :=
  Moves.bind_right .position fun start =>
    Moves.bind_right (Steady.built (expression_built hi)) fun _ =>
    Moves.bind_left (.expect (by decide)) fun _ => (Steady.extentFrom start).bind fun _ => .pure _

theorem declarationAttempt_moves : Rule.Moves [] (declarationAttempt inner) := by
  have hexpression : (expression inner).Steady 0 := Steady.built (expression_built hi)
  refine .attempt <| .ofParser <| Moves.bind_right .position fun start =>
    Moves.bind_right .eat fun _ => ?_
  refine .ite (Moves.bind_right (Steady.built (.separated (variableSlot_built hi))) fun _ => ?_)
    (Moves.bind_right (Steady.built (variableDeclaration_built hi)) fun _ =>
      Moves.bind_right .eat fun _ => ?_)
  · exact Moves.bind_left (.expect (by decide)) fun _ => Steady.expect.bind fun _ =>
      hexpression.bind fun _ => Steady.expect.bind fun _ =>
      (Steady.extentFrom start).bind fun _ => .pure _
  · exact .ite
      (Moves.bind_right hexpression.map fun _ => Moves.bind_left (.expect (by decide)) fun _ =>
        (Steady.extentFrom start).bind fun _ => .pure _)
      (Moves.bind_right (.pure none) fun _ => Moves.bind_left (.expect (by decide)) fun _ =>
        (Steady.extentFrom start).bind fun _ => .pure _)

/-- A statement that is read has at least one token. -/
theorem statement_moves : Rule.Moves [] (statement inner) :=
  .named <| .orElse (keywordStatement_moves hi) <| .orElse placeholder_moves <|
    .orElse (revertStatement_moves hi) <| .orElse (declarationAttempt_moves hi) <|
    .orElse (.ofParser (expressionStatement_moves hi)) .none

end Grammar

end SolidityParser
