import SolidityParser.Proofs.Complete.TypeName
import SolidityParser.Proofs.Lexer.Words
import SolidityParser.Proofs.Reading
import SolidityParser.Proofs.Sound.TypeName

/-!
# Whole expressions

What the input as a whole parses to as an expression is the phrase that the input is
(`parseExpression_eq_ok_iff`): soundness gives a phrase for each result, completeness a result for
each phrase. So an input has at most one phrase, and no rule that looks ahead takes another way.
-/

namespace SolidityParser

variable {scope : Scope} {i j : Nat}

/-- The end of the input is expected, and is not consumed. -/
theorem Parser.expect_eof_run {s : ParseState} (h : scope.lexemes.kindAt s.position = .eof) :
    Parser.expect .eof scope s = .ok () s := by
  unfold Parser.expect
  rw [bind_of_ok (by rw [check_run, if_pos h]), if_pos rfl]
  exact if_pos h

/-- The end of the input is read where it is, and stays. -/
theorem Parser.Reads.expect_eof (h : scope.lexemes.kindAt i = .eof) :
    Reads scope i (Parser.expect .eof) () i :=
  fun trail => ⟨trail, expect_eof_run h⟩

/-- What is read after the end is read where the input ends. -/
theorem Parser.Gives.expect_eof {α : Type} {f : Unit → Parser α} {v : α}
    (h : (Parser.expect .eof >>= f).Gives scope i v j) :
    scope.lexemes.kindAt i = .eof ∧ (f ()).Gives scope i v j := by
  obtain ⟨s, t, hrun, rfl, rfl⟩ := h
  obtain ⟨u, s', hexpect, hrest⟩ := bind_eq_ok hrun
  by_cases heof : scope.lexemes.kindAt s.position = .eof
  · rw [expect_eof_run heof] at hexpect
    cases hexpect
    exact ⟨heof, of_run hrest⟩
  · rw [expect_miss heof] at hexpect
    cases hexpect

namespace Grammar

variable {lexemes : Lexemes} {e : Expression Extent}

/-- An input parses to an expression if and only if it is that phrase, up to its end. -/
theorem parseExpression_eq_ok_iff (hw : lexemes.WellSpelled) :
    parseExpression lexemes = .ok e ↔
      e.IsWhole ∧ ∃ n, lexemes.IsPhrase 0 (.expression e) n ∧ lexemes.kindAt n = .eof := by
  unfold parseExpression run
  constructor
  · intro h
    split at h
    · next value t hrun =>
      cases h
      obtain ⟨v, n, hexpression, hrest⟩ := (Parser.Gives.of_run hrun).bind
      obtain ⟨heof, hrest⟩ := hrest.expect_eof
      obtain ⟨rfl, -⟩ := hrest.pure
      have hread := (Inner.sound_upTo _).expression hw hexpression
      exact ⟨hread.level_le, n, hread.phrase, heof⟩
    · cases h
  · rintro ⟨hwhole, n, hphrase, heof⟩
    have hread : lexemes.IsRead Expression.wholeLevel 0 e n :=
      ⟨hphrase, hwhole, .of_ends heof (by decide)⟩
    have hrun : (wholeExpression (Inner.ofLexemes lexemes)).Reads { lexemes } 0 e n :=
      .bind ((Inner.complete_upTo _).expression (by dsimp only; omega) hread) <|
        .bind (.expect_eof heof) .pure
    obtain ⟨trail, hok⟩ := hrun {}
    rw [hok]

end Grammar

/-- A source is read as an expression if and only if it is not too long and its words are a phrase,
which is then placed in the source. -/
theorem Source.parseExpression_eq_ok_iff {source : String} {e : Expression Span} :
    parseExpression source = .ok e ↔
      WithinLimit source ∧ ∃ v n, (lex source).tokens.lexemes.IsPhrase 0 (.expression v) n ∧
        v.IsWhole ∧ (lex source).tokens.lexemes.kindAt n = .eof ∧
        e = v.relocate (layout source).span := by
  have hiff {v} := @Grammar.parseExpression_eq_ok_iff _ v (lex_wellSpelled source)
  refine read_eq_ok_iff.trans (and_congr_right fun _ => ?_)
  constructor
  · rintro ⟨v, hrun, he⟩
    obtain ⟨hwhole, n, hphrase, heof⟩ := hiff.mp hrun
    exact ⟨v, n, hphrase, hwhole, heof, he⟩
  · rintro ⟨v, n, hphrase, hwhole, heof, he⟩
    exact ⟨v, hiff.mpr ⟨hwhole, n, hphrase, heof⟩, he⟩

end SolidityParser
