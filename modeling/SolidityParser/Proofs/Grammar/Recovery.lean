import SolidityParser.Proofs.Parser.Steady

/-!
# Blocks with and without tolerance

A block is where the two scopes of `Parser.Steady` take different ways: with tolerance a block may
end before a member, and a statement that fails is skipped. Both happen only where the strict run
fails: no statement begins where a member does (`Rule.EndsAtMember`). So a block is steady
(`Parser.Steady.block`), and with it every parser that is built from combinators
(`Parser.Built.steady`).
-/

namespace SolidityParser

open Grammar

namespace Parser.Steady

variable {α : Type} {lag : Nat} {statement : Rule α}

/-! ### Skipping -/

/-- Whether a statement can be read is told alike under both scopes, since it is tried. -/
theorem parsesHere (h : statement.Steady) : Steady lag (parsesHere statement) where
  agrees {strict lax s s'} hr hs := by
    obtain ⟨t', he, _⟩ := h.attempt_agrees hr hs
    refine .inl ?_
    unfold Grammar.parsesHere
    rw [he]
    simp only [told, hs]
  forward _ _ := Nat.le_refl _

/-- So is whether skipping stops. -/
theorem resumes (h : statement.Steady) {last : Kind} {brackets : OpenBrackets} :
    Steady lag (resumes statement last brackets) where
  agrees {strict lax s s'} hr hs := by
    unfold Grammar.resumes
    rw [hr.lexemes, hs]
    dsimp only
    split_ifs
    · exact .inl (by simp only [told, hs])
    · exact .inl (by simp only [told, hs])
    · exact (parsesHere h).agrees hr hs
    · exact .inl (by simp only [told, hs])
  forward scope s := by
    unfold Grammar.resumes
    dsimp only
    split_ifs <;> exact Nat.le_refl _

/-- To skip is the same for both, where both do. -/
theorem skipIncomplete (h : statement.Steady) : Steady 0 (skipIncomplete statement) := by
  have loop : ∀ fuel brackets, Steady 0 (skipAtFuel statement fuel brackets) := by
    intro fuel
    induction fuel with
    | zero => exact fun _ => .fail
    | succ fuel ih =>
      refine fun brackets => .bind ?_ fun next => ?_
      · exact kind.bind fun _ => advance.bind fun _ =>
          (resumes h).bind fun _ => .ite (.pure none) (.pure _)
      · cases next with
        | none => exact .pure ()
        | some brackets => exact ih brackets
  refine kind.bind fun _ => .ite (.pure none) ?_
  exact position.bind fun first => budget.bind fun fuel => (loop fuel {}).bind fun _ =>
    (extentFrom first).bind fun extent => .pure (some extent)

end Parser.Steady

/-! ### Scopes that recover -/

section Recovers

variable {strict lax : Scope} (hr : Relaxes strict lax)

include hr

/-- If the strict scope recovers, both do. -/
theorem Relaxes.recovers (h : strict.recovers = true) : lax.recovers = true := by
  cases hr with
  | refl => exact h
  | relax =>
    unfold Scope.recovers at h ⊢
    rw [Bool.and_eq_true, Bool.and_eq_true] at h ⊢
    exact ⟨⟨rfl, h.1.2⟩, h.2⟩

/-- If only the second scope recovers, broken statements are tolerated only there. -/
theorem Relaxes.lenient (h : strict.recovers = false) (h' : lax.recovers = true) :
    Lenient strict lax := by
  cases hr with
  | refl => rw [h] at h'; cases h'
  | relax =>
    unfold Scope.recovers at h h'
    rw [Bool.and_eq_true, Bool.not_eq_true'] at h'
    obtain ⟨hin, hspec⟩ := h'
    refine ⟨?_, rfl, hspec⟩
    have hin' : strict.inBody = true := hin
    have hspec' : strict.speculative = false := hspec
    simpa [hin', hspec'] using h

end Recovers

/-- A scope that does not tolerate broken statements does not recover. -/
theorem Lenient.not_recovers {strict lax : Scope} (h : Lenient strict lax) :
    ¬ strict.recovers = true := by
  simp [Scope.recovers, h.1]

/-- A rule that does not succeed is, as a parser, a failure. -/
theorem Rule.finish_eq_error {α : Type} {r : Rule α} {scope : Scope} {s : ParseState}
    (h : (r scope s).1.isOk = false) : ∃ fault t, r.finish scope s = .error fault t := by
  unfold Rule.finish Rule.finishIn
  cases hrun : r scope s with
  | mk outcome t =>
    rw [hrun] at h
    cases outcome with
    | consumedOk v | emptyOk v => cases h
    | consumedErr fault => exact ⟨fault, t, rfl⟩
    | emptyErr expected position => exact ⟨⟨position, none⟩, t, rfl⟩

namespace Parser.Steady

variable {statement : Rule (Statement .parsed)}

/-! ### Statements of a block -/

/-- Where the strict run fails inside a statement, the other one skips it. -/
theorem statementOrSkipped (h : statement.Steady) : Steady 0 (statementOrSkipped statement) where
  agrees {strict lax s s'} hr hs := by
    have hfinish : statement.finish.Steady 1 := h.finish
    unfold Grammar.statementOrSkipped
    rcases hfinish.agrees hr hs with he | ⟨hl, fault, t, he, ht⟩
    · cases hrun : statement.finish strict s with
      | ok v t =>
        rw [hrun] at he
        obtain ⟨t', hrun', ht'⟩ := told_eq_ok he
        rw [hrun']
        exact .inl (by simp only [told, ht'])
      | error fault t =>
        rw [hrun] at he
        obtain ⟨t', hrun', ht'⟩ := told_eq_error he
        rw [hrun']
        dsimp only
        by_cases hrec : strict.recovers = true
        · -- both skip, from the same position
          rw [if_pos hrec, if_pos (hr.recovers hrec)]
          have back : ({ t' with position := s'.position } : ParseState).position =
            ({ t with position := s.position } : ParseState).position := hs
          rcases (skipIncomplete h).agrees hr back with he | ⟨hl, _⟩
          · cases hskip : Grammar.skipIncomplete statement strict
                { t with position := s.position } with
            | ok skipped u =>
              rw [hskip] at he
              obtain ⟨u', hskip', hu⟩ := told_eq_ok he
              rw [hskip']
              cases skipped <;> exact .inl (by simp only [told, hu])
            | error fault u =>
              rw [hskip] at he
              obtain ⟨u', hskip', hu⟩ := told_eq_error he
              rw [hskip']
              exact .inl (by simp only [told, hu])
          · exact absurd hrec hl.not_recovers
        · rw [if_neg hrec]
          by_cases hrec' : lax.recovers = true
          · have hle := hfinish.forward strict s
            rw [hrun] at hle
            exact .inr ⟨hr.lenient (Bool.not_eq_true _ ▸ hrec) hrec', fault, t, rfl, hle⟩
          · rw [if_neg hrec']
            exact .inl (by simp only [told, ht'])
    · rw [he]
      dsimp only
      rw [if_neg hl.not_recovers]
      exact .inr ⟨hl, fault, t, rfl, by omega⟩
  forward scope s := by
    have hfinish : statement.finish.Steady 1 := h.finish
    have hle := hfinish.forward scope s
    unfold Grammar.statementOrSkipped
    cases hrun : statement.finish scope s with
    | ok v t => rwa [hrun] at hle
    | error fault t =>
      rw [hrun] at hle
      dsimp only
      split
      · have hskip := (skipIncomplete h).forward scope { t with position := s.position }
        split <;> rename_i hrun' <;> rw [hrun'] at hskip <;> exact hskip
      · exact hle

/-- So it is in a block, unless a member begins. -/
theorem itemUnless (h : statement.Steady) (cut : Bool) :
    Steady 0 (if cut = true then pure none
      else some <$> Grammar.statementOrSkipped statement) :=
  .ite (.pure none) (statementOrSkipped h).map

/-- Where a block is cut short with tolerance, the strict run fails. -/
theorem cutShort_bind (h : statement.Steady) (ends : statement.EndsAtMember) :
    Steady 0 (cutShort >>= fun cut =>
      if cut = true then pure none else some <$> Grammar.statementOrSkipped statement) where
  agrees {strict lax s s'} hr hs := by
    have hrun : ∀ scope t, cutShort scope t =
      .ok (scope.recovers && atMember scope.lexemes t.position) t := fun _ _ => rfl
    rw [bind_of_ok (hrun strict s), bind_of_ok (hrun lax s'), hr.lexemes, hs]
    cases hrec : strict.recovers with
    | true =>
      rw [hr.recovers hrec]
      exact (itemUnless h _).agrees hr hs
    | false =>
      cases hcut : lax.recovers && atMember strict.lexemes s.position with
      | false => exact (itemUnless h false).agrees hr hs
      | true =>
        rw [Bool.and_eq_true] at hcut
        obtain ⟨fault, t, he⟩ := Rule.finish_eq_error (ends strict s hcut.2)
        have hfinish : statement.finish.Steady 1 := h.finish
        have hle := hfinish.forward strict s
        rw [he] at hle
        have hfail : Grammar.statementOrSkipped statement strict s = .error fault t := by
          unfold Grammar.statementOrSkipped
          rw [he]
          dsimp only
          rw [if_neg (by rw [hrec]; exact Bool.false_ne_true)]
        refine .inr ⟨hr.lenient hrec hcut.1, fault, t, ?_, hle⟩
        rw [Bool.false_and, if_neg Bool.false_ne_true, ← bind_pure_comp]
        exact bind_of_error hfail
  forward scope s := (itemUnless h (scope.recovers && atMember scope.lexemes s.position)).forward
    scope s

/-- A round of a block is steady. -/
theorem blockItem (h : statement.Steady) (ends : statement.EndsAtMember) :
    Steady 0 (blockItem statement) :=
  eat.bind fun _ => .ite (.pure none) (cutShort_bind h ends)

/-- The statements of a block after its opening brace. -/
theorem blockRest (h : statement.Steady) (ends : statement.EndsAtMember) (start : Nat) :
    Steady 0 (do
      let body ← Parser.collect (Grammar.blockItem statement)
      return .mk (← Parser.extentFrom start) body : Parser (Block .parsed)) :=
  .bind (.collect (blockItem h ends)) fun _ => (extentFrom start).bind fun _ => .pure _

/-- So is a block. -/
theorem block (h : statement.Steady) (ends : statement.EndsAtMember) :
    Steady 1 (block statement) :=
  position.bind fun start => expect_bind (by decide) fun _ => blockRest h ends start

/-! ### Assembly -/

/-- So is what is passed in braces. -/
theorem skipBraces : Steady 1 skipBraces := by
  refine .bind (.iterate (fun depth => .ite (.pure none) ?_) 1) fun _ => .pure ()
  refine kind.bind fun k => ?_
  split
  · exact (report fun i trail => trail.addToken i .rbrace).bind fun _ => .fail
  · exact advance.bind fun _ => .pure _
  · exact advance.bind fun _ => .pure _
  · exact advance.bind fun _ => .pure _

end Parser.Steady

/-! ### Everything that is built -/

/-- Steadiness of a parser or a rule. -/
def Phrase.Steady {α : Type} : Phrase α → Prop
  | .parser p => p.Steady 1
  | .rule r => r.Steady

/-- What is built from combinators is steady. -/
theorem Phrase.Built.steady {α : Type} {known : List Kind} {a : Ledger} {phrase : Phrase α}
    {b : α → Ledger} (h : Phrase.Built known a phrase b) : phrase.Steady := by
  induction h with
  | pure => exact Parser.Steady.pure _
  | fail => exact Parser.Steady.fail
  | weaken _ ih => exact ih
  | bind _ _ ih ih' => exact Parser.Steady.bind ih ih'
  | look read _ ih => exact (Parser.Steady.look read).bind ih
  | kind _ ih => exact Parser.Steady.kind.bind ih
  | kindAhead _ ih => exact (Parser.Steady.look fun lexemes i => lexemes.kindAt (i + 1)).bind ih
  | isWord _ _ ih ih' =>
    exact (Parser.Steady.look fun lexemes i => lexemes.isWordAt i _).bind fun
      | true => ih
      | false => ih'
  | reportToken _ _ ih =>
    exact (Parser.Steady.report fun i trail => trail.addToken i _).bind fun _ => ih
  | reportRule _ ih => exact (Parser.Steady.report fun i trail => trail.addRule i _).bind fun _ => ih
  | advance _ _ ih => exact Parser.Steady.advance.bind fun _ => ih
  | within _ _ ih => exact Parser.Steady.within ih
  | named _ _ ih => exact Parser.Steady.named ih
  | inBody _ ih => exact Parser.Steady.inBody ih
  | finish _ ih => exact Rule.Steady.finish ih
  | iterate _ ih => exact Parser.Steady.iterate ih _
  | separated _ ih => exact Parser.Steady.separated ih
  | collect _ _ ih => exact Parser.Steady.collect (ih [])
  | @block _ a _ _ ends ih => exact Parser.Steady.block (ih a) ends
  | unread _ ih =>
    exact Parser.Steady.position.bind fun opening => Parser.Steady.expect.bind fun _ =>
      Parser.Steady.skipBraces.bind fun _ => (Parser.Steady.extentFrom opening).bind ih
  | ofParser _ ih => exact Rule.Steady.ofParser ih
  | taking _ _ ih => exact Rule.Steady.taking ih
  | opening _ ih => exact Rule.Steady.opening ih
  | followedBy _ _ _ ih ih' =>
    exact Rule.Steady.followedBy ih fun i v => Rule.Steady.decided (ih' i v)
  | provided _ _ ih => exact Rule.Steady.provided ih
  | ruleMap _ ih => exact Rule.Steady.map ih
  | ruleWithin _ _ ih => exact Rule.Steady.within ih
  | ruleNamed _ _ ih => exact Rule.Steady.named ih
  | attempt _ ih => exact Rule.Steady.attempt ih
  | none => exact Rule.Steady.none
  | orElse _ _ ih ih' => exact Rule.Steady.orElse ih ih'
  | select _ ih => exact Rule.Steady.select ih
  | oneOf _ ih => exact Rule.Steady.oneOf ih

/-- A parser built from combinators is steady. -/
theorem Parser.Built.steady {α : Type} {p : Parser α} {b : α → Ledger}
    (h : Parser.Built [] {} p b) : p.Steady 1 :=
  Phrase.Built.steady h

/-- A rule built from combinators is steady. -/
theorem Rule.Built.steady {α : Type} {r : Rule α} {b : α → Ledger} (h : Rule.Built [] {} r b) :
    r.Steady :=
  Phrase.Built.steady h

/-- A parser built from combinators may be composed with others. -/
theorem Parser.Steady.built {α : Type} {p : Parser α} {b : α → Ledger}
    (h : Parser.Built [] {} p b) : p.Steady 0 :=
  (Parser.Built.steady h).sooner

end SolidityParser
