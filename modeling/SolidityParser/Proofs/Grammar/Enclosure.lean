import SolidityParser.Proofs.Grammar.Progress
import SolidityParser.Proofs.Parser.Balance
import SolidityParser.Proofs.Parser.Follows
import SolidityParser.Proofs.Parser.Reads

/-!
# A block that recovers ends at its own brace

`Enclosed lexemes first close` says that the tokens from `first` to `close` are the inside of a pair
of braces: matched among themselves, with no start of a member and no end of the input among them.
Whatever else stands there, a block that skips broken statements reads it to `close`
(`block_reads`). A statement that is read or skipped in it opens as many braces as it closes, by
`Run.closes_add_opens`, and cannot pass the closing brace, by `Run.closes_le`.
-/

namespace SolidityParser

open Grammar

/-! ### The inside of a pair of braces -/

/-- The tokens from `first` to `close` are the inside of a pair of braces. -/
structure Enclosed (lexemes : Lexemes) (first close : Nat) : Prop where
  /-- The inside ends after it begins. -/
  le : first ≤ close
  /-- At its end stands the closing brace. -/
  closing : lexemes.kindAt close = .rbrace
  /-- Inside, no member begins and the input does not end. -/
  quiet : lexemes.Quiet first close
  /-- No brace is closed that was not opened inside. -/
  closes_le : ∀ m, first ≤ m → m ≤ close →
    lexemes.closes m + lexemes.opens first ≤ lexemes.opens m + lexemes.closes first
  /-- All braces that are opened inside are closed there. -/
  closes_eq : lexemes.closes close + lexemes.opens first =
    lexemes.opens close + lexemes.closes first

/-- Between `first` and `p`, as many braces are closed as are opened. -/
def Lexemes.Even (lexemes : Lexemes) (first p : Nat) : Prop :=
  lexemes.closes p + lexemes.opens first = lexemes.opens p + lexemes.closes first

namespace Enclosed

variable {lexemes : Lexemes} {first close p q : Nat}

/-- No member begins at the closing brace either. -/
theorem quiet_succ (h : Enclosed lexemes first close) : lexemes.Quiet first (close + 1) := by
  intro i hi hi'
  rcases Nat.eq_or_lt_of_le (Nat.le_of_lt_succ hi') with rfl | hlt
  · have hclosing := h.closing
    refine ⟨by rw [hclosing]; decide, ?_⟩
    unfold atMember
    simp only [Nat.add_zero, hclosing]
    rfl
  · exact h.quiet i hi hlt

/-- Outside of braces that are opened inside, the next brace that is closed is the last one. -/
theorem kindAt_ne_rbrace (h : Enclosed lexemes first close) (hp : first ≤ p) (hlt : p < close)
    (heven : lexemes.Even first p) : lexemes.kindAt p ≠ .rbrace := by
  intro hk
  have hle := h.closes_le (p + 1) (Nat.le_succ_of_le hp) hlt
  unfold Lexemes.Even at heven
  rw [Lexemes.opens_succ, Lexemes.closes_succ, hk] at hle
  simp at hle
  omega

/-- A run that owes nothing stays inside. -/
theorem run_le (h : Enclosed lexemes first close) (hp : first ≤ p) (hp' : p ≤ close)
    (heven : lexemes.Even first p) {tolerant : Bool} {a b : Ledger}
    (hrun : Run lexemes tolerant a p b q) (ha : a.level = 0) : q ≤ close := by
  refine Nat.le_of_not_lt fun hgt => ?_
  have hclose : lexemes.Quiet p (close + 1) := h.quiet_succ.mono hp (Nat.le_refl _)
  have hle := hrun.closes_le (m := close + 1) (by omega) (by omega) hclose
  have heq := h.closes_eq
  unfold Lexemes.Even at heven
  rw [Lexemes.opens_succ, Lexemes.closes_succ, h.closing] at hle
  simp at hle
  omega

/-- A run that owes nothing, before or after, closes as many braces as it opens. -/
theorem run_even (h : Enclosed lexemes first close) (hp : first ≤ p) (hq : q ≤ close)
    (heven : lexemes.Even first p) {tolerant : Bool} {a b : Ledger}
    (hrun : Run lexemes tolerant a p b q) (ha : a.level = 0) (hb : b.level = 0) :
    lexemes.Even first q := by
  have heq := hrun.closes_add_opens (h.quiet_succ.mono hp (by omega))
  unfold Lexemes.Even at heven ⊢
  omega

end Enclosed

/-! ### Skipping succeeds -/

section Skipping

variable {α : Type} {scope : Scope}

/-- With a round for every token left, skipping comes to an end. -/
theorem skipAtFuel_ok (statement : Rule α) (fuel : Nat) (brackets : OpenBrackets)
    {s : ParseState} (hne : scope.lexemes.kindAt s.position ≠ .eof)
    (hfuel : scope.lexemes.size - s.position ≤ fuel) :
    ∃ t, skipAtFuel statement fuel brackets scope s = .ok () t ∧ s.position < t.position := by
  induction fuel generalizing brackets s with
  | zero => exact absurd (Lexemes.kindAt_of_size_le (by omega)) hne
  | succ fuel ih =>
    obtain ⟨next, hrun, hnext⟩ := skipToken_run statement brackets hne
    unfold skipAtFuel
    rw [Parser.bind_of_ok hrun]
    cases next with
    | none => exact ⟨_, rfl, Nat.lt_succ_self _⟩
    | some brackets' =>
      have hsmall : scope.lexemes.size - (s.position + 1) ≤ fuel := by omega
      obtain ⟨t, hskip, hlt⟩ := ih brackets' (s := { s with position := s.position + 1 })
        hnext.2.1 hsmall
      exact ⟨t, hskip, Nat.lt_of_succ_lt hlt⟩

/-- Before the end of the input there is always something to skip. -/
theorem skipIncomplete_ok (statement : Rule α) {s : ParseState}
    (hne : scope.lexemes.kindAt s.position ≠ .eof) :
    ∃ skipped t, skipIncomplete statement scope s = .ok (some skipped) t ∧
      s.position < t.position := by
  obtain ⟨t, hskip, hlt⟩ := skipAtFuel_ok statement (scope.lexemes.size - s.position + 1) {} hne
    (Nat.le_succ _)
  refine ⟨⟨s.position, t.position⟩, t, ?_, hlt⟩
  unfold skipIncomplete
  rw [Parser.bind_of_ok (show Parser.kind scope s = .ok _ s from rfl), if_neg hne,
    Parser.bind_of_ok (show Parser.position scope s = .ok _ s from rfl),
    Parser.bind_of_ok (show Parser.budget scope s = .ok _ s from rfl), Parser.bind_of_ok hskip]
  rfl

end Skipping

/-! ### Blocks -/

section Blocks

variable {statement : Rule (Statement .parsed)} {scope : Scope} {first close : Nat}

/-- Where statements are skipped, a statement is read or skipped before any token but a closing
brace and the end of the input, and owes nothing. -/
theorem statementOrSkipped_ok
    (hbuilt : Rule.Built [] {} statement fun v => Ledger.note {} v.passages)
    (hmoves : statement.Moves []) (hrec : scope.recovers = true) {s : ParseState}
    (hne : scope.lexemes.kindAt s.position ≠ .eof)
    (hopen : scope.lexemes.kindAt s.position ≠ .rbrace) :
    ∃ v t b, statementOrSkipped statement scope s = .ok v t ∧ s.position < t.position ∧
      Run scope.lexemes scope.tolerant {} s.position b t.position ∧ b.level = 0 := by
  unfold statementOrSkipped
  cases hrun : statement.finish scope s with
  | ok v t =>
    have hlt := Parser.Ensures.finish hmoves scope s t v trivial hrun
    have hfollows := Parser.Built.follows (Phrase.Built.finish hbuilt) hrun
    exact ⟨v, t, _, rfl, hlt, hfollows, rfl⟩
  | error fault t =>
    obtain ⟨skipped, u, hskip, hlt⟩ := skipIncomplete_ok statement
      (s := { t with position := s.position }) hne
    have hbraced := skipIncomplete_braced hskip hopen
    have htolerant : scope.tolerant = true := by
      unfold Scope.recovers at hrec
      simp_all
    dsimp only
    rw [if_pos hrec, hskip]
    exact ⟨.incomplete skipped, _, {}, rfl, hlt, .skip htolerant hbraced, rfl⟩

/-- The statements of a block are read or skipped one after the other, up to the closing brace. -/
theorem collect_blockItem_ok
    (hbuilt : Rule.Built [] {} statement fun v => Ledger.note {} v.passages)
    (hmoves : statement.Moves []) (hrec : scope.recovers = true)
    (h : Enclosed scope.lexemes first close) (fuel : Nat) {s : ParseState}
    (hfirst : first ≤ s.position) (hclose : s.position ≤ close)
    (heven : scope.lexemes.Even first s.position) (hfuel : close - s.position < fuel) :
    ∃ body t, Parser.collectAtFuel (blockItem statement) fuel scope s = .ok body t ∧
      t.position = close + 1 := by
  induction fuel generalizing s with
  | zero => omega
  | succ fuel ih =>
    unfold Parser.collectAtFuel
    rcases Nat.eq_or_lt_of_le hclose with heq | hlt
    · -- the closing brace ends the block
      have hitem : blockItem statement scope s =
          .ok none { s with position := s.position + 1 } := by
        unfold blockItem
        rw [Parser.bind_of_ok (Parser.eat_hit (by decide) (heq ▸ h.closing))]
        rfl
      rw [Parser.bind_of_ok hitem]
      exact ⟨[], _, rfl, congrArg (· + 1) heq⟩
    · obtain ⟨hne, hmember⟩ := h.quiet s.position hfirst hlt
      have hopen := h.kindAt_ne_rbrace hfirst hlt heven
      obtain ⟨v, t, b, hstatement, hmoved, hrun, hlevel⟩ := statementOrSkipped_ok
        (s := { s with trail := s.trail.addToken s.position .rbrace }) hbuilt hmoves hrec hne hopen
      have hle := h.run_le hfirst hclose heven hrun rfl
      have heven' := h.run_even hfirst hle heven hrun rfl hlevel
      have hitem : blockItem statement scope s = .ok (some v) t := by
        unfold blockItem
        rw [Parser.bind_of_ok (Parser.eat_miss hopen), if_neg Bool.false_ne_true]
        have hcut : cutShort scope { s with trail := s.trail.addToken s.position .rbrace } =
            .ok false { s with trail := s.trail.addToken s.position .rbrace } := by
          unfold cutShort
          dsimp only
          rw [hmember, Bool.and_false]
        rw [Parser.bind_of_ok hcut, if_neg Bool.false_ne_true, Parser.bind_of_ok hstatement]
        rfl
      have hsmall : close - t.position < fuel := by
        have : s.position < t.position := hmoved
        omega
      obtain ⟨body, u, hcollect, hend⟩ :=
        ih (Nat.le_trans hfirst (Nat.le_of_lt hmoved)) hle heven' hsmall
      rw [Parser.bind_of_ok hitem]
      dsimp only
      rw [Parser.bind_of_ok hcollect]
      exact ⟨v :: body, u, rfl, hend⟩

/-- A block that skips broken statements ends at the brace that closes it. -/
theorem block_reads (hbuilt : ∀ a, Rule.Built [] a statement fun v => a.note v.passages)
    (hends : statement.EndsAtMember) (hmoves : statement.Moves [])
    (hrec : scope.recovers = true) {opening : Nat}
    (hopening : scope.lexemes.kindAt opening = .lbrace)
    (h : Enclosed scope.lexemes (opening + 1) close) :
    ∃ body, Parser.Reads scope opening (block statement) (.mk ⟨opening, close + 1⟩ body)
      (close + 1) := by
  have hsize : close < scope.lexemes.size :=
    Lexemes.lt_size_of_kindAt (by rw [h.closing]; decide)
  obtain ⟨body, t, hcollect, hend⟩ := collect_blockItem_ok (hbuilt {}) hmoves hrec h
    (scope.lexemes.size - (opening + 1) + 1) (s := ⟨opening + 1, {}⟩) (Nat.le_refl _) h.le
    (by simp [Lexemes.Even, Nat.add_comm])
    (show close - (opening + 1) < scope.lexemes.size - (opening + 1) + 1 by omega)
  have hblock : block statement scope ⟨opening, {}⟩ =
      .ok (.mk ⟨opening, t.position⟩ body) t := by
    unfold block
    rw [Parser.bind_of_ok (show Parser.position scope _ = .ok _ _ from rfl),
      Parser.bind_of_ok (Parser.expect_hit (by decide) hopening)]
    exact Parser.bind_of_ok hcollect
  have hreads := (Parser.Steady.block (Rule.Built.steady (hbuilt {})) hends).reads hblock
  rw [hend] at hreads
  exact ⟨body, hreads⟩

end Blocks

end SolidityParser
