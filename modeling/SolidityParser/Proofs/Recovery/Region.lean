import Mathlib.Order.Bounds.Defs
import SolidityParser.Proofs.Parser.Balance
import SolidityParser.Proofs.Recovery.Blocks
import SolidityParser.Proofs.Repairs

/-!
# What is skipped, and what comes next

Reading resumes after a broken statement at the first token where it may (`Lexemes.Resumes`): all
braces opened since are closed, and there stands a brace that closes the block, a member of the
contract begins, or, after a semicolon or a brace and with all parentheses closed, a statement can
be read without skipping anything.

That all brackets of a sort are closed is said without a counter: from each token on, at least as
many are closed as are opened (`Lexemes.AllClosed`). The loop that skips tokens counts how many are
open, and does not count below zero; its count is zero if and only if all are closed
(`Lexemes.counter_le_iff`). So it stops at the first such token (`Grammar.skipIncomplete_region`).
Its probe runs as an attempt, and the block then reads the statement in earnest; both find what
stands in the input (`Lexemes.readsStatement_iff`), so the block goes on with the statement that the
probe found (`Grammar.blockItems_continue`).
-/

namespace SolidityParser

open Grammar

namespace Lexemes

variable (lexemes : Lexemes)

/-- From one index up to another, a statement is read with nothing skipped. -/
def ReadsStatement (i : Nat) (s : Statement .parsed) (j : Nat) : Prop :=
  (Inner.ofLexemes lexemes).statement.Gives { lexemes } i s j

/-- Every bracket that is opened between two indices is closed again there: from each of the tokens
on, as many are closed as are opened, or more. -/
def AllClosed (opening closing : Kind) (i n : Nat) : Prop :=
  ∀ k, i ≤ k → k ≤ n →
    lexemes.count opening n - lexemes.count opening k ≤
      lexemes.count closing n - lexemes.count closing k

/-- Reading may go on at `n` after a statement that is broken from `i` on. -/
structure Resumes (i n : Nat) : Prop where
  /-- All braces are closed. -/
  closed : lexemes.AllClosed .lbrace .rbrace i n
  /-- The block ends here, or another statement begins. -/
  here : lexemes.kindAt n = .rbrace ∨ atMember lexemes n = true ∨
    (lexemes.kindAt (n - 1) = .semicolon ∨ lexemes.kindAt (n - 1) = .rbrace) ∧
      lexemes.AllClosed .lparen .rparen i n ∧ ∃ s j, lexemes.ReadsStatement n s j

/-- What a block goes on with at an index, after a statement that was skipped: it ends there, or the
next statement is read with nothing skipped. -/
def Continues (j : Nat) : List (Statement .parsed) → Prop
  | [] => lexemes.kindAt j = .rbrace ∨ atMember lexemes j = true
  | s :: _ => lexemes.kindAt j ≠ .rbrace ∧ atMember lexemes j = false ∧
    ∃ k, lexemes.ReadsStatement j s k

variable {lexemes} {i j n depth : Nat} {s : Statement .parsed}

/-! ### Counting open brackets -/

/-- More tokens are not fewer of a kind. -/
theorem count_mono (lexemes : Lexemes) (k : Kind) (h : i ≤ j) : lexemes.count k i ≤ lexemes.count k j :=
  (List.take_sublist_take_left h).countP_le

/-- A count of open brackets that begins at zero, and stays at zero where one is closed that was not
opened, is at most `m` if and only if from each token on no more than `m` stay open. -/
theorem counter_le_iff (opening closing : Kind) (counter : Nat → Nat) (hopening : opening ≠ .eof)
    (hclosing : closing ≠ .eof) (hne : opening ≠ closing) (hstart : counter i = 0)
    (hstep : ∀ n, i ≤ n → counter (n + 1) =
      if lexemes.kindAt n = opening then counter n + 1
      else if lexemes.kindAt n = closing then counter n - 1 else counter n)
    (h : i ≤ n) (m : Nat) :
    counter n ≤ m ↔ ∀ k, i ≤ k → k ≤ n →
      lexemes.count opening n - lexemes.count opening k ≤
        lexemes.count closing n - lexemes.count closing k + m := by
  induction h generalizing m with
  | refl =>
    rw [hstart]
    refine iff_of_true (Nat.zero_le m) fun k hk hki => ?_
    obtain rfl := Nat.le_antisymm hk hki
    omega
  | @step n h ih =>
    have hopens := lexemes.count_succ hopening n
    have hcloses := lexemes.count_succ hclosing n
    -- from the last index on, nothing is opened
    have hlast : (∀ k, i ≤ k → k ≤ n + 1 →
          lexemes.count opening (n + 1) - lexemes.count opening k ≤
            lexemes.count closing (n + 1) - lexemes.count closing k + m) ↔
        ∀ k, i ≤ k → k ≤ n →
          lexemes.count opening (n + 1) - lexemes.count opening k ≤
            lexemes.count closing (n + 1) - lexemes.count closing k + m := by
      refine ⟨fun hall k hk hkn => hall k hk (Nat.le_succ_of_le hkn), fun hall k hk hkn => ?_⟩
      rcases Nat.lt_or_eq_of_le hkn with hkn | rfl
      · exact hall k hk (Nat.le_of_lt_succ hkn)
      · omega
    rw [hstep n h, hlast]
    by_cases hopen : lexemes.kindAt n = opening
    · rw [if_pos hopen] at hopens ⊢
      rw [if_neg (hopen ▸ hne)] at hcloses
      cases m with
      | zero => exact iff_of_false (by omega) fun hall => absurd (hall n h (Nat.le_refl n)) (by omega)
      | succ m =>
        rw [Nat.succ_le_succ_iff, ih m]
        refine forall₃_congr fun k _ hkn => ?_
        have := lexemes.count_mono opening hkn
        omega
    rw [if_neg hopen] at hopens ⊢
    by_cases hclose : lexemes.kindAt n = closing
    · rw [if_pos hclose] at hcloses ⊢
      rw [Nat.sub_le_iff_le_add, ih (m + 1)]
      refine forall₃_congr fun k _ hkn => ?_
      have := lexemes.count_mono closing hkn
      omega
    · rw [if_neg hclose] at hcloses ⊢
      rw [ih m, hopens, hcloses, Nat.add_zero, Nat.add_zero]

/-- The brackets opened from index `i` on that are open at `n`, as the loop counts them. -/
def opened (lexemes : Lexemes) (i n : Nat) : OpenBrackets :=
  ((List.range' i (n - i)).map lexemes.kindAt).foldl .after {}

@[simp] theorem opened_self : lexemes.opened i i = {} := by
  simp [opened]

/-- One more token opens a bracket, closes one, or leaves them as they are. -/
theorem opened_succ (h : i ≤ n) :
    lexemes.opened i (n + 1) = (lexemes.opened i n).after (lexemes.kindAt n) := by
  obtain ⟨m, rfl⟩ := Nat.exists_eq_add_of_le h
  have hcount : i + m + 1 - i = m + 1 := by omega
  rw [opened, opened, hcount, Nat.add_sub_cancel_left, List.range'_concat, List.map_append,
    List.foldl_append]
  simp

/-- The loop's count of braces is zero if and only if all are closed. -/
theorem opened_braces_eq_zero_iff (h : i ≤ n) :
    (lexemes.opened i n).braces = 0 ↔ lexemes.AllClosed .lbrace .rbrace i n := by
  rw [← Nat.le_zero]
  refine counter_le_iff .lbrace .rbrace (fun n => (lexemes.opened i n).braces) (by decide)
    (by decide) (by decide) (by rw [opened_self]) (fun n hn => ?_) h 0
  rw [opened_succ hn]
  unfold OpenBrackets.after
  split <;> simp_all

/-- So is its count of parentheses. -/
theorem opened_parens_eq_zero_iff (h : i ≤ n) :
    (lexemes.opened i n).parens = 0 ↔ lexemes.AllClosed .lparen .rparen i n := by
  rw [← Nat.le_zero]
  refine counter_le_iff .lparen .rparen (fun n => (lexemes.opened i n).parens) (by decide)
    (by decide) (by decide) (by rw [opened_self]) (fun n hn => ?_) h 0
  rw [opened_succ hn]
  unfold OpenBrackets.after
  split <;> simp_all

/-! ### Statements without repairs -/

section Spelled

variable (hw : lexemes.WellSpelled)

include hw

/-- In any scope, a statement that stands in the input is read. -/
theorem reads_of_isStatement (scope : Scope) (hscope : scope.lexemes = lexemes)
    (hd : lexemes.size < i + depth) (h : lexemes.IsStatement .none i s j) :
    (Inner.upTo depth).statement.Reads scope i s j := by
  subst hscope
  exact Inner.takesStatements_upTo hw ⟨by simp, by simp [Repairs.cutsBlocks]⟩ hd (Nat.le_refl i) h

/-- In a scope where nothing is skipped, no other is. -/
theorem isStatement_of_gives {scope : Scope} (hscope : scope.lexemes = lexemes)
    (hstrict : scope.tolerant = false) (hd : lexemes.size < i + depth)
    (h : (Inner.upTo depth).statement.Gives scope i s j) : lexemes.IsStatement .none i s j := by
  subst hscope
  have hread := (Inner.readsStatements_upTo hw hd (Nat.le_refl i) h).1
  rwa [hstrict] at hread

/-- A statement is read at a place exactly if one stands there that shows no repairs. -/
theorem readsStatement_iff : lexemes.ReadsStatement i s j ↔ lexemes.IsStatement .none i s j := by
  have hd : lexemes.size < i + (lexemes.size + 1) := by omega
  refine ⟨isStatement_of_gives hw rfl rfl hd, fun h => ?_⟩
  obtain ⟨outcome, trail, hrun, hvalue⟩ := reads_of_isStatement hw { lexemes } rfl hd h {}
  refine ⟨⟨i, {}⟩, rfl, ?_⟩
  rw [show (Inner.ofLexemes lexemes).statement { lexemes } ⟨i, {}⟩ = _ from hrun]
  exact ⟨hvalue, rfl⟩

end Spelled

end Lexemes

/-- A rule succeeds if it has a value. -/
theorem Outcome.isOk_iff {ρ α : Type} {outcome : Outcome ρ α} :
    outcome.isOk = true ↔ ∃ v, outcome.value? = some v := by
  cases outcome <;> simp [isOk, value?]

/-- The last of several values of a loop come from a position further on. -/
theorem Collected.append {α : Type} {scope : Scope} {step : Parser (Option α)}
    {before after : List α} {i j : Nat} (h : Collected scope step i (before ++ after) j)
    (hstep : step.Steady 0) : ∃ k, i ≤ k ∧ Collected scope step k after j := by
  induction before generalizing i with
  | nil => exact ⟨i, Nat.le_refl i, h⟩
  | cons v before ih =>
    cases h with
    | cons first rest =>
      obtain ⟨k, hk, hrest⟩ := ih rest
      exact ⟨k, Nat.le_trans (first.le hstep) hk, hrest⟩

namespace Grammar

/-- Where broken statements are skipped. -/
abbrev bodyScope (lexemes : Lexemes) : Scope := { lexemes, tolerant := true, inBody := true }

variable {lexemes : Lexemes} {i j k n depth : Nat} {s t : ParseState}

section Spelled

variable (hw : lexemes.WellSpelled)

include hw

/-! ### The probe -/

/-- The probe tells whether a statement is read with nothing skipped. -/
theorem parsesHere_iff (hd : lexemes.size < s.position + depth) :
    ((Inner.upTo depth).statement.attempt (bodyScope lexemes) s).1.isOk = true ↔
      ∃ v j, lexemes.ReadsStatement s.position v j := by
  have hsteady : (Inner.upTo depth).statement.Steady :=
    Rule.Built.steady ((Inner.built_upTo depth).statement {})
  simp only [Lexemes.readsStatement_iff hw, Outcome.isOk_iff]
  constructor
  · rintro ⟨v, hv⟩
    -- an attempt skips nothing, with tolerance or without
    have hrelaxes : Relaxes { lexemes, inBody := true } (bodyScope lexemes) := .relax _
    obtain ⟨t, hrun, -⟩ := hsteady.attempt_agrees (s := s) hrelaxes rfl
    rw [hrun] at hv
    have hgives : (Inner.upTo depth).statement.attempt.Gives { lexemes, inBody := true }
        s.position v _ := ⟨s, rfl, hv, rfl⟩
    exact ⟨v, _, Lexemes.isStatement_of_gives hw rfl rfl hd hgives.attempt⟩
  · rintro ⟨v, j, h⟩
    have hreads := Lexemes.reads_of_isStatement hw
      { bodyScope lexemes with speculative := true } rfl hd h
    obtain ⟨outcome, trail, hrun, hv⟩ := hreads.attempt s.trail
    rw [show (⟨s.position, s.trail⟩ : ParseState) = s from rfl] at hrun
    exact ⟨v, by rw [hrun]; exact hv⟩

/-- After the token at `n`, reading resumes where it may, and at the end of the input. -/
theorem resumes_iff (hd : lexemes.size < n + 1 + depth) (hi : i ≤ n + 1) (hs : s.position = n + 1) :
    ∃ verdict, resumes (Inner.upTo depth).statement (lexemes.kindAt n) (lexemes.opened i (n + 1))
        (bodyScope lexemes) s = .ok verdict s ∧
      (verdict = true ↔ lexemes.Resumes i (n + 1) ∨ lexemes.kindAt (n + 1) = .eof) := by
  have hbraces : (lexemes.opened i (n + 1)).braces = 0 ↔ _ := Lexemes.opened_braces_eq_zero_iff hi
  have hparens : (lexemes.opened i (n + 1)).parens = 0 ↔ _ := Lexemes.opened_parens_eq_zero_iff hi
  unfold resumes parsesHere
  dsimp only
  split_ifs with hopen hstop hparse
  · have hnot : ¬ lexemes.Resumes i (n + 1) := fun h =>
      absurd (hbraces.mpr h.closed) (Nat.ne_of_gt hopen)
    exact ⟨_, rfl, by simp [hnot, hs]⟩
  · refine ⟨true, rfl, ?_⟩
    have hclosed : lexemes.AllClosed .lbrace .rbrace i (n + 1) :=
      hbraces.mp (Nat.eq_zero_of_not_pos hopen)
    rw [hs] at hstop
    rcases hstop with hbrace | heof | hmember
    · simpa using .inl ⟨hclosed, .inl hbrace⟩
    · simpa using .inr heof
    · simpa using .inl ⟨hclosed, .inr (.inl hmember)⟩
  all_goals
    have hclosed : lexemes.AllClosed .lbrace .rbrace i (n + 1) :=
      hbraces.mp (Nat.eq_zero_of_not_pos hopen)
    rw [hs] at hstop
    simp only [not_or] at hstop
    obtain ⟨hbrace, heof, hmember⟩ := hstop
  · refine ⟨_, rfl, ?_⟩
    rw [parsesHere_iff hw (by rwa [hs]), hs]
    refine ⟨fun h => .inl ⟨hclosed, .inr (.inr ⟨hparse.1, hparens.mp hparse.2, h⟩)⟩, ?_⟩
    rintro (⟨-, h | h | ⟨-, -, h⟩⟩ | h)
    · exact absurd h hbrace
    · exact absurd h hmember
    · exact h
    · exact absurd h heof
  · refine ⟨false, rfl, nofun, ?_⟩
    rintro (⟨-, h | h | ⟨hlast, hall, -⟩⟩ | h)
    · exact absurd h hbrace
    · exact absurd h hmember
    · exact absurd ⟨hlast, hparens.mpr hall⟩ hparse
    · exact absurd h heof

/-! ### Skipping -/

/-- One token is skipped, and more of them until reading may resume. -/
theorem skipToken_resumes (hd : lexemes.size < s.position + 1 + depth) (hi : i ≤ s.position)
    (hne : lexemes.kindAt s.position ≠ .eof) :
    ∃ next, skipToken (Inner.upTo depth).statement (lexemes.opened i s.position)
        (bodyScope lexemes) s = .ok next { s with position := s.position + 1 } ∧
      match next with
      | none => lexemes.Resumes i (s.position + 1) ∨ lexemes.kindAt (s.position + 1) = .eof
      | some brackets => brackets = lexemes.opened i (s.position + 1) ∧
          ¬ lexemes.Resumes i (s.position + 1) ∧ lexemes.kindAt (s.position + 1) ≠ .eof := by
  obtain ⟨verdict, hrun, hverdict⟩ := resumes_iff hw (i := i)
    (s := { s with position := s.position + 1 }) hd (Nat.le_succ_of_le hi) rfl
  refine ⟨if verdict = true then none else some (lexemes.opened i (s.position + 1)), ?_, ?_⟩
  · unfold skipToken
    rw [Parser.bind_of_ok (show Parser.kind (bodyScope lexemes) s = .ok _ s from rfl),
      Parser.bind_of_ok (Parser.advance_run hne)]
    dsimp only
    rw [← Lexemes.opened_succ hi, Parser.bind_of_ok hrun]
    cases verdict <;> rfl
  · cases verdict with
    | true => exact hverdict.mp rfl
    | false => simpa using hverdict

/-- Tokens are skipped up to the first from which reading may go on. -/
theorem skipAtFuel_resumes (fuel : Nat) (hd : lexemes.size < s.position + 1 + depth)
    (hi : i ≤ s.position) (hne : lexemes.kindAt s.position ≠ .eof)
    (h : skipAtFuel (Inner.upTo depth).statement fuel (lexemes.opened i s.position)
      (bodyScope lexemes) s = .ok () t) (hend : lexemes.kindAt t.position ≠ .eof) :
    s.position < t.position ∧ lexemes.Resumes i t.position ∧
      ∀ n, s.position < n → n < t.position → ¬ lexemes.Resumes i n := by
  induction fuel generalizing s with
  | zero => cases h
  | succ fuel ih =>
    obtain ⟨next, hrun, hnext⟩ := skipToken_resumes hw hd hi hne
    unfold skipAtFuel at h
    rw [Parser.bind_of_ok hrun] at h
    cases next with
    | none =>
      cases h
      exact ⟨Nat.lt_succ_self _, hnext.resolve_right hend, fun n hn hlt => by dsimp only at hlt; omega⟩
    | some brackets =>
      obtain ⟨rfl, hnot, hne'⟩ := hnext
      obtain ⟨hlt, hresumes, hfirst⟩ := ih (s := { s with position := s.position + 1 })
        (by dsimp only; omega) (Nat.le_succ_of_le hi) hne' h
      dsimp only at hlt hfirst
      refine ⟨by omega, hresumes, fun n hn hnt => ?_⟩
      rcases Nat.eq_or_lt_of_le hn with rfl | hn
      · exact hnot
      · exact hfirst n hn hnt

/-- What is skipped goes up to the first token from which reading may go on. -/
theorem skipIncomplete_region {skipped : Extent} (hd : lexemes.size < s.position + 1 + depth)
    (h : skipIncomplete (Inner.upTo depth).statement (bodyScope lexemes) s = .ok (some skipped) t)
    (hend : lexemes.kindAt t.position ≠ .eof) :
    IsLeast {n | s.position < n ∧ lexemes.Resumes s.position n} t.position := by
  unfold skipIncomplete at h
  rw [Parser.bind_of_ok (show Parser.kind (bodyScope lexemes) s = .ok _ s from rfl)] at h
  split at h
  · cases h
  · next hne =>
    rw [Parser.bind_of_ok (show Parser.position (bodyScope lexemes) s = .ok _ s from rfl),
      Parser.bind_of_ok (show Parser.budget (bodyScope lexemes) s = .ok _ s from rfl)] at h
    obtain ⟨_, u, hskip, h⟩ := Parser.bind_eq_ok h
    cases h
    have hopened : lexemes.opened s.position s.position = {} := Lexemes.opened_self
    rw [← hopened] at hskip
    obtain ⟨hlt, hresumes, hfirst⟩ :=
      skipAtFuel_resumes hw _ hd (Nat.le_refl _) hne hskip hend
    refine ⟨⟨hlt, hresumes⟩, ?_⟩
    rintro n ⟨hn, hresumes'⟩
    exact Nat.le_of_not_lt fun hnt => hfirst n hn hnt hresumes'

/-! ### Blocks -/

/-- Where the block gives a statement that was skipped, none is read with nothing skipped. -/
theorem blockItem_skipped {place : Extent} (hd : lexemes.size < i + depth)
    (h : (blockItem (Inner.upTo depth).statement).Gives (bodyScope lexemes) i
      (some (.incomplete place)) j) (hend : lexemes.kindAt j ≠ .eof) :
    (¬ ∃ s k, lexemes.ReadsStatement i s k) ∧ IsLeast {n | i < n ∧ lexemes.Resumes i n} j := by
  rcases h.eatIf (by decide) with ⟨-, h⟩ | ⟨-, h⟩
  · cases h.pure.1
  obtain ⟨cut, k, ⟨s, t, hcut, rfl, rfl⟩, h⟩ := h.bind
  cases hcut
  split at h
  · cases h.pure.1
  obtain ⟨v, l, ⟨s', t', hrun, hs', rfl⟩, h⟩ := h.bind
  obtain ⟨hv, rfl⟩ := h.pure
  cases hv
  rw [← hs'] at hd ⊢
  unfold statementOrSkipped at hrun
  split at hrun
  · next hstatement =>
    cases hrun
    have hread := (Inner.readsStatements_upTo (by exact hw) hd (Nat.le_refl _)
      (Parser.Gives.of_run hstatement).finish).2
    exact absurd trivial hread
  · next fault u hfailed =>
    have hnone : ¬ ∃ s k, lexemes.ReadsStatement s'.position s k := by
      rintro ⟨s, k, h⟩
      have hreads := Lexemes.reads_of_isStatement hw (bodyScope lexemes) rfl hd
        ((Lexemes.readsStatement_iff hw).mp h)
      have hfinish : Parser.Reads (bodyScope lexemes) s'.position (Inner.upTo depth).statement.finish s k :=
        .finish hreads
      obtain ⟨trail, hok⟩ := hfinish s'.trail
      rw [show (⟨s'.position, s'.trail⟩ : ParseState) = s' from rfl, hfailed] at hok
      cases hok
    split at hrun
    · split at hrun
      · next skipped w hskip =>
        cases hrun
        have hd' : lexemes.size < s'.position + 1 + depth := by omega
        have hleast := skipIncomplete_region (s := ⟨s'.position, u.trail⟩) hw hd' hskip hend
        exact ⟨hnone, hleast⟩
      · cases hrun
      · cases hrun
    · cases hrun

/-- After a statement that was skipped, the block ends or reads the statement that the probe
found. -/
theorem blockItems_continue {after : List (Statement .parsed)} (hd : lexemes.size < j + depth)
    (h : Collected (bodyScope lexemes) (blockItem (Inner.upTo depth).statement) j after k)
    (hresumes : lexemes.Resumes i j) : lexemes.Continues j after := by
  cases h with
  | nil last =>
    have hs : (Inner.upTo depth).statement.ReadsStatements (bodyScope lexemes) j :=
      Inner.readsStatements_upTo hw hd
    rcases blockItem_gives hs (Nat.le_refl j) last with ⟨hbrace, -⟩ | ⟨-, hmember, -⟩
    · exact .inl hbrace
    · exact .inr hmember
  | @cons _ _ _ v _ first _ =>
    rcases first.eatIf (by decide) with ⟨-, h⟩ | ⟨hbrace, h⟩
    · cases h.pure.1
    obtain ⟨cut, k, ⟨s, t, hcut, rfl, rfl⟩, h⟩ := h.bind
    cases hcut
    split at h
    · cases h.pure.1
    · next hmember =>
      obtain ⟨w, l, ⟨s', t', hrun, hs', rfl⟩, h⟩ := h.bind
      cases h.pure.1
      -- only a statement is left to resume at
      obtain ⟨-, hhere | hhere | ⟨-, -, u, m, hstatement⟩⟩ := hresumes
      · exact absurd hhere hbrace
      · exact absurd hhere (by simpa [bodyScope, Scope.recovers] using hmember)
      have hreads := Lexemes.reads_of_isStatement hw (bodyScope lexemes) rfl hd
        ((Lexemes.readsStatement_iff hw).mp hstatement)
      have hfinish : Parser.Reads (bodyScope lexemes) _ (Inner.upTo depth).statement.finish u m :=
        .finish hreads
      obtain ⟨trail, hok⟩ := hfinish s'.trail
      rw [← hs', show (⟨s'.position, s'.trail⟩ : ParseState) = s' from rfl] at hok
      unfold statementOrSkipped at hrun
      rw [hok] at hrun
      cases hrun
      exact ⟨hbrace, by simpa [bodyScope, Scope.recovers] using hmember, m, hstatement⟩

/-- Where statements of a block were read, some were skipped. -/
theorem block_skipped {b : Block .parsed} {before after : List (Statement .parsed)}
    {place : Extent} (h : (Part.block b).IsRun (bodyScope lexemes))
    (hbody : b.body = before ++ .incomplete place :: after)
    (hend : lexemes.kindAt place.next ≠ .eof) :
    (¬ ∃ s k, lexemes.ReadsStatement place.first s k) ∧
      IsLeast {n | place.first < n ∧ lexemes.Resumes place.first n} place.next ∧
      lexemes.Continues place.next after := by
  obtain ⟨depth, hd, h⟩ := h b rfl
  replace hd : lexemes.size ≤ b.place.first + depth := hd
  obtain ⟨-, h⟩ := h.position.expect (by decide)
  obtain ⟨body, l, hcollected, h⟩ := h.bind
  obtain ⟨hb, -⟩ := h.extentFrom.pure
  obtain rfl : body = before ++ .incomplete place :: after := by
    rw [← hbody, hb]
    rfl
  have hsteady : (Inner.upTo depth).statement.Steady :=
    Rule.Built.steady ((Inner.built_upTo depth).statement {})
  obtain ⟨i, hi, hrest⟩ :=
    hcollected.collect.append (.blockItem hsteady (Inner.built_upTo depth).ends)
  cases hrest with
  | @cons _ j _ _ _ first rest =>
    replace hd : lexemes.size < i + depth := by omega
    have hs : (Inner.upTo depth).statement.ReadsStatements (bodyScope lexemes) i :=
      Inner.readsStatements_upTo hw hd
    obtain rfl : place = ⟨i, j⟩ := (blockItem_gives hs (Nat.le_refl i) first).lays.place
    obtain ⟨hnone, hleast⟩ := blockItem_skipped hw hd first hend
    have hlt : i < j := hleast.1.1
    have hd' : lexemes.size < j + depth := by omega
    exact ⟨hnone, hleast, blockItems_continue hw hd' rest hleast.1.2⟩

end Spelled

end Grammar

end SolidityParser
