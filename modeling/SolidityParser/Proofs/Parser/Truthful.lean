import SolidityParser.Proofs.Grammar.Recovery

/-!
# Outcomes tell whether input was consumed

A rule says by its outcome whether it consumed input, and a choice goes by that. `Outcome.Fits` is
that what it says is so; `Outcome.Truthful` is that besides no rule succeeds with nothing consumed.
`Rule.ofParser` compares positions. `Rule.taking` does not, but takes a token; and where
`Rule.decided` stands after another rule, it is that one which consumed input. Every other
combinator passes on what the rules in it say, so whatever is built from combinators fits its runs
(`Phrase.Built.fits`). That a rule which succeeds has consumed a token is another matter: each rule
has its own reason for it.
-/

namespace SolidityParser

/-! ### Outcomes -/

namespace Outcome

variable {α β : Type} {i j : Nat} {outcome : Outcome Nat α}

/-- A run from `i` to `j` consumed input if and only if the outcome says so. -/
def Fits (outcome : Outcome Nat α) (i j : Nat) : Prop :=
  match outcome with
  | .consumedOk _ | .consumedErr _ => i < j
  | .emptyOk _ | .emptyErr _ _ => j = i

/-- A run from `i` to `j` consumed input, or failed where it began, as the outcome says. -/
def Truthful (outcome : Outcome Nat α) (i j : Nat) : Prop :=
  match outcome with
  | .consumedOk _ | .consumedErr _ => i < j
  | .emptyErr _ _ => j = i
  | .emptyOk _ => False

/-- If a success consumes a token, none of them is an empty one. -/
theorem Fits.truthful (h : outcome.Fits i j) (hmoves : ∀ v, outcome.value? = some v → i < j) :
    outcome.Truthful i j := by
  cases outcome with
  | consumedOk v => exact h
  | emptyOk v =>
    have hlt : i < j := hmoves v rfl
    have heq : j = i := h
    omega
  | consumedErr fault => exact h
  | emptyErr expected position => exact h

/-- A run from `i` to `j` that ends what began before says that input was consumed; if it fails, it
has consumed some itself. -/
def Completes (outcome : Outcome Nat α) (i j : Nat) : Prop :=
  match outcome with
  | .consumedOk _ => i ≤ j
  | .consumedErr _ => i < j
  | .emptyOk _ | .emptyErr _ _ => False

/-- Reckoned from any token before, what it says is so. -/
theorem Completes.truthful {n : Nat} (h : outcome.Completes i j) (hn : n < i) :
    outcome.Truthful n j := by
  cases outcome with
  | consumedOk v =>
    have hle : i ≤ j := h
    exact Nat.lt_of_lt_of_le hn hle
  | consumedErr fault =>
    have hlt : i < j := h
    exact Nat.lt_trans hn hlt
  | emptyOk v | emptyErr expected position => exact h.elim

/-- What is made of a value does not change an outcome. -/
theorem Fits.map {f : α → β} (h : outcome.Fits i j) : (outcome.map f).Fits i j := by
  cases outcome <;> exact h

/-- Nor does a construct that is named in a failure. -/
theorem Fits.within {construct : Construct} (h : outcome.Fits i j) :
    (outcome.within construct).Fits i j := by
  cases outcome <;> exact h

end Outcome

/-! ### Rules

Each combinator passes on what the rules in it say, or compares positions itself.
-/

/-- Where the kinds that are known stand, the outcomes of the rule fit its runs. -/
def Rule.Fits {α : Type} (known : List Kind) (r : Rule α) : Prop :=
  ∀ scope s, scope.lexemes.Shows s.position known →
    (r scope s).1.Fits s.position (r scope s).2.position

namespace Rule.Fits

variable {α β : Type} {known : List Kind} {k : Kind} {r : Rule α} {p : Parser α}

/-- What a parser consumed is found by comparing positions; it must not have gone back. -/
theorem ofParser (h : p.Steady 1) : Rule.Fits known (Rule.ofParser p) := by
  intro scope s _
  have hle := h.forward scope s
  unfold Rule.ofParser
  cases hrun : p scope s with
  | ok v t =>
    rw [hrun] at hle
    dsimp only
    split
    · assumption
    · exact Nat.le_antisymm (Nat.not_lt.mp ‹_›) hle
  | error fault t =>
    rw [hrun] at hle
    dsimp only
    split
    · assumption
    · exact Nat.le_antisymm (Nat.not_lt.mp ‹_›) hle

/-- The token that is taken has been consumed, whatever comes after it. -/
theorem taking {p : Nat → String → Parser α} (hk : k ≠ .eof) (h : ∀ i word, (p i word).Steady 1) :
    Rule.Fits (k :: known) (Rule.taking p) := by
  intro scope s hshows
  have hne : scope.lexemes.kindAt s.position ≠ .eof := by
    rw [hshows.1]
    exact hk
  have hle := (h s.position (scope.lexemes.textAt s.position)).forward scope
    { s with position := s.position + 1 }
  unfold Rule.taking Rule.decided
  rw [Parser.bind_of_ok (Parser.advance_run hne)]
  cases hrun : p s.position (scope.lexemes.textAt s.position) scope
      { s with position := s.position + 1 } with
  | ok v t | error fault t =>
    rw [hrun] at hle
    exact Nat.lt_of_succ_le hle

theorem opening (h : Rule.Fits [k] r) : Rule.Fits known (Rule.opening k r) := by
  intro scope s _
  unfold Rule.opening
  split
  · exact h scope s ⟨‹_›, trivial⟩
  · exact rfl

/-- What settles the choice counts as having consumed input; the rule before it has. -/
theorem followedBy {p : Nat → α → Parser β} (h : Rule.Fits known r) (settles : r.Settles)
    (hp : ∀ i v, (p i v).Steady 1) :
    Rule.Fits known (r.followedBy fun i v => Rule.decided (p i v)) := by
  intro scope s hshows
  have hr := h scope s hshows
  have hne := settles scope s
  unfold Rule.followedBy Rule.decided
  cases hrun : r scope s with
  | mk outcome t =>
    rw [hrun] at hr hne
    cases outcome with
    | consumedOk v =>
      have hlt : s.position < t.position := hr
      have hle := (hp s.position v).forward scope t
      dsimp only
      cases hnext : p s.position v scope t <;> rw [hnext] at hle <;> exact Nat.lt_of_lt_of_le hlt hle
    | emptyOk v => exact absurd rfl (hne v)
    | consumedErr fault | emptyErr expected position => exact hr

theorem provided {known' : List Kind} {test : Lexemes → Nat → Bool}
    (shows : ∀ lexemes i, test lexemes i = true → lexemes.Shows i known')
    (h : Rule.Fits known' r) : Rule.Fits known (r.provided test) := by
  intro scope s _
  unfold Rule.provided
  split
  · exact h scope s (shows _ _ ‹_›)
  · exact rfl

theorem oneOf {kinds : List Kind} (h : Rule.Fits known r) :
    Rule.Fits known (Rule.oneOf kinds r) := by
  intro scope s hshows
  unfold Rule.oneOf
  split
  · exact h scope s hshows
  · exact rfl

theorem select {choose : Kind → Option (Parser α)}
    (h : ∀ k p, choose k = some p → p.Steady 1) : Rule.Fits known (Rule.select choose) := by
  intro scope s hshows
  unfold Rule.select
  split
  · exact ofParser (h _ _ ‹_›) scope s hshows
  · exact rfl

theorem map {f : α → β} (h : Rule.Fits known r) : Rule.Fits known (r.map f) :=
  fun scope s hshows => (h scope s hshows).map

theorem within {construct : Construct} (h : Rule.Fits known r) :
    Rule.Fits known (r.within construct) :=
  fun scope s hshows => (h scope s hshows).within

theorem named {name : RuleName} (h : Rule.Fits known r) : Rule.Fits known (r.named name) := by
  intro scope s hshows
  have hr := h scope s hshows
  unfold Rule.named
  cases hrun : r scope s with
  | mk outcome t =>
    rw [hrun] at hr
    cases outcome <;> exact hr

/-! ### Choice -/

/-- A failed attempt goes back to where it began. -/
theorem attempt (h : Rule.Fits known r) : Rule.Fits known r.attempt := by
  intro scope s hshows
  have hr := h { scope with speculative := true } s hshows
  unfold Rule.attempt
  cases hrun : r { scope with speculative := true } s with
  | mk outcome t =>
    rw [hrun] at hr
    cases outcome with
    | consumedOk v | emptyOk v => exact hr
    | consumedErr fault | emptyErr expected position => exact rfl

theorem none : Rule.Fits known (Rule.firstOf ([] : List (Rule α))) := fun _ _ _ => rfl

/-- The other rules of a choice are tried from where the first began. -/
theorem orElse {rs : List (Rule α)} (h : Rule.Fits known r)
    (hrs : Rule.Fits known (Rule.firstOf rs)) : Rule.Fits known (Rule.firstOf (r :: rs)) := by
  intro scope s hshows
  have hr := h scope s hshows
  unfold Rule.firstOf
  cases hrun : r scope s with
  | mk outcome t =>
    rw [hrun] at hr
    cases outcome with
    | consumedOk v | emptyOk v | consumedErr fault => exact hr
    | emptyErr expected position =>
      have hothers := hrs scope { t with position := s.position } hshows
      dsimp only
      cases hrun' : Rule.firstOf rs scope { t with position := s.position } with
      | mk outcome u =>
        rw [hrun'] at hothers
        cases outcome <;> exact hothers

end Rule.Fits

/-! ### Everything that is built -/

/-- The outcomes of a rule fit its runs; a parser has none. -/
def Phrase.Fits {α : Type} (known : List Kind) : Phrase α → Prop
  | .parser _ => True
  | .rule r => r.Fits known

/-- The outcomes of a rule that is built from combinators fit its runs. -/
theorem Phrase.Built.fits {α : Type} {known : List Kind} {a : Ledger} {phrase : Phrase α}
    {b : α → Ledger} (h : Phrase.Built known a phrase b) : phrase.Fits known := by
  induction h with
  | ofParser h _ => exact Rule.Fits.ofParser (Phrase.Built.steady h)
  | taking ledger h _ =>
    exact Rule.Fits.taking (Ledger.ne_eof_of_after? ledger) fun i word =>
      Phrase.Built.steady (h i word)
  | opening _ ih => exact Rule.Fits.opening ih
  | followedBy settles _ h ih _ =>
    exact Rule.Fits.followedBy ih settles fun i v => Phrase.Built.steady (h i v)
  | select h _ => exact Rule.Fits.select fun k p hk => Phrase.Built.steady (h k p hk)
  | provided shows _ ih => exact Rule.Fits.provided shows ih
  | ruleMap _ ih => exact Rule.Fits.map ih
  | ruleWithin _ _ ih => exact Rule.Fits.within ih
  | ruleNamed _ _ ih => exact Rule.Fits.named ih
  | attempt _ ih => exact Rule.Fits.attempt ih
  | none => exact Rule.Fits.none
  | orElse _ _ ih ih' => exact Rule.Fits.orElse ih ih'
  | oneOf _ ih => exact Rule.Fits.oneOf ih
  | _ => trivial

end SolidityParser
