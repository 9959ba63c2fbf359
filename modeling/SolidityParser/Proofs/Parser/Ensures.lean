import SolidityParser.Proofs.Parser.Built

/-!
# What successful runs ensure

An `Effect` is a property of a successful run: of the input, of whether broken statements are
tolerated, of the positions where the run begins and ends, and of its value. `Parser.Ensures` and
`Rule.Ensures` say that every successful run has the effect. What only words failures differently,
changes the scope, or chooses between rules keeps every effect; the lemmas here say so once for all
of them.
-/

namespace SolidityParser

/-- A property of a successful run of a parser or a rule. -/
abbrev Effect (α : Type) := Lexemes → Bool → Nat → α → Nat → Prop

/-- Where the kinds that are known stand, a run that succeeds has the effect. -/
def Parser.Ensures {α : Type} (known : List Kind) (p : Parser α) (effect : Effect α) : Prop :=
  ∀ scope s t v, scope.lexemes.Shows s.position known → p scope s = .ok v t →
    effect scope.lexemes scope.tolerant s.position v t.position

/-- As `Parser.Ensures`, for rules. -/
def Rule.Ensures {α : Type} (known : List Kind) (r : Rule α) (effect : Effect α) : Prop :=
  ∀ scope s v, scope.lexemes.Shows s.position known → (r scope s).1.value? = some v →
    effect scope.lexemes scope.tolerant s.position v (r scope s).2.position

/-! ### Parsers

Effects are kept by whatever leaves value and position of a successful run as they are.
-/

namespace Parser.Ensures

variable {α β : Type} {known : List Kind} {p : Parser α} {effect : Effect α}

protected theorem fail : Ensures known (Parser.fail : Parser α) effect := by
  intro scope s t v _ hrun
  cases hrun

/-- What is known may be left aside. -/
theorem weaken (h : Ensures [] p effect) : Ensures known p effect :=
  fun scope s t v _ hrun => h scope s t v trivial hrun

/-- The first part has an effect, and the second one from there. -/
theorem bind {f : α → Parser β} {effect' : α → Effect β} {total : Effect β}
    (hp : Ensures known p effect) (hf : ∀ v, Ensures [] (f v) (effect' v))
    (htotal : ∀ {lexemes tolerant i j k v w}, effect lexemes tolerant i v j →
      effect' v lexemes tolerant j w k → total lexemes tolerant i w k) :
    Ensures known (p >>= f) total := by
  intro scope s u w hshows hrun
  obtain ⟨v, t, hfirst, hrest⟩ := bind_eq_ok hrun
  exact htotal (hp scope s t v hshows hfirst) (hf v scope t u w trivial hrest)

/-- What both branches ensure, the test ensures. -/
theorem ite {test : Prop} [Decidable test] {q : Parser α} (yes : Ensures known p effect)
    (no : Ensures known q effect) : Ensures known (if test then p else q) effect := by
  split
  · exact yes
  · exact no

theorem within {construct : Construct} (h : Ensures known p effect) :
    Ensures known (p.within construct) effect := by
  intro scope s t v hshows hrun
  unfold Parser.within at hrun
  split at hrun <;> cases hrun
  exact h scope s t v hshows ‹_›

theorem named {rule : RuleName} (h : Ensures known p effect) :
    Ensures known (p.named rule) effect := by
  intro scope s t v hshows hrun
  unfold Parser.named at hrun
  split at hrun <;> cases hrun
  exact h scope s t v hshows ‹_›

theorem inBody (h : Ensures known p effect) : Ensures known p.inBody effect :=
  fun scope s t v hshows hrun => h { scope with inBody := true } s t v hshows hrun

/-- A rule that succeeds as a parser has succeeded as a rule. -/
theorem finish {r : Rule α} {construct : Option Construct} (h : r.Ensures known effect) :
    Ensures known (r.finishIn construct) effect := by
  intro scope s t v hshows hrun
  have hf := h scope s v hshows
  unfold Rule.finishIn at hrun
  cases hr : r scope s with
  | mk outcome u =>
    rw [hr] at hrun hf
    cases outcome <;> cases hrun <;> exact hf rfl

end Parser.Ensures

/-! ### Rules

A rule ensures what it is made from. A test adds what it shows to what is known at the front.
-/

namespace Rule.Ensures

variable {α β : Type} {known : List Kind} {r : Rule α} {effect : Effect α}

/-- A parser ensures as a rule what it does by itself. -/
theorem ofParser {p : Parser α} (h : p.Ensures known effect) :
    Rule.Ensures known (Rule.ofParser p) effect := by
  intro scope s v hshows hv
  unfold Rule.ofParser at hv ⊢
  cases hrun : p scope s with
  | ok w t =>
    rw [hrun] at hv
    have hw : w = v := by
      dsimp only at hv
      split at hv <;> cases hv <;> rfl
    exact h scope s t v hshows (hw ▸ hrun)
  | error fault t =>
    rw [hrun] at hv
    dsimp only at hv
    split at hv <;> cases hv

/-- So it does if its first token decides it. -/
theorem decided {p : Parser α} (h : p.Ensures known effect) :
    Rule.Ensures known (Rule.decided p) effect := by
  intro scope s v hshows hv
  unfold Rule.decided at hv ⊢
  cases hrun : p scope s with
  | ok w t =>
    rw [hrun] at hv
    cases hv
    exact h scope s t v hshows hrun
  | error fault t =>
    rw [hrun] at hv
    cases hv

theorem taking {p : Nat → String → Parser α}
    (h : ∀ i word, Parser.Ensures known (Parser.advance >>= fun _ => p i word) effect) :
    Rule.Ensures known (Rule.taking p) effect :=
  fun scope s => decided (h _ _) scope s

/-- The token that has to stand first is known. -/
theorem opening {k : Kind} (h : Rule.Ensures [k] r effect) :
    Rule.Ensures known (Rule.opening k r) effect := by
  intro scope s v _ hv
  unfold Rule.opening at hv ⊢
  split at hv
  · rename_i hk
    rw [if_pos hk]
    exact h scope s v ⟨hk, trivial⟩ hv
  · cases hv

/-- The first rule has an effect, and the second one from there. -/
theorem followedBy {next : Nat → α → Rule β} {effect' : α → Effect β} {total : Effect β}
    (h : Rule.Ensures known r effect) (hnext : ∀ i v, Rule.Ensures [] (next i v) (effect' v))
    (htotal : ∀ {lexemes tolerant i j k v w}, effect lexemes tolerant i v j →
      effect' v lexemes tolerant j w k → total lexemes tolerant i w k) :
    Rule.Ensures known (r.followedBy next) total := by
  intro scope s w hshows hw
  have hfirst := h scope s
  unfold Rule.followedBy at hw ⊢
  cases hr : r scope s with
  | mk outcome t =>
    rw [hr] at hw hfirst
    cases outcome with
    | consumedOk v | emptyOk v =>
      exact htotal (hfirst v hshows rfl) (hnext _ v scope t w trivial hw)
    | consumedErr fault | emptyErr expected position => cases hw

/-- What a test shows is known. -/
theorem provided {known' : List Kind} {test : Lexemes → Nat → Bool}
    (shows : ∀ lexemes i, test lexemes i = true → lexemes.Shows i known')
    (h : Rule.Ensures known' r effect) : Rule.Ensures known (r.provided test) effect := by
  intro scope s v _ hv
  unfold Rule.provided at hv ⊢
  split at hv
  · rename_i ht
    rw [if_pos ht]
    exact h scope s v (shows _ _ ht) hv
  · cases hv

/-- A test that tells nothing the rule relies on. -/
theorem tried {test : Lexemes → Nat → Bool} (h : Rule.Ensures [] r effect) :
    Rule.Ensures known (r.provided test) effect :=
  have shows : ∀ lexemes i, test lexemes i = true → lexemes.Shows i [] := fun _ _ _ => trivial
  provided shows h

/-- A token out of several was there. -/
theorem oneOf {kinds : List Kind} (h : Rule.Ensures known r effect) :
    Rule.Ensures known (Rule.oneOf kinds r) effect := by
  intro scope s v hshows hv
  unfold Rule.oneOf at hv ⊢
  split at hv
  · rename_i ht
    rw [if_pos ht]
    exact h scope s v hshows hv
  · cases hv

/-- The next token is known, and has chosen what is run. -/
theorem select {choose : Kind → Option (Parser α)}
    (h : ∀ k p, choose k = some p → p.Ensures [k] effect) :
    Rule.Ensures known (Rule.select choose) effect := by
  intro scope s v _ hv
  unfold Rule.select at hv ⊢
  cases hc : choose (scope.lexemes.kindAt s.position) with
  | some p =>
    rw [hc] at hv
    exact ofParser (h _ p hc) scope s v ⟨rfl, trivial⟩ hv
  | none =>
    rw [hc] at hv
    cases hv

/-- An effect on what is made of a value is one on the value. -/
theorem map {f : α → β} {effect : Effect β}
    (h : Rule.Ensures known r fun lexemes tolerant i v j => effect lexemes tolerant i (f v) j) :
    Rule.Ensures known (r.map f) effect := by
  intro scope s w hshows hw
  have hf := fun v => h scope s v hshows
  unfold Rule.map at hw ⊢
  cases hr : r scope s with
  | mk outcome t =>
    rw [hr] at hw hf
    cases outcome <;> cases hw <;> exact hf _ rfl

theorem within {construct : Construct} (h : Rule.Ensures known r effect) :
    Rule.Ensures known (r.within construct) effect := by
  intro scope s v hshows hv
  have hf := h scope s v hshows
  unfold Rule.within at hv ⊢
  cases hr : r scope s with
  | mk outcome t =>
    rw [hr] at hv hf
    cases outcome <;> exact hf hv

theorem named {name : RuleName} (h : Rule.Ensures known r effect) :
    Rule.Ensures known (r.named name) effect := by
  intro scope s v hshows hv
  have hf := h scope s v hshows
  unfold Rule.named at hv ⊢
  cases hr : r scope s with
  | mk outcome t =>
    rw [hr] at hv hf
    cases outcome <;> exact hf hv

/-- An attempt that succeeds has succeeded under another scope, of which the effect does not
know. -/
theorem attempt (h : Rule.Ensures known r effect) : Rule.Ensures known r.attempt effect := by
  intro scope s v hshows hv
  have hf := h { scope with speculative := true } s v hshows
  unfold Rule.attempt at hv ⊢
  cases hr : r { scope with speculative := true } s with
  | mk outcome t =>
    rw [hr] at hv hf
    cases outcome <;> first | exact hf hv | cases hv

protected theorem none : Rule.Ensures known (Rule.firstOf []) effect := by
  intro scope s v _ hv
  cases hv

/-- What each rule of a choice ensures, the choice does. -/
theorem orElse {rs : List (Rule α)} (h : Rule.Ensures known r effect)
    (hrs : Rule.Ensures known (Rule.firstOf rs) effect) :
    Rule.Ensures known (Rule.firstOf (r :: rs)) effect := by
  intro scope s v hshows hv
  have hf := h scope s v hshows
  unfold Rule.firstOf at hv ⊢
  cases hr : r scope s with
  | mk outcome t =>
    rw [hr] at hv hf
    cases outcome with
    | consumedOk w | emptyOk w => exact hf hv
    | consumedErr fault => cases hv
    | emptyErr expected position =>
      have hf' := hrs scope { t with position := s.position } v hshows
      dsimp only at hv ⊢
      cases hr' : Rule.firstOf rs scope { t with position := s.position } with
      | mk outcome u =>
        rw [hr'] at hv hf'
        cases outcome <;> exact hf' hv

end Rule.Ensures

/-! ### Values of a choice -/

namespace Rule

variable {α β : Type} {scope : Scope} {i j : Nat} {r : Rule α} {v : α}

/-- With some failures on record before, the rule gives `v` at `i` and ends at `j`. -/
def Gives (scope : Scope) (i : Nat) (r : Rule α) (v : α) (j : Nat) : Prop :=
  ∃ s, s.position = i ∧ (r scope s).1.value? = some v ∧ (r scope s).2.position = j

/-- What a rule gives has the effect that the rule ensures. -/
theorem Ensures.of_gives {effect : Effect α} (h : r.Ensures [] effect)
    (hv : r.Gives scope i v j) : effect scope.lexemes scope.tolerant i v j := by
  obtain ⟨s, rfl, hvalue, rfl⟩ := hv
  exact h scope s v trivial hvalue

namespace Gives

/-- A run as a parser that succeeded was one of the rule. -/
theorem of_finish {s t : ParseState} {construct : Option Construct}
    (h : r.finishIn construct scope s = .ok v t) :
    r.Gives scope s.position v t.position := by
  refine ⟨s, rfl, ?_⟩
  unfold Rule.finishIn at h
  cases hr : r scope s with
  | mk outcome u =>
    rw [hr] at h
    cases outcome <;> cases h <;> exact ⟨rfl, rfl⟩

/-- What a rule gives, its parser gives. -/
theorem finish (h : r.Gives scope i v j) :
    ∃ s t, r.finish scope s = .ok v t ∧ s.position = i ∧ t.position = j := by
  obtain ⟨s, hs, hvalue, hj⟩ := h
  refine ⟨s, (r scope s).2, ?_, hs, hj⟩
  unfold Rule.finish Rule.finishIn
  cases hr : r scope s with
  | mk outcome t =>
    rw [hr] at hvalue
    cases outcome <;> cases hvalue <;> rfl

/-- A name does not change what was read. -/
theorem of_named {name : RuleName} (h : (r.named name).Gives scope i v j) :
    r.Gives scope i v j := by
  obtain ⟨s, hs, hvalue, hj⟩ := h
  refine ⟨s, hs, ?_⟩
  unfold Rule.named at hvalue hj
  cases hr : r scope s with
  | mk outcome t =>
    rw [hr] at hvalue hj
    cases outcome <;> exact ⟨hvalue, hj⟩

/-- What was given is made of what was read. -/
theorem of_map {f : α → β} {w : β} (h : (r.map f).Gives scope i w j) :
    ∃ v, r.Gives scope i v j ∧ f v = w := by
  obtain ⟨s, hs, hvalue, hj⟩ := h
  unfold Rule.map at hvalue hj
  cases hr : r scope s with
  | mk outcome t =>
    have hgives : ∀ v, outcome.value? = some v → r.Gives scope i v j := by
      intro v hv
      refine ⟨s, hs, ?_⟩
      rw [hr] at hj ⊢
      exact ⟨hv, hj⟩
    rw [hr] at hvalue
    cases outcome <;> cases hvalue <;> exact ⟨_, hgives _ rfl, rfl⟩

/-- What a choice gives, its first rule gives, or the choice among the others. -/
theorem orElse {rs : List (Rule α)} (h : (Rule.firstOf (r :: rs)).Gives scope i v j) :
    r.Gives scope i v j ∨ (Rule.firstOf rs).Gives scope i v j := by
  obtain ⟨s, hs, hvalue, hj⟩ := h
  unfold Rule.firstOf at hvalue hj
  cases hr : r scope s with
  | mk outcome t =>
    rw [hr] at hvalue hj
    cases outcome with
    | consumedOk w | emptyOk w =>
      refine .inl ⟨s, hs, ?_⟩
      rw [hr]
      exact ⟨hvalue, hj⟩
    | consumedErr fault => cases hvalue
    | emptyErr expected position =>
      refine .inr ⟨{ t with position := s.position }, hs, ?_⟩
      dsimp only at hvalue hj
      cases hr' : Rule.firstOf rs scope { t with position := s.position } with
      | mk outcome u =>
        rw [hr'] at hvalue hj
        cases outcome <;> exact ⟨hvalue, hj⟩

end Gives

end Rule

end SolidityParser
