import SolidityParser.Proofs.Parser.Gives

/-!
# Runs with and without tolerance

`Parser.Steady lag p` compares two runs of `p` from one position, under scopes of which the second
may tolerate broken statements where the first does not. The runs tell the same, whatever failures
were on record before, unless the strict one fails at least `lag` tokens further on, outside of any
attempt. A choice goes on to its next rule only after a failure that consumed nothing; with lag one
the strict failure is none of those, so no choice hides it.

Every combinator preserves steadiness. Blocks, where the two scopes do differ, are the subject of
`Proofs/Grammar/Recovery`.
-/

namespace SolidityParser

/-! ### What a run tells -/

/-- The scope with broken statements tolerated. -/
def Scope.relaxed (scope : Scope) : Scope := { scope with tolerant := true }

/-- The second scope is the first, or the first with broken statements tolerated. -/
inductive Relaxes : Scope → Scope → Prop
  | refl (scope : Scope) : Relaxes scope scope
  | relax (scope : Scope) : Relaxes scope scope.relaxed

/-- Only the second scope tolerates broken statements, and this is no attempt. -/
def Lenient (strict lax : Scope) : Prop :=
  strict.tolerant = false ∧ lax.tolerant = true ∧ strict.speculative = false

namespace Relaxes

variable {strict lax : Scope}

/-- Both scopes are of the same input. -/
theorem lexemes (h : Relaxes strict lax) : lax.lexemes = strict.lexemes := by
  cases h <;> rfl

/-- Going into a body changes both scopes alike. -/
theorem inBody (h : Relaxes strict lax) :
    Relaxes { strict with inBody := true } { lax with inBody := true } := by
  cases h
  · exact .refl _
  · exact .relax _

/-- So does an attempt. -/
theorem speculative (h : Relaxes strict lax) :
    Relaxes { strict with speculative := true } { lax with speculative := true } := by
  cases h
  · exact .refl _
  · exact .relax _

end Relaxes

namespace Parser

variable {α β : Type} {lag : Nat}

/-- What a run tells, but for its record of failures. -/
def told : EStateM.Result Fault ParseState α → EStateM.Result Fault Nat α
  | .ok v t => .ok v t.position
  | .error fault t => .error fault t.position

/-- The position where a run ends, whether it succeeds or not. -/
def reached : EStateM.Result Fault ParseState α → Nat
  | .ok _ t | .error _ t => t.position

/-- A run that tells of a success is one. -/
theorem told_eq_ok {r : EStateM.Result Fault ParseState α} {v : α} {n : Nat}
    (h : told r = .ok v n) : ∃ t, r = .ok v t ∧ t.position = n := by
  cases r with
  | ok w t => cases h; exact ⟨t, rfl, rfl⟩
  | error => cases h

/-- A run that tells of a failure is one. -/
theorem told_eq_error {r : EStateM.Result Fault ParseState α} {fault : Fault} {n : Nat}
    (h : told r = .error fault n) : ∃ t, r = .error fault t ∧ t.position = n := by
  cases r with
  | ok => cases h
  | error _ t => cases h; exact ⟨t, rfl, rfl⟩

/-- Two runs from one position tell the same, unless the strict one fails `lag` tokens further on;
and no run goes back. -/
structure Steady (lag : Nat) (p : Parser α) : Prop where
  /-- The runs tell the same, or the strict one fails. -/
  agrees : ∀ {strict lax : Scope} {s s' : ParseState}, Relaxes strict lax →
    s'.position = s.position →
    told (p lax s') = told (p strict s) ∨
      Lenient strict lax ∧ ∃ fault t, p strict s = .error fault t ∧ s.position + lag ≤ t.position
  /-- No run goes back. -/
  forward : ∀ scope s, s.position ≤ reached (p scope s)

end Parser

/-- As `Parser.Steady`, for rules; a rule that fails further on has consumed input. -/
structure Rule.Steady {α : Type} (r : Rule α) : Prop where
  /-- The runs tell the same, or the strict one fails. -/
  agrees : ∀ {strict lax : Scope} {s s' : ParseState}, Relaxes strict lax →
    s'.position = s.position →
    (∃ t', r lax s' = ((r strict s).1, t') ∧ t'.position = (r strict s).2.position) ∨
      Lenient strict lax ∧ ∃ fault t, r strict s = (.consumedErr fault, t) ∧
        s.position + 1 ≤ t.position
  /-- No run goes back. -/
  forward : ∀ scope s, s.position ≤ (r scope s).2.position

/-! ### Primitives -/

namespace Parser.Steady

variable {α β : Type} {lag : Nat} {p : Parser α}

/-- A run that succeeds does not go back. -/
theorem le (h : Steady lag p) {scope : Scope} {s t : ParseState} {v : α}
    (hrun : p scope s = .ok v t) : s.position ≤ t.position := by
  simpa only [hrun, reached] using h.forward scope s

/-- What a run tells does not depend on the failures that were on record before. -/
theorem told_eq (h : Steady lag p) {scope : Scope} {s s' : ParseState}
    (hs : s'.position = s.position) : told (p scope s') = told (p scope s) := by
  rcases h.agrees (.refl scope) hs with he | ⟨hl, -⟩
  · exact he
  · have hstrict := hl.1
    rw [hl.2.1] at hstrict
    cases hstrict

/-- What a run gives, it gives whatever failures were on record before. -/
theorem reads (h : Steady lag p) {scope : Scope} {s t : ParseState} {v : α}
    (hrun : p scope s = .ok v t) : Reads scope s.position p v t.position := by
  intro trail
  have hsame : (⟨s.position, trail⟩ : ParseState).position = s.position := rfl
  have he : told (p scope _) = _ := h.told_eq hsame
  rw [hrun] at he
  obtain ⟨t', hrun', ht⟩ := told_eq_ok he
  exact ⟨t'.trail, by rw [hrun', ← ht]⟩

/-- Where a run fails, it fails whatever failures were on record before. -/
theorem fails (h : Steady lag p) {scope : Scope} {s t : ParseState} {fault : Fault}
    (hrun : p scope s = .error fault t) (trail : Trail) :
    ∃ trail', p scope ⟨s.position, trail⟩ = .error fault ⟨t.position, trail'⟩ := by
  have hsame : (⟨s.position, trail⟩ : ParseState).position = s.position := rfl
  have he : told (p scope _) = _ := h.told_eq hsame
  rw [hrun] at he
  obtain ⟨t', hrun', ht⟩ := told_eq_error he
  exact ⟨t'.trail, by rw [hrun', ← ht]⟩

/-- A parser that disagrees further on only is also one that may disagree sooner. -/
theorem sooner (h : Steady 1 p) : Steady 0 p where
  agrees hr hs := by
    rcases h.agrees hr hs with he | ⟨hl, fault, t, he, ht⟩
    · exact .inl he
    · exact .inr ⟨hl, fault, t, he, by omega⟩
  forward := h.forward

protected theorem pure (v : α) : Steady lag (pure v : Parser α) where
  agrees _ hs := .inl (by simp only [pure_run, told, hs])
  forward _ _ := Nat.le_refl _

protected theorem fail : Steady lag (Parser.fail : Parser α) where
  agrees _ hs := .inl (by simp only [Parser.fail, told, hs])
  forward _ _ := Nat.le_refl _

/-- What only looks at the input tells the same under both scopes. -/
theorem look (read : Lexemes → Nat → α) :
    Steady lag (fun scope s => .ok (read scope.lexemes s.position) s) where
  agrees hr hs := .inl (by simp only [told, hs, hr.lexemes])
  forward _ _ := Nat.le_refl _

theorem position : Steady lag Parser.position := look fun _ i => i

theorem kind : Steady lag Parser.kind := look fun lexemes i => lexemes.kindAt i

theorem extentFrom (first : Nat) : Steady lag (Parser.extentFrom first) :=
  look fun _ i => Extent.mk first i

/-- The number of tokens left is the same in both scopes. -/
theorem budget : Steady lag Parser.budget := look fun lexemes i => lexemes.size - i + 1

/-- What is put on record is not told. -/
theorem report (change : Nat → Trail → Trail) :
    Steady lag (fun _ s => .ok () { s with trail := change s.position s.trail }) where
  agrees _ hs := .inl (by simp only [told, hs])
  forward _ _ := Nat.le_refl _

/-- A step forward is the same step for both. -/
theorem advance : Steady lag Parser.advance where
  agrees {strict lax s s'} hr hs := by
    refine .inl ?_
    unfold Parser.advance
    rw [hr.lexemes, hs]
    split <;> simp only [told, hs]
  forward scope s := by
    unfold Parser.advance
    split
    · exact Nat.le_refl _
    · exact Nat.le_succ _

/-! ### Composition -/

/-- If the strict run fails further on in its first part it does so as a whole, and otherwise both
come to the second part at the same place with the same value. -/
theorem bind {f : α → Parser β} (hp : Steady lag p) (hf : ∀ v, Steady lag (f v)) :
    Steady lag (p >>= f) where
  agrees {strict lax s s'} hr hs := by
    rcases hp.agrees hr hs with he | ⟨hl, fault, t, he, ht⟩
    · cases hrun : p strict s with
      | ok v t =>
        rw [hrun] at he
        obtain ⟨t', hrun', ht'⟩ := told_eq_ok he
        rw [bind_of_ok hrun, bind_of_ok hrun']
        rcases (hf v).agrees hr ht' with he | ⟨hl, fault, u, he, hu⟩
        · exact .inl he
        · have := hp.le hrun
          exact .inr ⟨hl, fault, u, he, by omega⟩
      | error fault t =>
        rw [hrun] at he
        obtain ⟨t', hrun', ht'⟩ := told_eq_error he
        rw [bind_of_error hrun, bind_of_error hrun']
        exact .inl (by simp only [told, ht'])
    · exact .inr ⟨hl, fault, t, bind_of_error he, ht⟩
  forward scope s := by
    have hle := hp.forward scope s
    rw [bind_run]
    cases hrun : p scope s with
    | ok v t =>
      rw [hrun] at hle
      exact Nat.le_trans hle ((hf v).forward scope t)
    | error fault t => rwa [hrun] at hle

/-- What is run may depend on what was told, which is the same for both. -/
theorem ite {test : Prop} [Decidable test] {q : Parser α} (yes : Steady lag p)
    (no : Steady lag q) : Steady lag (if test then p else q) := by
  split
  · exact yes
  · exact no

theorem map {g : α → β} (h : Steady lag p) : Steady lag (g <$> p) := by
  rw [← bind_pure_comp]
  exact h.bind fun v => .pure (g v)

/-- A parser that only words the failures of another differently, and reports more of them. -/
theorem reword {q : Parser α} (h : Steady lag p) (word : Fault → Fault)
    (change : ParseState → Trail → Trail)
    (hq : ∀ scope s, q scope s =
      match p scope s with
      | .ok v t => .ok v t
      | .error fault t => .error (word fault) { t with trail := change s t.trail }) :
    Steady lag q where
  agrees {strict lax s s'} hr hs := by
    rw [hq, hq]
    rcases h.agrees hr hs with he | ⟨hl, fault, t, he, ht⟩
    · cases hrun : p strict s with
      | ok v t =>
        rw [hrun] at he
        obtain ⟨t', hrun', ht'⟩ := told_eq_ok he
        rw [hrun']
        exact .inl (by simp only [told, ht'])
      | error fault t =>
        rw [hrun] at he
        obtain ⟨t', hrun', ht'⟩ := told_eq_error he
        rw [hrun']
        exact .inl (by simp only [told, ht'])
    · rw [he]
      exact .inr ⟨hl, word fault, _, rfl, ht⟩
  forward scope s := by
    have hle := h.forward scope s
    rw [hq]
    cases hrun : p scope s <;> rwa [hrun] at hle

/-- A construct is added to a failure, which is then another failure at the same place. -/
theorem within {construct : Construct} (h : Steady lag p) : Steady lag (p.within construct) :=
  h.reword (·.within construct) (fun _ trail => trail) fun scope s => by
    unfold Parser.within
    cases p scope s <;> rfl

/-- A name changes the record and the words of a failure. -/
theorem named {rule : RuleName} (h : Steady lag p) : Steady lag (p.named rule) :=
  h.reword id (fun s trail => trail.collapse s.position s.trail rule) fun scope s => by
    unfold Parser.named
    cases p scope s <;> rfl

theorem inBody (h : Steady lag p) : Steady lag p.inBody where
  agrees hr hs := h.agrees hr.inBody hs
  forward scope s := h.forward { scope with inBody := true } s

/-! ### Loops -/

/-- A loop of steady rounds is steady, by induction on its budget. -/
theorem iterate {step : β → Parser (Option β)} (h : ∀ v, Steady lag (step v)) (v : β) :
    Steady lag (Parser.iterate step v) := by
  have loop : ∀ fuel v, Steady lag (Parser.iterateAtFuel step fuel v) := by
    intro fuel
    induction fuel with
    | zero => exact fun _ => .fail
    | succ fuel ih =>
      refine fun v => (h v).bind fun next => ?_
      cases next with
      | none => exact .pure v
      | some next => exact ih next
  exact budget.bind fun fuel => loop fuel v

/-- So is one that collects. -/
theorem collect {step : Parser (Option α)} (h : Steady lag step) :
    Steady lag (Parser.collect step) := by
  have loop : ∀ fuel, Steady lag (Parser.collectAtFuel step fuel) := by
    intro fuel
    induction fuel with
    | zero => exact .fail
    | succ fuel ih =>
      refine h.bind fun next => ?_
      cases next with
      | none => exact .pure []
      | some v => exact ih.bind fun vs => .pure (v :: vs)
  exact budget.bind loop

theorem check {k : Kind} : Steady lag (Parser.check k) :=
  kind.bind fun _ => .ite (.pure true) <|
    (report fun i trail => trail.addToken i k).bind fun _ => .pure false

theorem expect {k : Kind} : Steady lag (Parser.expect k) := check.bind fun _ => .ite advance .fail

theorem eat {k : Kind} : Steady lag (Parser.eat k) :=
  check.bind fun _ => .ite (advance.bind fun _ => .pure true) (.pure false)

/-- So are items with commas between them. -/
theorem separated (h : Steady lag p) : Steady lag (Parser.separated p) := by
  have loop : ∀ fuel, Steady lag (Parser.separatedAtFuel p fuel) := by
    intro fuel
    induction fuel with
    | zero => exact .fail
    | succ fuel ih =>
      exact h.bind fun v => eat.bind fun _ => .ite (ih.bind fun vs => .pure (v :: vs)) (.pure [v])
  exact budget.bind loop

/-- After a token has been consumed, a parser may disagree at once. -/
theorem expect_bind {k : Kind} {f : Unit → Parser β} (hk : k ≠ .eof) (h : ∀ v, Steady 0 (f v)) :
    Steady 1 (Parser.expect k >>= f) where
  agrees {strict lax s s'} hr hs := by
    have hkind : lax.lexemes.kindAt s'.position = strict.lexemes.kindAt s.position := by
      rw [hr.lexemes, hs]
    by_cases hit : strict.lexemes.kindAt s.position = k
    · rw [bind_of_ok (expect_hit hk hit), bind_of_ok (expect_hit hk (hkind.trans hit))]
      have next : ({ s' with position := s'.position + 1 } : ParseState).position =
        ({ s with position := s.position + 1 } : ParseState).position := congrArg (· + 1) hs
      rcases (h ()).agrees hr next with he | ⟨hl, fault, t, he, ht⟩
      · exact .inl he
      · exact .inr ⟨hl, fault, t, he, ht⟩
    · rw [bind_of_error (expect_miss hit), bind_of_error (expect_miss (hkind ▸ hit))]
      exact .inl (by simp only [told, hs])
  forward := (expect.bind h).forward

end Parser.Steady

/-! ### Runs that succeed -/

namespace Parser.Gives

variable {α : Type} {lag i j : Nat} {scope : Scope} {p : Parser α} {v : α}

/-- A parser that is steady does not go back. -/
theorem le (h : p.Gives scope i v j) (hp : p.Steady lag) : i ≤ j := by
  obtain ⟨s, t, hrun, rfl, rfl⟩ := h
  exact hp.le hrun

/-- What a steady parser gives, it reads whatever is on record. -/
theorem reads (h : p.Gives scope i v j) (hp : p.Steady lag) : p.Reads scope i v j := by
  obtain ⟨s, t, hrun, rfl, rfl⟩ := h
  exact hp.reads hrun

end Parser.Gives

/-! ### Rules -/

namespace Rule.Steady

variable {α β : Type} {r : Rule α}

/-- As a rule a parser fails further on or right away, which shows by its position. -/
theorem ofParser {p : Parser α} (h : p.Steady 1) : Rule.Steady (Rule.ofParser p) where
  agrees {strict lax s s'} hr hs := by
    unfold Rule.ofParser
    rcases h.agrees hr hs with he | ⟨hl, fault, t, he, ht⟩
    · cases hrun : p strict s with
      | ok v t =>
        rw [hrun] at he
        obtain ⟨t', hrun', ht'⟩ := Parser.told_eq_ok he
        rw [hrun']
        exact .inl ⟨t', by simp only [hs, ht'], ht'⟩
      | error fault t =>
        rw [hrun] at he
        obtain ⟨t', hrun', ht'⟩ := Parser.told_eq_error he
        rw [hrun']
        exact .inl ⟨t', by simp only [hs, ht'], ht'⟩
    · rw [he]
      exact .inr ⟨hl, fault, t, by simp only [if_pos (Nat.lt_of_succ_le ht)], ht⟩
  forward scope s := by
    have hle := h.forward scope s
    unfold Rule.ofParser
    cases hrun : p scope s <;> rwa [hrun] at hle

/-- A rule that is decided has consumed, so that no choice goes on after it. -/
theorem decided {p : Parser α} (h : p.Steady 1) : Rule.Steady (Rule.decided p) where
  agrees {strict lax s s'} hr hs := by
    unfold Rule.decided
    rcases h.agrees hr hs with he | ⟨hl, fault, t, he, ht⟩
    · cases hrun : p strict s with
      | ok v t =>
        rw [hrun] at he
        obtain ⟨t', hrun', ht'⟩ := Parser.told_eq_ok he
        rw [hrun']
        exact .inl ⟨t', rfl, ht'⟩
      | error fault t =>
        rw [hrun] at he
        obtain ⟨t', hrun', ht'⟩ := Parser.told_eq_error he
        rw [hrun']
        exact .inl ⟨t', rfl, ht'⟩
    · rw [he]
      exact .inr ⟨hl, fault, t, rfl, ht⟩
  forward scope s := by
    have hle := h.forward scope s
    unfold Rule.decided
    cases hrun : p scope s <;> rwa [hrun] at hle

/-- A rule that takes a token first has consumed it. -/
theorem taking {p : Nat → String → Parser α} (h : ∀ i word, (p i word).Steady 1) :
    Rule.Steady (Rule.taking p) where
  agrees {strict lax s s'} hr hs := by
    unfold Rule.taking
    rw [hr.lexemes, hs]
    exact (decided (Parser.Steady.advance.bind fun _ => h _ _)).agrees hr hs
  forward scope s := (decided (Parser.Steady.advance.bind fun _ => h _ _)).forward scope s

/-- The second rule goes on where the first ended, and no run goes back. -/
theorem followedBy {next : Nat → α → Rule β} (h : Rule.Steady r)
    (hnext : ∀ i v, Rule.Steady (next i v)) : Rule.Steady (r.followedBy next) where
  agrees {strict lax s s'} hr hs := by
    have hle := h.forward strict s
    unfold Rule.followedBy
    rcases h.agrees hr hs with ⟨t', he, ht⟩ | ⟨hl, fault, t, he, ht⟩
    · cases hrun : r strict s with
      | mk outcome t =>
        rw [hrun] at he ht hle
        rw [he]
        cases outcome with
        | consumedOk v | emptyOk v =>
          dsimp only
          rw [hs]
          rcases (hnext s.position v).agrees hr ht with hsame | ⟨hl, fault, u, he', hu⟩
          · exact .inl hsame
          · exact .inr ⟨hl, fault, u, he', Nat.le_trans (Nat.succ_le_succ hle) hu⟩
        | consumedErr fault | emptyErr expected position => exact .inl ⟨t', rfl, ht⟩
    · rw [he]
      exact .inr ⟨hl, fault, t, rfl, ht⟩
  forward scope s := by
    have hle := h.forward scope s
    unfold Rule.followedBy
    cases hrun : r scope s with
    | mk outcome t =>
      rw [hrun] at hle
      cases outcome with
      | consumedOk v | emptyOk v =>
        exact Nat.le_trans hle ((hnext s.position v).forward scope t)
      | consumedErr fault | emptyErr expected position => exact hle

/-- As a parser, a rule that fails further on does so after a token. -/
theorem finish {construct : Option Construct} (h : Rule.Steady r) :
    (r.finishIn construct).Steady 1 where
  agrees {strict lax s s'} hr hs := by
    unfold Rule.finishIn
    rcases h.agrees hr hs with ⟨t', he, ht⟩ | ⟨hl, fault, t, he, ht⟩
    · cases hrun : r strict s with
      | mk outcome t =>
        rw [hrun] at he ht
        rw [he]
        cases outcome <;> exact .inl (by simp only [Parser.told, ht])
    · rw [he]
      exact .inr ⟨hl, fault, t, rfl, ht⟩
  forward scope s := by
    have hle := h.forward scope s
    unfold Rule.finishIn
    cases hrun : r scope s with
    | mk outcome t =>
      rw [hrun] at hle
      cases outcome <;> exact hle

/-- A rule that comes to another at some positions, and fails at once at all others. -/
theorem guard {q : Rule α} (h : Rule.Steady r) (test : Lexemes → Nat → Bool)
    (expected : TokenSet) (change : Nat → Trail → Trail)
    (hq : ∀ scope s, q scope s =
      if test scope.lexemes s.position = true then r scope s
      else (.emptyErr expected s.position,
        { s with trail := change s.position s.trail })) : Rule.Steady q where
  agrees {strict lax s s'} hr hs := by
    rw [hq, hq, hr.lexemes, hs]
    split
    · exact h.agrees hr hs
    · exact .inl ⟨_, rfl, rfl⟩
  forward scope s := by
    rw [hq]
    split
    · exact h.forward scope s
    · exact Nat.le_refl _

/-- A token that has to stand first is the same for both. -/
theorem opening {k : Kind} (h : Rule.Steady r) : Rule.Steady (Rule.opening k r) :=
  h.guard (fun lexemes i => lexemes.kindAt i == k) (TokenSet.single k)
    (fun i trail => trail.addToken i k) fun scope s => by
      simp only [Rule.opening, beq_iff_eq]

/-- So is a test of the tokens ahead. -/
theorem provided {test : Lexemes → Nat → Bool} (h : Rule.Steady r) :
    Rule.Steady (r.provided test) :=
  h.guard test ∅ (fun _ trail => trail) fun _ _ => rfl

/-- So is a token out of several. -/
theorem oneOf {kinds : List Kind} (h : Rule.Steady r) : Rule.Steady (Rule.oneOf kinds r) :=
  h.guard (fun lexemes i => kinds.contains (lexemes.kindAt i)) (TokenSet.ofList kinds)
    (fun i trail => kinds.foldl (fun trail k => trail.addToken i k) trail) fun _ _ => rfl

/-- Which rule is run is decided by a token. -/
theorem select {choose : Kind → Option (Parser α)}
    (h : ∀ k p, choose k = some p → p.Steady 1) : Rule.Steady (Rule.select choose) where
  agrees {strict lax s s'} hr hs := by
    unfold Rule.select
    rw [hr.lexemes, hs]
    cases hc : choose (strict.lexemes.kindAt s.position) with
    | some p => exact (ofParser (h _ p hc)).agrees hr hs
    | none => exact .inl ⟨_, rfl, hs⟩
  forward scope s := by
    unfold Rule.select
    cases hc : choose (scope.lexemes.kindAt s.position) with
    | some p => exact (ofParser (h _ p hc)).forward scope s
    | none => exact Nat.le_refl _

/-- What a rule gives may be changed afterwards. -/
theorem map {f : α → β} (h : Rule.Steady r) : Rule.Steady (r.map f) where
  agrees {strict lax s s'} hr hs := by
    unfold Rule.map
    rcases h.agrees hr hs with ⟨t', he, ht⟩ | ⟨hl, fault, t, he, ht⟩
    · rw [he]
      exact .inl ⟨t', rfl, ht⟩
    · rw [he]
      exact .inr ⟨hl, fault, t, rfl, ht⟩
  forward scope s := h.forward scope s

theorem within {construct : Construct} (h : Rule.Steady r) :
    Rule.Steady (r.within construct) where
  agrees {strict lax s s'} hr hs := by
    unfold Rule.within
    rcases h.agrees hr hs with ⟨t', he, ht⟩ | ⟨hl, fault, t, he, ht⟩
    · rw [he]
      exact .inl ⟨t', rfl, ht⟩
    · rw [he]
      exact .inr ⟨hl, fault.within construct, t, rfl, ht⟩
  forward scope s := h.forward scope s

theorem named {name : RuleName} (h : Rule.Steady r) : Rule.Steady (r.named name) where
  agrees {strict lax s s'} hr hs := by
    unfold Rule.named
    rcases h.agrees hr hs with ⟨t', he, ht⟩ | ⟨hl, fault, t, he, ht⟩
    · cases hrun : r strict s with
      | mk outcome t =>
        rw [hrun] at he ht
        rw [he]
        cases outcome <;> exact .inl ⟨_, rfl, ht⟩
    · rw [he]
      exact .inr ⟨hl, fault, t, rfl, ht⟩
  forward scope s := by
    have hle := h.forward scope s
    unfold Rule.named
    cases hrun : r scope s with
    | mk outcome t =>
      rw [hrun] at hle
      cases outcome <;> exact hle

/-! ### Choice -/

/-- In an attempt nothing is tolerated, so the runs tell the same. -/
theorem attempt_agrees (h : Rule.Steady r) {strict lax : Scope} {s s' : ParseState}
    (hr : Relaxes strict lax) (hs : s'.position = s.position) :
    ∃ t', r.attempt lax s' = ((r.attempt strict s).1, t') ∧
      t'.position = (r.attempt strict s).2.position := by
  unfold Rule.attempt
  rcases h.agrees hr.speculative hs with ⟨t', he, ht⟩ | ⟨⟨_, _, hl⟩, _⟩
  · cases hrun : r { strict with speculative := true } s with
    | mk outcome t =>
      rw [hrun] at he ht
      rw [he]
      cases outcome with
      | consumedOk v | emptyOk v => exact ⟨_, rfl, ht⟩
      | consumedErr fault | emptyErr expected position => rw [hs]; exact ⟨_, rfl, rfl⟩
  · cases hl

/-- An attempt is made under a scope that tolerates nothing, so both runs of it agree. -/
theorem attempt (h : Rule.Steady r) : Rule.Steady r.attempt where
  agrees hr hs := .inl (h.attempt_agrees hr hs)
  forward scope s := by
    have hle := h.forward { scope with speculative := true } s
    unfold Rule.attempt
    cases hrun : r { scope with speculative := true } s with
    | mk outcome t =>
      rw [hrun] at hle
      cases outcome with
      | consumedOk v | emptyOk v => exact hle
      | consumedErr fault | emptyErr expected position => exact Nat.le_refl _

theorem none : Rule.Steady (Rule.firstOf ([] : List (Rule α))) where
  agrees _ hs := .inl ⟨_, by simp only [Rule.firstOf, hs], hs⟩
  forward _ _ := Nat.le_refl _

/-- A choice hides no failure: if the strict run fails further on in one rule the others are not
tried. -/
theorem orElse {rs : List (Rule α)} (h : Rule.Steady r) (hrs : Rule.Steady (Rule.firstOf rs)) :
    Rule.Steady (Rule.firstOf (r :: rs)) where
  agrees {strict lax s s'} hr hs := by
    unfold Rule.firstOf
    rcases h.agrees hr hs with ⟨t', he, ht⟩ | ⟨hl, fault, t, he, ht⟩
    · cases hrun : r strict s with
      | mk outcome t =>
        rw [hrun] at he ht
        rw [he]
        cases outcome with
        | consumedOk v | emptyOk v | consumedErr fault => exact .inl ⟨_, rfl, ht⟩
        | emptyErr expected position =>
          -- both runs go on to the other rules, from where they began
          dsimp only
          have back : ({ t' with position := s'.position } : ParseState).position =
            ({ t with position := s.position } : ParseState).position := hs
          rcases hrs.agrees hr back with ⟨u', he', hu⟩ | ⟨hl, fault, u, he', hu⟩
          · rw [he']
            cases hrun' : Rule.firstOf rs strict { t with position := s.position } with
            | mk outcome u =>
              rw [hrun'] at hu
              cases outcome <;> exact .inl ⟨_, rfl, hu⟩
          · rw [he']
            exact .inr ⟨hl, fault, u, rfl, hu⟩
    · rw [he]
      exact .inr ⟨hl, fault, t, rfl, ht⟩
  forward scope s := by
    have hle := h.forward scope s
    unfold Rule.firstOf
    cases hrun : r scope s with
    | mk outcome t =>
      rw [hrun] at hle
      cases outcome with
      | consumedOk v | emptyOk v | consumedErr fault => exact hle
      | emptyErr expected position =>
        have hle' := hrs.forward scope { t with position := s.position }
        dsimp only
        cases hrun' : Rule.firstOf rs scope { t with position := s.position } with
        | mk outcome u =>
          rw [hrun'] at hle'
          cases outcome <;> exact hle'

/-- What a run tells does not depend on the failures that were on record before. -/
theorem outcome_eq (h : Rule.Steady r) {scope : Scope} {s s' : ParseState}
    (hs : s'.position = s.position) :
    ∃ t', r scope s' = ((r scope s).1, t') ∧ t'.position = (r scope s).2.position := by
  rcases h.agrees (.refl scope) hs with he | ⟨⟨hstrict, hlax, -⟩, -⟩
  · exact he
  · rw [hstrict] at hlax
    cases hlax

end Rule.Steady

namespace Rule

variable {α : Type} {scope : Scope} {i j : Nat} {r : Rule α} {v : α}

/-- What a steady rule gives, it reads whatever is on record. -/
theorem Gives.reads (h : r.Gives scope i v j) (hr : r.Steady) : r.Reads scope i v j := by
  obtain ⟨s, rfl, hvalue, rfl⟩ := h
  intro trail
  have hsame : (⟨s.position, trail⟩ : ParseState).position = s.position := rfl
  obtain ⟨t, hrun, ht⟩ := hr.outcome_eq hsame
  exact ⟨_, t.trail, by rw [hrun, ← ht], hvalue⟩

/-- Where a steady rule missed, it misses whatever is on record. -/
theorem Missed.misses (h : r.Missed scope i) (hr : r.Steady) : r.Misses scope i := by
  obtain ⟨s, rfl, hmissed⟩ := h
  intro trail
  have hsame : (⟨s.position, trail⟩ : ParseState).position = s.position := rfl
  obtain ⟨t, hrun, -⟩ := hr.outcome_eq hsame
  rw [hrun]
  cases hr : (r scope s).1 with
  | emptyErr expected position => exact ⟨expected, position, t, rfl⟩
  | _ =>
    rw [hr] at hmissed
    cases hmissed

end Rule

end SolidityParser
