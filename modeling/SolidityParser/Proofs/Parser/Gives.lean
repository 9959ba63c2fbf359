import SolidityParser.Proofs.Parser.Ensures
import SolidityParser.Proofs.Parser.Reads

/-!
# What a run has read

`Parser.Gives scope i p v j` says that some run of `p` succeeds at `i` with `v` and ends at `j`. The
lemmas here take such a run apart, primitive by primitive and combinator by combinator, as those of
`Parser.Reads` put one together. A loop is taken apart by an invariant (`Gives.iterate`) or into the
list of what its rounds gave (`Collected`, `Separated`).
-/

namespace SolidityParser

variable {α β : Type} {scope : Scope} {i j k : Nat}

/-- With some failures on record before, the parser gives `v` at `i` and ends at `j`. -/
def Parser.Gives (scope : Scope) (i : Nat) (p : Parser α) (v : α) (j : Nat) : Prop :=
  ∃ s t, p scope s = .ok v t ∧ s.position = i ∧ t.position = j

namespace Parser.Gives

variable {p q : Parser α} {v : α} {f : α → Parser β} {w : β} {expected : Kind}

/-- A run that succeeds has read what it gives. -/
theorem of_run {s t : ParseState} (h : p scope s = .ok v t) :
    p.Gives scope s.position v t.position :=
  ⟨s, t, h, rfl, rfl⟩

/-- What a parser reads, it gives. -/
theorem of_reads (h : p.Reads scope i v j) : p.Gives scope i v j := by
  obtain ⟨trail, hrun⟩ := h {}
  exact of_run hrun

/-- What a parser gives, it does not fail to give. -/
theorem not_fails (h : p.Gives scope i v j) (hfails : p.Fails scope i) : False := by
  obtain ⟨s, t, hrun, rfl, -⟩ := h
  obtain ⟨fault, u, hfail⟩ := hfails s.trail
  cases hrun.symm.trans hfail

/-- What a parser gives is what it reads. -/
theorem eq_of_reads {u : α} (h : p.Gives scope i v j) (hreads : p.Reads scope i u k) :
    v = u ∧ j = k := by
  obtain ⟨s, t, hrun, rfl, rfl⟩ := h
  obtain ⟨trail, hrun'⟩ := hreads s.trail
  cases hrun.symm.trans hrun'
  exact ⟨rfl, rfl⟩

/-! ### Compositions -/

protected theorem pure {u : α} (h : (pure v : Parser α).Gives scope i u j) : u = v ∧ j = i := by
  obtain ⟨s, t, hrun, rfl, rfl⟩ := h
  cases hrun
  exact ⟨rfl, rfl⟩

protected theorem fail (h : (Parser.fail : Parser α).Gives scope i v j) : False := by
  obtain ⟨s, t, hrun, -, -⟩ := h
  cases hrun

/-- Of a composition both parts have read, the second from where the first ended. -/
protected theorem bind (h : (p >>= f).Gives scope i w k) :
    ∃ v j, p.Gives scope i v j ∧ (f v).Gives scope j w k := by
  obtain ⟨s, u, hrun, rfl, rfl⟩ := h
  obtain ⟨v, t, hfirst, hrest⟩ := bind_eq_ok hrun
  exact ⟨v, t.position, of_run hfirst, of_run hrest⟩

/-- What was given is the image of what was read. -/
protected theorem map {g : α → β} (h : (g <$> p).Gives scope i w k) :
    ∃ v, p.Gives scope i v k ∧ w = g v := by
  rw [← bind_pure_comp] at h
  obtain ⟨v, j, hfirst, hrest⟩ := h.bind
  obtain ⟨rfl, rfl⟩ := hrest.pure
  exact ⟨v, hfirst, rfl⟩

/-! ### Primitives, and what follows them

Primitives mostly stand at the front of a composition; each lemma says what is left to be read after
one. A test leaves two cases, with what it has shown in each.
-/

theorem position {f : Nat → Parser β} (h : (Parser.position >>= f).Gives scope i w k) :
    (f i).Gives scope i w k := by
  obtain ⟨s, t, hrun, rfl, rfl⟩ := h
  exact of_run hrun

theorem kind {f : Kind → Parser β} (h : (Parser.kind >>= f).Gives scope i w k) :
    (f (scope.lexemes.kindAt i)).Gives scope i w k := by
  obtain ⟨s, t, hrun, rfl, rfl⟩ := h
  exact of_run hrun

theorem kindAhead {n : Nat} {f : Kind → Parser β}
    (h : (Parser.kindAhead n >>= f).Gives scope i w k) :
    (f (scope.lexemes.kindAt (i + n))).Gives scope i w k := by
  obtain ⟨s, t, hrun, rfl, rfl⟩ := h
  exact of_run hrun

theorem text {f : String → Parser β} (h : (Parser.text >>= f).Gives scope i w k) :
    (f (scope.lexemes.textAt i)).Gives scope i w k := by
  obtain ⟨s, t, hrun, rfl, rfl⟩ := h
  exact of_run hrun

theorem isWord {word : String} {f : Bool → Parser β}
    (h : (Parser.isWord word >>= f).Gives scope i w k) :
    (f (scope.lexemes.isWordAt i word)).Gives scope i w k := by
  obtain ⟨s, t, hrun, rfl, rfl⟩ := h
  exact of_run hrun

theorem extentFrom {first : Nat} {f : Extent → Parser β}
    (h : (Parser.extentFrom first >>= f).Gives scope i w k) :
    (f ⟨first, i⟩).Gives scope i w k := by
  obtain ⟨s, t, hrun, rfl, rfl⟩ := h
  exact of_run hrun

theorem reportToken {f : Unit → Parser β} {reported : Kind}
    (h : (Parser.reportToken reported >>= f).Gives scope i w k) : (f ()).Gives scope i w k := by
  obtain ⟨s, t, hrun, rfl, rfl⟩ := h
  exact of_run (s := { s with trail := s.trail.addToken s.position reported }) hrun

theorem advance {f : Unit → Parser β} (h : (Parser.advance >>= f).Gives scope i w k)
    (hi : scope.lexemes.kindAt i ≠ .eof) : (f ()).Gives scope (i + 1) w k := by
  obtain ⟨s, t, hrun, rfl, rfl⟩ := h
  rw [bind_of_ok (advance_run hi)] at hrun
  exact of_run (s := { s with position := s.position + 1 }) hrun

/-- A token that is expected was there. -/
theorem expect {f : Unit → Parser β} (h : (Parser.expect expected >>= f).Gives scope i w k)
    (hk : expected ≠ .eof) :
    scope.lexemes.kindAt i = expected ∧ (f ()).Gives scope (i + 1) w k := by
  obtain ⟨v, j, ⟨s, t, hrun, rfl, rfl⟩, hrest⟩ := h.bind
  obtain ⟨hkind, rfl⟩ := expect_eq_ok hk hrun
  exact ⟨hkind, hrest⟩

theorem expectIdent {f : Identifier Extent → Parser β}
    (h : (Parser.expectIdent >>= f).Gives scope i w k) :
    scope.lexemes.kindAt i = .ident ∧
      (f ⟨Extent.single i, scope.lexemes.textAt i⟩).Gives scope (i + 1) w k := by
  unfold Parser.expectIdent at h
  simp only [bind_assoc, pure_bind] at h
  obtain ⟨hkind, h⟩ := h.position.text.expect (by decide)
  exact ⟨hkind, h⟩

/-- The same, where the token stays. -/
theorem check {f : Bool → Parser β} (h : (Parser.check expected >>= f).Gives scope i w k) :
    scope.lexemes.kindAt i = expected ∧ (f true).Gives scope i w k ∨
      scope.lexemes.kindAt i ≠ expected ∧ (f false).Gives scope i w k := by
  obtain ⟨v, j, ⟨s, t, hrun, rfl, rfl⟩, hrest⟩ := h.bind
  rw [check_run] at hrun
  split at hrun
  · next hk =>
    cases hrun
    exact .inl ⟨hk, hrest⟩
  · next hk =>
    cases hrun
    exact .inr ⟨hk, hrest⟩

/-- A token was taken, or another stands there and nothing was. -/
theorem eat {f : Bool → Parser β} (h : (Parser.eat expected >>= f).Gives scope i w k)
    (hk : expected ≠ .eof) :
    scope.lexemes.kindAt i = expected ∧ (f true).Gives scope (i + 1) w k ∨
      scope.lexemes.kindAt i ≠ expected ∧ (f false).Gives scope i w k := by
  obtain ⟨v, j, ⟨s, t, hrun, rfl, rfl⟩, hrest⟩ := h.bind
  by_cases hi : scope.lexemes.kindAt s.position = expected
  · rw [eat_hit hk hi] at hrun
    cases hrun
    exact .inl ⟨hi, hrest⟩
  · rw [eat_miss hi] at hrun
    cases hrun
    exact .inr ⟨hi, hrest⟩

/-- Which of two parsers ran tells whether the token was there. -/
theorem eatIf {q : Parser α}
    (h : (Parser.eat expected >>= fun found => if found = true then p else q).Gives scope i v k)
    (hk : expected ≠ .eof) :
    scope.lexemes.kindAt i = expected ∧ p.Gives scope (i + 1) v k ∨
      scope.lexemes.kindAt i ≠ expected ∧ q.Gives scope i v k := by
  rcases h.eat hk with ⟨hi, h⟩ | ⟨hi, h⟩
  · exact .inl ⟨hi, by rwa [if_pos rfl] at h⟩
  · exact .inr ⟨hi, by rwa [if_neg Bool.false_ne_true] at h⟩

/-- Which of two parsers ran tells whether the token is of the kind. -/
theorem kindIf {q : Parser α}
    (h : (Parser.kind >>= fun here => if here = expected then p else q).Gives scope i v k) :
    scope.lexemes.kindAt i = expected ∧ p.Gives scope i v k ∨
      scope.lexemes.kindAt i ≠ expected ∧ q.Gives scope i v k := by
  replace h := h.kind
  split at h
  · next hi => exact .inl ⟨hi, h⟩
  · next hi => exact .inr ⟨hi, h⟩

/-- Whichever of two parsers runs, the rest is the same. -/
theorem eatBind {q : Parser α}
    (h : (Parser.eat expected >>= fun found =>
      if found = true then p >>= f else q >>= f).Gives scope i w k) :
    ∃ v j, (Parser.eat expected >>= fun found => if found = true then p else q).Gives scope i v j ∧
      (f v).Gives scope j w k := by
  refine Parser.Gives.bind (p := Parser.eat expected >>= _) ?_
  have hrest : (fun found => (if found = true then p else q) >>= f) =
      fun found => if found = true then p >>= f else q >>= f := by
    funext found
    split <;> rfl
  rwa [bind_assoc, hrest]

/-- Whichever of two parsers runs, the rest is the same. -/
theorem kindBind {q : Parser α}
    (h : (Parser.kind >>= fun here =>
      if here = expected then p >>= f else q >>= f).Gives scope i w k) :
    ∃ v j, (Parser.kind >>= fun here => if here = expected then p else q).Gives scope i v j ∧
      (f v).Gives scope j w k := by
  refine Parser.Gives.bind (p := Parser.kind >>= _) ?_
  have hrest : (fun here => (if here = expected then p else q) >>= f) =
      fun here => if here = expected then p >>= f else q >>= f := by
    funext here
    split <;> rfl
  rwa [bind_assoc, hrest]

/-- A name was taken, or there is none. -/
theorem eatIdent {f : Option String → Parser β}
    (h : (Parser.eatIdent >>= f).Gives scope i w k) :
    scope.lexemes.kindAt i = .ident ∧
        (f (some (scope.lexemes.textAt i))).Gives scope (i + 1) w k ∨
      scope.lexemes.kindAt i ≠ .ident ∧ (f none).Gives scope i w k := by
  obtain ⟨v, j, hfirst, hrest⟩ := h.bind
  rcases hfirst.text.eatIf (by decide) with ⟨hi, hv⟩ | ⟨hi, hv⟩
  · obtain ⟨rfl, rfl⟩ := hv.pure
    exact .inl ⟨hi, hrest⟩
  · obtain ⟨rfl, rfl⟩ := hv.pure
    exact .inr ⟨hi, hrest⟩

/-- So it is with a word. -/
theorem eatWord {word : String} {f : Bool → Parser β}
    (h : (Parser.eatWord word >>= f).Gives scope i w k) :
    scope.lexemes.isWordAt i word = true ∧ (f true).Gives scope (i + 1) w k ∨
      scope.lexemes.isWordAt i word = false ∧ (f false).Gives scope i w k := by
  obtain ⟨v, j, hfirst, hrest⟩ := h.bind
  replace hfirst := hfirst.isWord
  split at hfirst
  · next hi =>
    have hne : scope.lexemes.kindAt i ≠ .eof := by
      rw [Lexemes.kindAt_of_isWordAt hi]
      decide
    obtain ⟨rfl, rfl⟩ := (hfirst.advance hne).pure
    exact .inl ⟨hi, hrest⟩
  · next hi =>
    obtain ⟨rfl, rfl⟩ := hfirst.pure
    exact .inr ⟨by simpa using hi, hrest⟩

/-- A word that is expected was there. -/
theorem expectWord {word : String} {f : Unit → Parser β}
    (h : (Parser.expectWord word >>= f).Gives scope i w k) :
    scope.lexemes.isWordAt i word = true ∧ (f ()).Gives scope (i + 1) w k := by
  obtain ⟨v, j, hfirst, hrest⟩ := h.bind
  replace hfirst := hfirst.isWord
  split at hfirst
  · next hi =>
    have hne : scope.lexemes.kindAt i ≠ .eof := by
      rw [Lexemes.kindAt_of_isWordAt hi]
      decide
    obtain ⟨s, t, hrun, rfl, rfl⟩ := hfirst
    rw [advance_run hne] at hrun
    cases hrun
    exact ⟨hi, hrest⟩
  · exact hfirst.reportToken.fail.elim

/-! ### Wrappers

What only words failures differently, or changes the scope, reads what is inside it.
-/

theorem within {construct : Construct} (h : (p.within construct).Gives scope i v j) :
    p.Gives scope i v j := by
  obtain ⟨s, t, hrun, rfl, rfl⟩ := h
  unfold Parser.within at hrun
  split at hrun <;> cases hrun
  exact of_run ‹_›

theorem named {rule : RuleName} (h : (p.named rule).Gives scope i v j) : p.Gives scope i v j := by
  obtain ⟨s, t, hrun, rfl, rfl⟩ := h
  unfold Parser.named at hrun
  split at hrun <;> cases hrun
  exact of_run ‹_›

theorem inBody (h : p.inBody.Gives scope i v j) : p.Gives { scope with inBody := true } i v j := h

theorem finish {r : Rule α} {construct : Option Construct}
    (h : (r.finishIn construct).Gives scope i v j) : r.Gives scope i v j := by
  obtain ⟨s, t, hrun, rfl, rfl⟩ := h
  exact .of_finish hrun

/-! ### Loops -/

/-- A loop keeps what every round keeps, and ends where a round gives nothing more. -/
theorem iterate {P : β → Nat → Prop} {step : β → Parser (Option β)} {value : β}
    (h : (Parser.iterate step value).Gives scope i w k) (start : P value i)
    (keeps : ∀ v i w j, P v i → (step v).Gives scope i (some w) j → P w j) :
    ∃ j, P w j ∧ (step w).Gives scope j none k := by
  obtain ⟨s, t, hrun, rfl, rfl⟩ := h
  have loop : ∀ fuel value i, P value i →
      (iterateAtFuel step fuel value).Gives scope i w t.position →
      ∃ j, P w j ∧ (step w).Gives scope j none t.position := by
    intro fuel
    induction fuel with
    | zero => exact fun value i _ h => h.fail.elim
    | succ fuel ih =>
      intro value i hP h
      obtain ⟨next, j, hstep, hrest⟩ := Parser.Gives.bind h
      cases next with
      | none =>
        obtain ⟨rfl, rfl⟩ := hrest.pure
        exact ⟨i, hP, hstep⟩
      | some next => exact ih next j (keeps value i next j hP hstep) hrest
  exact loop _ value s.position start (of_run hrun)

end Parser.Gives

/-- What the rounds of a loop gave, until one gave nothing. -/
inductive Collected (scope : Scope) (step : Parser (Option α)) : Nat → List α → Nat → Prop
  | nil {i j : Nat} (last : step.Gives scope i none j) : Collected scope step i [] j
  | cons {i j k : Nat} {v : α} {vs : List α} (first : step.Gives scope i (some v) j)
      (rest : Collected scope step j vs k) : Collected scope step i (v :: vs) k

/-- Items with commas between. -/
inductive Separated (scope : Scope) (item : Parser α) : Nat → List α → Nat → Prop
  | last {i j : Nat} {v : α} (only : item.Gives scope i v j)
      (noComma : scope.lexemes.kindAt j ≠ .comma) : Separated scope item i [v] j
  | more {i j k : Nat} {v : α} {vs : List α} (first : item.Gives scope i v j)
      (comma : scope.lexemes.kindAt j = .comma) (rest : Separated scope item (j + 1) vs k) :
      Separated scope item i (v :: vs) k

namespace Parser.Gives

/-- A loop has read a row of rounds, up to one that gives nothing. -/
theorem collect {step : Parser (Option α)} {vs : List α}
    (h : (Parser.collect step).Gives scope i vs k) : Collected scope step i vs k := by
  obtain ⟨s, t, hrun, rfl, rfl⟩ := h
  have loop : ∀ fuel vs i, (collectAtFuel step fuel).Gives scope i vs t.position →
      Collected scope step i vs t.position := by
    intro fuel
    induction fuel with
    | zero => exact fun vs i h => h.fail.elim
    | succ fuel ih =>
      intro vs i h
      obtain ⟨next, j, hstep, hrest⟩ := Parser.Gives.bind h
      cases next with
      | none =>
        obtain ⟨rfl, rfl⟩ := hrest.pure
        exact .nil hstep
      | some v =>
        obtain ⟨vs, _, hloop, hlast⟩ := Parser.Gives.bind hrest
        obtain ⟨rfl, rfl⟩ := hlast.pure
        exact .cons hstep (ih vs j hloop)
  exact loop _ vs s.position (of_run hrun)

/-- Items with commas between them were read one by one. -/
theorem separated {item : Parser α} {vs : List α}
    (h : (Parser.separated item).Gives scope i vs k) : Separated scope item i vs k := by
  obtain ⟨s, t, hrun, rfl, rfl⟩ := h
  have loop : ∀ fuel vs i, (separatedAtFuel item fuel).Gives scope i vs t.position →
      Separated scope item i vs t.position := by
    intro fuel
    induction fuel with
    | zero => exact fun vs i h => h.fail.elim
    | succ fuel ih =>
      intro vs i h
      obtain ⟨v, j, hitem, hrest⟩ := Parser.Gives.bind h
      rcases hrest.eatIf (by decide) with ⟨hcomma, hrest⟩ | ⟨hcomma, hrest⟩
      · obtain ⟨vs, _, hloop, hlast⟩ := Parser.Gives.bind hrest
        obtain ⟨rfl, rfl⟩ := hlast.pure
        exact .more hitem hcomma (ih vs (j + 1) hloop)
      · obtain ⟨rfl, rfl⟩ := hrest.pure
        exact .last hitem hcomma
  exact loop _ vs s.position (of_run hrun)

/-- A series ends with its closing token; it holds no items, or items with commas between. -/
theorem series {close : Kind} {item : Parser α} {vs : List α} (hclose : close ≠ .eof)
    (h : (Parser.series close item).Gives scope i vs k) :
    scope.lexemes.kindAt i = close ∧ vs = [] ∧ k = i + 1 ∨
      scope.lexemes.kindAt i ≠ close ∧ ∃ j, Separated scope item i vs j ∧
        scope.lexemes.kindAt j = close ∧ k = j + 1 := by
  rcases h.eatIf hclose with ⟨hi, h⟩ | ⟨hi, h⟩
  · obtain ⟨rfl, rfl⟩ := h.pure
    exact .inl ⟨hi, rfl, rfl⟩
  · obtain ⟨items, j, hitems, h⟩ := h.bind
    obtain ⟨hj, h⟩ := h.expect hclose
    obtain ⟨rfl, rfl⟩ := h.pure
    exact .inr ⟨hi, j, hitems.separated, hj, rfl⟩

end Parser.Gives

/-! ### Rules

A rule has read what the parser has that it is made from, and its test was met.
-/

namespace Rule.Gives

variable {r : Rule α} {v : α} {p : Parser α}

/-- What a parser reads as a rule it reads by itself. -/
theorem ofParser (h : (Rule.ofParser p).Gives scope i v j) : p.Gives scope i v j := by
  obtain ⟨s, rfl, hvalue, rfl⟩ := h
  unfold Rule.ofParser at hvalue ⊢
  cases hrun : p scope s with
  | ok w t =>
    rw [hrun] at hvalue
    have hw : w = v := by
      dsimp only at hvalue
      split at hvalue <;> cases hvalue <;> rfl
    subst hw
    exact .of_run hrun
  | error fault t =>
    rw [hrun] at hvalue
    dsimp only at hvalue
    split at hvalue <;> cases hvalue

/-- So does one that its first token decides. -/
theorem decided (h : (Rule.decided p).Gives scope i v j) : p.Gives scope i v j := by
  obtain ⟨s, rfl, hvalue, rfl⟩ := h
  unfold Rule.decided at hvalue ⊢
  cases hrun : p scope s with
  | ok w t =>
    rw [hrun] at hvalue
    cases hvalue
    exact .of_run hrun
  | error fault t =>
    rw [hrun] at hvalue
    cases hvalue

/-- The token was taken first. -/
theorem taking {p : Nat → String → Parser α} (hi : scope.lexemes.kindAt i ≠ .eof)
    (h : (Rule.taking p).Gives scope i v j) :
    (p i (scope.lexemes.textAt i)).Gives scope (i + 1) v j := by
  obtain ⟨s, rfl, hvalue⟩ := h
  have htaken : (Rule.decided (Parser.advance >>= fun _ =>
      p s.position (scope.lexemes.textAt s.position))).Gives scope s.position v j :=
    ⟨s, rfl, hvalue⟩
  exact htaken.decided.advance hi

/-- The token that has to stand first did. -/
theorem opening {expected : Kind} (h : (Rule.opening expected r).Gives scope i v j) :
    scope.lexemes.kindAt i = expected ∧ r.Gives scope i v j := by
  obtain ⟨s, rfl, hvalue, rfl⟩ := h
  unfold Rule.opening at hvalue ⊢
  split at hvalue
  · next hk =>
    rw [if_pos hk]
    exact ⟨hk, s, rfl, hvalue, rfl⟩
  · cases hvalue

/-- Both rules give something, the second from where the first ended. -/
theorem followedBy {next : Nat → α → Rule β} {w : β} {k : Nat}
    (h : (r.followedBy next).Gives scope i w k) :
    ∃ v j, r.Gives scope i v j ∧ (next i v).Gives scope j w k := by
  obtain ⟨s, rfl, hvalue, rfl⟩ := h
  unfold Rule.followedBy at hvalue ⊢
  cases hr : r scope s with
  | mk outcome t =>
    rw [hr] at hvalue
    have hfirst (v : α) (hv : outcome.value? = some v) : r.Gives scope s.position v t.position :=
      ⟨s, rfl, by rw [hr]; exact ⟨hv, rfl⟩⟩
    cases outcome with
    | consumedOk v | emptyOk v => exact ⟨v, t.position, hfirst v rfl, t, rfl, hvalue, rfl⟩
    | consumedErr fault | emptyErr expected position => cases hvalue

/-- The test that has to be met was. -/
theorem provided {test : Lexemes → Nat → Bool} (h : (r.provided test).Gives scope i v j) :
    test scope.lexemes i = true ∧ r.Gives scope i v j := by
  obtain ⟨s, rfl, hvalue, rfl⟩ := h
  unfold Rule.provided at hvalue ⊢
  split at hvalue
  · next ht =>
    rw [if_pos ht]
    exact ⟨ht, s, rfl, hvalue, rfl⟩
  · cases hvalue

/-- The next token has chosen what was read. -/
theorem select {choose : Kind → Option (Parser α)}
    (h : (Rule.select choose).Gives scope i v j) :
    ∃ p, choose (scope.lexemes.kindAt i) = some p ∧ p.Gives scope i v j := by
  obtain ⟨s, rfl, hvalue, rfl⟩ := h
  unfold Rule.select at hvalue ⊢
  cases hc : choose (scope.lexemes.kindAt s.position) with
  | some p =>
    rw [hc] at hvalue
    exact ⟨p, rfl, ofParser ⟨s, rfl, hvalue, rfl⟩⟩
  | none =>
    rw [hc] at hvalue
    cases hvalue

/-- The next token was one of several. -/
theorem oneOf {kinds : List Kind} (h : (Rule.oneOf kinds r).Gives scope i v j) :
    kinds.contains (scope.lexemes.kindAt i) = true ∧ r.Gives scope i v j := by
  obtain ⟨s, rfl, hvalue, rfl⟩ := h
  unfold Rule.oneOf at hvalue ⊢
  split at hvalue
  · next ht =>
    rw [if_pos ht]
    exact ⟨ht, s, rfl, hvalue, rfl⟩
  · cases hvalue

theorem within {construct : Construct} (h : (r.within construct).Gives scope i v j) :
    r.Gives scope i v j := by
  obtain ⟨s, rfl, hvalue, rfl⟩ := h
  refine ⟨s, rfl, ?_⟩
  unfold Rule.within at hvalue ⊢
  cases hr : r scope s with
  | mk outcome t =>
    rw [hr] at hvalue
    cases outcome <;> exact ⟨hvalue, rfl⟩

/-- What an attempt reads was read under the scope of attempts. -/
theorem attempt (h : r.attempt.Gives scope i v j) :
    r.Gives { scope with speculative := true } i v j := by
  obtain ⟨s, rfl, hvalue, rfl⟩ := h
  refine ⟨s, rfl, ?_⟩
  unfold Rule.attempt at hvalue ⊢
  cases hr : r { scope with speculative := true } s with
  | mk outcome t =>
    rw [hr] at hvalue
    cases outcome <;> first | exact ⟨hvalue, rfl⟩ | cases hvalue

protected theorem none (h : (Rule.firstOf ([] : List (Rule α))).Gives scope i v j) : False := by
  obtain ⟨s, -, hvalue, -⟩ := h
  cases hvalue

end Rule.Gives

/-! ### Choices -/

namespace Rule

variable {r : Rule α} {v : α}

/-- With some failures on record before, the rule fails at `i` and leaves the choice to others. -/
def Missed (scope : Scope) (i : Nat) (r : Rule α) : Prop :=
  ∃ s, s.position = i ∧ (r scope s).1.failedWithoutProgress = true

/-- What a choice gives, its first rule gives, or else that one missed, and the choice among the
others gives it. -/
theorem Gives.elim {rs : List (Rule α)} (h : (Rule.firstOf (r :: rs)).Gives scope i v j) :
    r.Gives scope i v j ∨ r.Missed scope i ∧ (Rule.firstOf rs).Gives scope i v j := by
  obtain ⟨s, rfl, hvalue, hj⟩ := h
  unfold Rule.firstOf at hvalue hj
  cases hr : r scope s with
  | mk outcome t =>
    rw [hr] at hvalue hj
    cases outcome with
    | consumedOk w | emptyOk w => exact .inl ⟨s, rfl, by rw [hr]; exact ⟨hvalue, hj⟩⟩
    | consumedErr fault => cases hvalue
    | emptyErr expected position =>
      refine .inr ⟨⟨s, rfl, by rw [hr]; rfl⟩, { t with position := s.position }, rfl, ?_⟩
      dsimp only at hvalue hj
      cases hr' : Rule.firstOf rs scope { t with position := s.position } with
      | mk outcome u =>
        rw [hr'] at hvalue hj
        cases outcome <;> exact ⟨hvalue, hj⟩

namespace Missed

/-- A rule that missed does not succeed whatever is on record. -/
theorem not_reads (h : r.Missed scope i) : ¬ r.Reads scope i v j := by
  obtain ⟨s, rfl, hmissed⟩ := h
  intro hreads
  obtain ⟨outcome, trail', hrun, hv⟩ := hreads s.trail
  rw [show (⟨s.position, s.trail⟩ : ParseState) = s from rfl] at hrun
  rw [hrun] at hmissed
  cases outcome <;> cases hmissed
  cases hv

/-- A rule that is tried where a test holds missed because it does not, or missed itself. -/
theorem provided {test : Lexemes → Nat → Bool} (h : (r.provided test).Missed scope i) :
    test scope.lexemes i = false ∨ r.Missed scope i := by
  obtain ⟨s, rfl, hmissed⟩ := h
  unfold Rule.provided at hmissed
  split at hmissed
  · exact .inr ⟨s, rfl, hmissed⟩
  · next ht => exact .inl (by simpa using ht)

/-- A rule that a token decides missed because it is not there, or missed itself. -/
theorem opening {expected : Kind} (h : (Rule.opening expected r).Missed scope i) :
    scope.lexemes.kindAt i ≠ expected ∨ r.Missed scope i := by
  obtain ⟨s, rfl, hmissed⟩ := h
  unfold Rule.opening at hmissed
  split at hmissed
  · exact .inr ⟨s, rfl, hmissed⟩
  · next hk => exact .inl hk

/-- A rule that takes a token misses nowhere. -/
theorem not_taking {p : Nat → String → Parser α} : ¬ (Rule.taking p).Missed scope i := by
  rintro ⟨s, -, hmissed⟩
  unfold Rule.taking Rule.decided at hmissed
  split at hmissed <;> cases hmissed

/-- A miss does not depend on the construct. -/
theorem within {construct : Construct} (h : (r.within construct).Missed scope i) :
    r.Missed scope i := by
  obtain ⟨s, rfl, hmissed⟩ := h
  refine ⟨s, rfl, ?_⟩
  unfold Rule.within at hmissed
  cases hr : r scope s with
  | mk outcome t =>
    rw [hr] at hmissed
    cases outcome <;> first | rfl | cases hmissed

/-- Nor on what is made of a value. -/
theorem of_map {f : α → β} (h : (r.map f).Missed scope i) : r.Missed scope i := by
  obtain ⟨s, rfl, hmissed⟩ := h
  refine ⟨s, rfl, ?_⟩
  unfold Rule.map at hmissed
  cases hr : r scope s with
  | mk outcome t =>
    rw [hr] at hmissed
    cases outcome <;> first | rfl | cases hmissed

end Missed

/-- An attempt that gives nothing leaves the choice open. -/
theorem Misses.attempt {r : Rule α} (h : ∀ v j, ¬ r.attempt.Gives scope i v j) :
    r.attempt.Misses scope i := by
  intro trail
  have hnone (v j) (hvalue : (r.attempt scope ⟨i, trail⟩).1.value? = some v)
      (hj : (r.attempt scope ⟨i, trail⟩).2.position = j) : False :=
    h v j ⟨⟨i, trail⟩, rfl, hvalue, hj⟩
  unfold Rule.attempt at hnone ⊢
  cases hr : r { scope with speculative := true } ⟨i, trail⟩ with
  | mk outcome t =>
    rw [hr] at hnone
    cases outcome with
    | consumedOk w | emptyOk w => exact (hnone w _ rfl rfl).elim
    | consumedErr fault => exact ⟨_, _, _, rfl⟩
    | emptyErr expected position => exact ⟨_, _, _, rfl⟩

/-- A rule that misses gives nothing. -/
theorem Misses.not_gives (h : r.Misses scope i) : ¬ r.Gives scope i v j := by
  rintro ⟨s, rfl, hvalue, -⟩
  obtain ⟨expected, position, t, hrun⟩ := h s.trail
  rw [show (⟨s.position, s.trail⟩ : ParseState) = s from rfl] at hrun
  rw [hrun] at hvalue
  cases hvalue

/-- What a rule reads, it gives. -/
theorem Gives.of_reads (h : r.Reads scope i v j) : r.Gives scope i v j := by
  obtain ⟨outcome, trail, hrun, hvalue⟩ := h {}
  exact ⟨⟨i, {}⟩, rfl, by rw [hrun]; exact ⟨hvalue, rfl⟩⟩

end Rule

end SolidityParser
