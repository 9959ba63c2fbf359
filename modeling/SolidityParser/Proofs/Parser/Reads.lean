import SolidityParser.Proofs.Parser.Basic

/-!
# Runs whatever is on record

`Parser.Reads scope i p v j` says that `p` succeeds at `i` with the value `v` and ends at `j`,
whatever failures are on record before; `Parser.Fails` says that it fails, and `Rule.Misses` that a
rule fails without consuming, which leaves the choice to other rules. One lemma per primitive and
combinator; a rule of the grammar is then run on given tokens by composing them.
-/

namespace SolidityParser

variable {α β : Type} {scope : Scope} {i j k : Nat}

namespace Parser

/-- The parser succeeds at `i` with `v`, and ends at `j`. -/
def Reads (scope : Scope) (i : Nat) (p : Parser α) (v : α) (j : Nat) : Prop :=
  ∀ trail, ∃ trail', p scope ⟨i, trail⟩ = .ok v ⟨j, trail'⟩

/-- The parser fails at `i`. -/
def Fails (scope : Scope) (i : Nat) (p : Parser α) : Prop :=
  ∀ trail, ∃ fault t, p scope ⟨i, trail⟩ = .error fault t

end Parser

namespace Rule

/-- The rule succeeds at `i` with `v`, and ends at `j`. -/
def Reads (scope : Scope) (i : Nat) (r : Rule α) (v : α) (j : Nat) : Prop :=
  ∀ trail, ∃ outcome trail', r scope ⟨i, trail⟩ = (outcome, ⟨j, trail'⟩) ∧ outcome.value? = some v

/-- A rule reads one value, and ends at one place. -/
theorem Reads.unique {r : Rule α} {v w : α} (h : Reads scope i r v j) (h' : Reads scope i r w k) :
    v = w ∧ j = k := by
  obtain ⟨outcome, trail, hrun, hv⟩ := h {}
  obtain ⟨outcome', trail', hrun', hw⟩ := h' {}
  rw [hrun] at hrun'
  cases hrun'
  exact ⟨Option.some.inj (hv.symm.trans hw), rfl⟩

/-- The rule does not succeed at `i`. -/
def Fails (scope : Scope) (i : Nat) (r : Rule α) : Prop :=
  ∀ trail, (r scope ⟨i, trail⟩).1.isOk = false

/-- The rule fails at `i` without consuming. -/
def Misses (scope : Scope) (i : Nat) (r : Rule α) : Prop :=
  ∀ trail, ∃ expected position t, r scope ⟨i, trail⟩ = (.emptyErr expected position, t)

end Rule

/-! ### Reading

One lemma for each primitive, then one for each combinator: what is read by the parts, one after the
other, is read by the whole. Where a combinator tests for a token there is one lemma for either
answer.
-/

namespace Parser.Reads

variable {p q : Parser α} {v w : α} {f : α → Parser β} {u : β} {expected : Kind}

protected theorem pure : Reads scope i (pure v : Parser α) v i := fun trail => ⟨trail, rfl⟩

/-- What is read in two steps is read in one, from where the first begins to where the second
ends. -/
theorem bind (hp : Reads scope i p v j) (hf : Reads scope j (f v) u k) :
    Reads scope i (p >>= f) u k := by
  intro trail
  obtain ⟨trail', hrun⟩ := hp trail
  rw [bind_of_ok hrun]
  exact hf trail'

theorem map {g : α → β} (h : Reads scope i p v j) : Reads scope i (g <$> p) (g v) j := by
  rw [← bind_pure_comp]
  exact h.bind .pure

theorem position : Reads scope i Parser.position i i := fun trail => ⟨trail, rfl⟩

theorem kind : Reads scope i Parser.kind (scope.lexemes.kindAt i) i := fun trail => ⟨trail, rfl⟩

theorem kindAhead {n : Nat} :
    Reads scope i (Parser.kindAhead n) (scope.lexemes.kindAt (i + n)) i := fun trail => ⟨trail, rfl⟩

theorem text : Reads scope i Parser.text (scope.lexemes.textAt i) i := fun trail => ⟨trail, rfl⟩

theorem extentFrom {first : Nat} : Reads scope i (Parser.extentFrom first) ⟨first, i⟩ i :=
  fun trail => ⟨trail, rfl⟩

theorem advance (h : scope.lexemes.kindAt i ≠ .eof) : Reads scope i Parser.advance () (i + 1) :=
  fun trail => ⟨trail, advance_run h⟩

theorem expect (hk : expected ≠ .eof) (h : scope.lexemes.kindAt i = expected) :
    Reads scope i (Parser.expect expected) () (i + 1) :=
  fun trail => ⟨trail, expect_hit hk h⟩

theorem eat (hk : expected ≠ .eof) (h : scope.lexemes.kindAt i = expected) :
    Reads scope i (Parser.eat expected) true (i + 1) :=
  fun trail => ⟨trail, eat_hit hk h⟩

/-- A token that is not there is not eaten. -/
theorem eat_not (h : scope.lexemes.kindAt i ≠ expected) :
    Reads scope i (Parser.eat expected) false i :=
  fun trail => ⟨trail.addToken i expected, eat_miss h⟩

theorem check (h : scope.lexemes.kindAt i = expected) :
    Reads scope i (Parser.check expected) true i :=
  fun trail => ⟨trail, by rw [check_run, if_pos h]⟩

/-- A token that is not there is not found. -/
theorem check_not (h : scope.lexemes.kindAt i ≠ expected) :
    Reads scope i (Parser.check expected) false i :=
  fun trail => ⟨trail.addToken i expected, by rw [check_run, if_neg h]⟩

/-- The token is there, and the first of two parsers runs. -/
theorem eatIf (hk : expected ≠ .eof) (he : scope.lexemes.kindAt i = expected)
    (h : Reads scope (i + 1) p v j) :
    Reads scope i (Parser.eat expected >>= fun found => if found = true then p else q) v j :=
  (eat hk he).bind (by rwa [if_pos rfl])

/-- The token is not there, and the second of two parsers runs. -/
theorem eatElse (he : scope.lexemes.kindAt i ≠ expected) (h : Reads scope i q v j) :
    Reads scope i (Parser.eat expected >>= fun found => if found = true then p else q) v j :=
  (eat_not he).bind (by rwa [if_neg Bool.false_ne_true])

/-- The current token is of the kind, and the first of two parsers runs. -/
theorem kindIf (he : scope.lexemes.kindAt i = expected) (h : Reads scope i p v j) :
    Reads scope i (Parser.kind >>= fun here => if here = expected then p else q) v j :=
  kind.bind (by rwa [if_pos he])

/-- The current token is of another kind, and the second of two parsers runs. -/
theorem kindElse (he : scope.lexemes.kindAt i ≠ expected) (h : Reads scope i q v j) :
    Reads scope i (Parser.kind >>= fun here => if here = expected then p else q) v j :=
  kind.bind (by rwa [if_neg he])

/-- Whichever of two parsers runs, the rest is the same. -/
theorem eatBind (h : Reads scope i
      (Parser.eat expected >>= fun found => if found = true then p else q) v j)
    (hf : Reads scope j (f v) u k) :
    Reads scope i (Parser.eat expected >>= fun found =>
      if found = true then p >>= f else q >>= f) u k := by
  have hrest : (fun found => (if found = true then p else q) >>= f) =
      fun found => if found = true then p >>= f else q >>= f := by
    funext found
    split <;> rfl
  rw [← hrest, ← bind_assoc]
  exact h.bind hf

/-- Whichever of two parsers runs, the rest is the same. -/
theorem kindBind (h : Reads scope i
      (Parser.kind >>= fun here => if here = expected then p else q) v j)
    (hf : Reads scope j (f v) u k) :
    Reads scope i (Parser.kind >>= fun here =>
      if here = expected then p >>= f else q >>= f) u k := by
  have hrest : (fun here => (if here = expected then p else q) >>= f) =
      fun here => if here = expected then p >>= f else q >>= f := by
    funext here
    split <;> rfl
  rw [← hrest, ← bind_assoc]
  exact h.bind hf

theorem within {construct : Construct} (h : Reads scope i p v j) :
    Reads scope i (p.within construct) v j := by
  intro trail
  obtain ⟨trail', hrun⟩ := h trail
  exact ⟨trail', by unfold Parser.within; rw [hrun]⟩

/-- A name for what is tried changes what is on record, and nothing that is read. -/
theorem named {rule : RuleName} (h : Reads scope i p v j) : Reads scope i (p.named rule) v j := by
  intro trail
  obtain ⟨trail', hrun⟩ := h trail
  exact ⟨trail', by unfold Parser.named; rw [hrun]⟩

/-- A rule that reads does so as a parser too. -/
theorem finish {r : Rule α} {construct : Option Construct} (h : r.Reads scope i v j) :
    Reads scope i (r.finishIn construct) v j := by
  intro trail
  obtain ⟨outcome, trail', hrun, hv⟩ := h trail
  refine ⟨trail', ?_⟩
  unfold Rule.finishIn
  rw [hrun]
  cases outcome <;> cases hv <;> rfl

theorem expectIdent (h : scope.lexemes.kindAt i = .ident) :
    Reads scope i Parser.expectIdent ⟨Extent.single i, scope.lexemes.textAt i⟩ (i + 1) :=
  position.bind <| text.bind <| (expect (by decide) h).bind .pure

/-- A loop whose step gives nothing ends at once. -/
theorem iterate_none {step : β → Parser (Option β)} {value : β}
    (h : Reads scope i (step value) none j) : Reads scope i (Parser.iterate step value) value j :=
  have loop : Reads scope i (iterateAtFuel step (scope.lexemes.size - i + 1) value) value j :=
    h.bind .pure
  fun trail => loop trail

/-- A loop whose step gives something once. -/
theorem iterate_some {step : β → Parser (Option β)} {value next : β}
    (h : Reads scope i (step value) (some next) j) (h' : Reads scope j (step next) none k)
    (hi : scope.lexemes.kindAt i ≠ .eof) : Reads scope i (Parser.iterate step value) next k := by
  intro trail
  have hlt := Lexemes.lt_size_of_kindAt hi
  obtain ⟨fuel, hfuel⟩ : ∃ fuel, scope.lexemes.size - i + 1 = fuel + 2 :=
    ⟨scope.lexemes.size - i - 1, by omega⟩
  have hloop : Reads scope i (iterateAtFuel step (fuel + 2) value) next k :=
    h.bind (h'.bind .pure)
  rw [← hfuel] at hloop
  exact hloop trail

end Parser.Reads

namespace Rule.Reads

variable {v : α} {r : Rule α}

theorem ofParser {p : Parser α} (h : p.Reads scope i v j) :
    Rule.Reads scope i (Rule.ofParser p) v j := by
  intro trail
  obtain ⟨trail', hrun⟩ := h trail
  unfold Rule.ofParser
  rw [hrun]
  by_cases hlt : i < j
  · exact ⟨.consumedOk v, trail', by simp only [if_pos hlt], rfl⟩
  · exact ⟨.emptyOk v, trail', by simp only [if_neg hlt], rfl⟩

theorem decided {p : Parser α} (h : p.Reads scope i v j) :
    Rule.Reads scope i (Rule.decided p) v j := by
  intro trail
  obtain ⟨trail', hrun⟩ := h trail
  unfold Rule.decided
  rw [hrun]
  exact ⟨.consumedOk v, trail', rfl, rfl⟩

theorem taking {p : Nat → String → Parser α} (hi : scope.lexemes.kindAt i ≠ .eof)
    (h : (p i (scope.lexemes.textAt i)).Reads scope (i + 1) v j) :
    Rule.Reads scope i (Rule.taking p) v j :=
  fun trail => decided (.bind (.advance hi) h) trail

theorem opening {expected : Kind} (hk : scope.lexemes.kindAt i = expected)
    (h : r.Reads scope i v j) : Rule.Reads scope i (Rule.opening expected r) v j := by
  intro trail
  unfold Rule.opening
  rw [if_pos hk]
  exact h trail

theorem followedBy {next : Nat → α → Rule β} {w : β} {k : Nat} (h : r.Reads scope i v j)
    (hnext : (next i v).Reads scope j w k) :
    Rule.Reads scope i (r.followedBy next) w k := by
  intro trail
  obtain ⟨outcome, trail', hrun, hv⟩ := h trail
  unfold Rule.followedBy
  rw [hrun]
  cases outcome <;> cases hv <;> exact hnext trail'

theorem provided {test : Lexemes → Nat → Bool} (ht : test scope.lexemes i = true)
    (h : r.Reads scope i v j) : Rule.Reads scope i (r.provided test) v j := by
  intro trail
  unfold Rule.provided
  rw [if_pos ht]
  exact h trail

/-- An attempt reads what its rule reads under the scope of attempts. -/
theorem attempt (h : r.Reads { scope with speculative := true } i v j) :
    Rule.Reads scope i r.attempt v j := by
  intro trail
  obtain ⟨outcome, trail', hrun, hv⟩ := h trail
  refine ⟨outcome, trail', ?_, hv⟩
  unfold Rule.attempt
  rw [hrun]
  cases outcome <;> cases hv <;> rfl

theorem map {f : α → β} (h : r.Reads scope i v j) : Rule.Reads scope i (r.map f) (f v) j := by
  intro trail
  obtain ⟨outcome, trail', hrun, hv⟩ := h trail
  refine ⟨outcome.map f, trail', by unfold Rule.map; rw [hrun], ?_⟩
  cases outcome <;> cases hv <;> rfl

theorem within {construct : Construct} (h : r.Reads scope i v j) :
    Rule.Reads scope i (r.within construct) v j := by
  intro trail
  obtain ⟨outcome, trail', hrun, hv⟩ := h trail
  refine ⟨outcome.within construct, trail', by unfold Rule.within; rw [hrun], ?_⟩
  cases outcome <;> cases hv <;> rfl

theorem named {name : RuleName} (h : r.Reads scope i v j) :
    Rule.Reads scope i (r.named name) v j := by
  intro trail
  obtain ⟨outcome, trail', hrun, hv⟩ := h trail
  refine ⟨outcome, trail', ?_, hv⟩
  unfold Rule.named
  rw [hrun]
  cases outcome <;> cases hv <;> rfl

/-- The first rule of a choice that succeeds. -/
theorem first {rs : List (Rule α)} (h : r.Reads scope i v j) :
    Rule.Reads scope i (Rule.firstOf (r :: rs)) v j := by
  intro trail
  obtain ⟨outcome, trail', hrun, hv⟩ := h trail
  refine ⟨outcome, trail', ?_, hv⟩
  unfold Rule.firstOf
  rw [hrun]
  cases outcome <;> cases hv <;> rfl

/-- A choice goes on after a rule that misses. -/
theorem later {rs : List (Rule α)} (h : r.Misses scope i)
    (hrs : (Rule.firstOf rs).Reads scope i v j) :
    Rule.Reads scope i (Rule.firstOf (r :: rs)) v j := by
  intro trail
  obtain ⟨expected, position, t, hrun⟩ := h trail
  obtain ⟨outcome, trail', hrun', hv⟩ := hrs t.trail
  refine ⟨outcome, trail', ?_, hv⟩
  unfold Rule.firstOf
  rw [hrun]
  dsimp only
  rw [hrun']
  cases outcome <;> cases hv <;> rfl

end Rule.Reads

/-! ### Failing

A composition fails where its first part does, or where it comes to a part that does. A rule fails
without having consumed where its test is not met.
-/

namespace Parser.Fails

variable {p : Parser α} {v : α} {f : α → Parser β} {expected : Kind}

protected theorem fail : Fails scope i (Parser.fail : Parser α) := fun _ => ⟨_, _, rfl⟩

/-- A composition whose first part fails. -/
theorem bind (h : Fails scope i p) : Fails scope i (p >>= f) := by
  intro trail
  obtain ⟨fault, t, hrun⟩ := h trail
  exact ⟨fault, t, bind_of_error hrun⟩

/-- A composition whose second part fails. -/
theorem after (hp : Reads scope i p v j) (h : Fails scope j (f v)) : Fails scope i (p >>= f) := by
  intro trail
  obtain ⟨trail', hrun⟩ := hp trail
  rw [bind_of_ok hrun]
  exact h trail'

theorem expect (h : scope.lexemes.kindAt i ≠ expected) :
    Fails scope i (Parser.expect expected) := fun _ => ⟨_, _, expect_miss h⟩

/-- The token is not there, and the second of two parsers fails. -/
theorem eatElse {q : Parser α} (he : scope.lexemes.kindAt i ≠ expected) (h : Fails scope i q) :
    Fails scope i (Parser.eat expected >>= fun found => if found = true then p else q) :=
  after (.eat_not he) (by rwa [if_neg Bool.false_ne_true])

theorem expectIdent (h : scope.lexemes.kindAt i ≠ .ident) : Fails scope i Parser.expectIdent :=
  .after .position <| .after .text <| .bind (.expect h)

theorem within {construct : Construct} (h : Fails scope i p) :
    Fails scope i (p.within construct) := by
  intro trail
  obtain ⟨fault, t, hrun⟩ := h trail
  exact ⟨fault.within construct, t, by unfold Parser.within; rw [hrun]⟩

theorem named {rule : RuleName} (h : Fails scope i p) : Fails scope i (p.named rule) := by
  intro trail
  obtain ⟨fault, t, hrun⟩ := h trail
  exact ⟨fault, _, by unfold Parser.named; rw [hrun]⟩

theorem finish {r : Rule α} {construct : Option Construct} (h : r.Fails scope i) :
    Fails scope i (r.finishIn construct) := by
  intro trail
  have hrun := h trail
  unfold Rule.finishIn
  cases hr : r scope ⟨i, trail⟩ with
  | mk outcome t =>
    rw [hr] at hrun
    cases outcome with
    | consumedOk v | emptyOk v => cases hrun
    | consumedErr fault | emptyErr expected position => exact ⟨_, t, rfl⟩

end Parser.Fails

namespace Rule

variable {r : Rule α}

/-- A rule that misses does not succeed. -/
theorem Misses.fails (h : r.Misses scope i) : r.Fails scope i := by
  intro trail
  obtain ⟨expected, position, t, hrun⟩ := h trail
  rw [hrun]
  rfl

namespace Misses

theorem opening {expected : Kind} (h : scope.lexemes.kindAt i ≠ expected) :
    Misses scope i (Rule.opening expected r) :=
  fun _ => ⟨_, _, _, if_neg h⟩

theorem provided {test : Lexemes → Nat → Bool} (h : test scope.lexemes i = false) :
    Misses scope i (r.provided test) :=
  fun _ => ⟨_, _, _, if_neg (by rw [h]; exact Bool.false_ne_true)⟩

theorem map {f : α → β} (h : r.Misses scope i) : Misses scope i (r.map f) := by
  intro trail
  obtain ⟨expected, position, t, hrun⟩ := h trail
  exact ⟨expected, position, t, by unfold Rule.map; rw [hrun]; rfl⟩

theorem within {construct : Construct} (h : r.Misses scope i) :
    Misses scope i (r.within construct) := by
  intro trail
  obtain ⟨expected, position, t, hrun⟩ := h trail
  exact ⟨expected, position, t, by unfold Rule.within; rw [hrun]; rfl⟩

end Misses

namespace Fails

theorem ofParser {p : Parser α} (h : p.Fails scope i) : Fails scope i (Rule.ofParser p) := by
  intro trail
  obtain ⟨fault, t, hrun⟩ := h trail
  unfold Rule.ofParser
  rw [hrun]
  dsimp only
  split <;> rfl

theorem decided {p : Parser α} (h : p.Fails scope i) : Fails scope i (Rule.decided p) := by
  intro trail
  obtain ⟨fault, t, hrun⟩ := h trail
  unfold Rule.decided
  rw [hrun]
  rfl

theorem taking {p : Nat → String → Parser α} (hi : scope.lexemes.kindAt i ≠ .eof)
    (h : (p i (scope.lexemes.textAt i)).Fails scope (i + 1)) : Fails scope i (Rule.taking p) :=
  fun trail => decided (.after (.advance hi) h) trail

theorem opening {expected : Kind} (h : scope.lexemes.kindAt i = expected → r.Fails scope i) :
    Fails scope i (Rule.opening expected r) := by
  intro trail
  unfold Rule.opening
  split
  · exact h ‹_› trail
  · rfl

/-- The first of two rules fails. -/
theorem followedBy {next : Nat → α → Rule β} (h : r.Fails scope i) :
    Fails scope i (r.followedBy next) := by
  intro trail
  have hrun := h trail
  unfold Rule.followedBy
  cases hr : r scope ⟨i, trail⟩ with
  | mk outcome t =>
    rw [hr] at hrun
    cases outcome <;> first | rfl | cases hrun

theorem named {name : RuleName} (h : r.Fails scope i) : Fails scope i (r.named name) := by
  intro trail
  have hrun := h trail
  unfold Rule.named
  cases hr : r scope ⟨i, trail⟩ with
  | mk outcome t =>
    rw [hr] at hrun
    cases outcome <;> first | rfl | cases hrun

theorem attempt (h : r.Fails { scope with speculative := true } i) :
    Fails scope i r.attempt := by
  intro trail
  have hrun := h trail
  unfold Rule.attempt
  cases hr : r { scope with speculative := true } ⟨i, trail⟩ with
  | mk outcome t =>
    rw [hr] at hrun
    cases outcome <;> first | rfl | cases hrun

protected theorem none : Fails scope i (Rule.firstOf ([] : List (Rule α))) := fun _ => rfl

/-- A choice fails if each of its rules does, with none that consumed first. -/
theorem orElse {rs : List (Rule α)} (h : r.Fails scope i)
    (hrs : (Rule.firstOf rs).Fails scope i) : Fails scope i (Rule.firstOf (r :: rs)) := by
  intro trail
  have hrun := h trail
  unfold Rule.firstOf
  cases hr : r scope ⟨i, trail⟩ with
  | mk outcome t =>
    rw [hr] at hrun
    cases outcome with
    | consumedOk v | emptyOk v => cases hrun
    | consumedErr fault => rfl
    | emptyErr expected position =>
      have hrun' := hrs t.trail
      dsimp only
      cases hr' : Rule.firstOf rs scope ⟨i, t.trail⟩ with
      | mk outcome u =>
        rw [hr'] at hrun'
        cases outcome <;> first | rfl | cases hrun'

end Fails

end Rule

end SolidityParser
