import SolidityParser.Proofs.Parser.Basic

/-!
# Runs that depend on words alone

A scope tells more than the words of the input: whether broken statements are skipped, and whether
this is a body or an attempt. `Parser.ByWords p` says that no run of `p` depends on that. Every
combinator preserves it; of the rules, those for types and expressions have it, and so have
declarations and expression statements, which hold no block.
-/

namespace SolidityParser

variable {α β : Type}

/-- Runs are the same however the words are read. -/
def Parser.ByWords (p : Parser α) : Prop :=
  ∀ scope : Scope, p scope = p { lexemes := scope.lexemes }

/-- As `Parser.ByWords`, for rules. -/
def Rule.ByWords (r : Rule α) : Prop :=
  ∀ scope : Scope, r scope = r { lexemes := scope.lexemes }

namespace Parser.ByWords

variable {p q : Parser α} {f : α → Parser β}

/-- Two scopes with the same words have the same runs. -/
theorem congr (h : ByWords p) {scope scope' : Scope} (hw : scope'.lexemes = scope.lexemes) :
    p scope' = p scope := by
  rw [h scope', h scope, hw]

/-! ### Primitives

Each primitive looks at words and at the position, or at nothing.
-/

protected theorem pure {v : α} : ByWords (pure v : Parser α) := fun _ => rfl

protected theorem fail : ByWords (Parser.fail : Parser α) := fun _ => rfl

theorem position : ByWords Parser.position := fun _ => rfl

theorem kind : ByWords Parser.kind := fun _ => rfl

theorem kindAhead {n : Nat} : ByWords (Parser.kindAhead n) := fun _ => rfl

theorem text : ByWords Parser.text := fun _ => rfl

theorem budget : ByWords Parser.budget := fun _ => rfl

theorem extentFrom {first : Nat} : ByWords (Parser.extentFrom first) := fun _ => rfl

theorem advance : ByWords Parser.advance := fun _ => rfl

theorem reportToken {k : Kind} : ByWords (Parser.reportToken k) := fun _ => rfl

theorem reportRule {rule : RuleName} : ByWords (Parser.reportRule rule) := fun _ => rfl

/-! ### Composition

A composition depends on nothing that its parts do not.
-/

theorem bind (hp : ByWords p) (hf : ∀ v, ByWords (f v)) : ByWords (p >>= f) := by
  intro scope
  funext s
  rw [bind_run, bind_run, hp scope]
  cases p { lexemes := scope.lexemes } s with
  | ok v t => exact congrFun (hf v scope) t
  | error fault t => rfl

theorem map {h : α → β} (hp : ByWords p) : ByWords (h <$> p) := by
  rw [← bind_pure_comp]
  exact hp.bind fun _ => .pure

theorem ite {test : Prop} [Decidable test] (yes : ByWords p) (no : ByWords q) :
    ByWords (if test then p else q) := by
  split
  · exact yes
  · exact no

theorem within {construct : Construct} (h : ByWords p) : ByWords (p.within construct) := by
  intro scope
  funext s
  unfold Parser.within
  rw [h scope]

theorem named {rule : RuleName} (h : ByWords p) : ByWords (p.named rule) := by
  intro scope
  funext s
  unfold Parser.named
  rw [h scope]

theorem finish {r : Rule α} {construct : Option Construct} (h : r.ByWords) :
    ByWords (r.finishIn construct) := by
  intro scope
  funext s
  unfold Rule.finishIn
  rw [h scope]

/-! ### Tokens -/

theorem check {k : Kind} : ByWords (Parser.check k) :=
  kind.bind fun _ => .ite .pure <| reportToken.bind fun _ => .pure

theorem eat {k : Kind} : ByWords (Parser.eat k) :=
  check.bind fun _ => .ite (advance.bind fun _ => .pure) .pure

theorem expect {k : Kind} : ByWords (Parser.expect k) := check.bind fun _ => .ite advance .fail

theorem expectIdent : ByWords Parser.expectIdent :=
  position.bind fun _ => text.bind fun _ => expect.bind fun _ => .pure

theorem eatIdent : ByWords Parser.eatIdent :=
  text.bind fun _ => eat.bind fun _ => .ite .pure .pure

/-! ### Loops

A loop has a budget by the number of words, and depends on what its rounds do.
-/

theorem iterate {step : β → Parser (Option β)} (h : ∀ v, ByWords (step v)) {v : β} :
    ByWords (Parser.iterate step v) := by
  have loop : ∀ fuel v, ByWords (Parser.iterateAtFuel step fuel v) := by
    intro fuel
    induction fuel with
    | zero => exact fun _ => .fail
    | succ fuel ih =>
      refine fun v => (h v).bind fun next => ?_
      cases next with
      | none => exact .pure
      | some next => exact ih next
  exact budget.bind fun fuel => loop fuel v

theorem separated (h : ByWords p) : ByWords (Parser.separated p) := by
  have loop : ∀ fuel, ByWords (Parser.separatedAtFuel p fuel) := by
    intro fuel
    induction fuel with
    | zero => exact .fail
    | succ fuel ih => exact h.bind fun _ => eat.bind fun _ => .ite (ih.bind fun _ => .pure) .pure
  exact budget.bind loop

theorem series {close : Kind} (h : ByWords p) : ByWords (Parser.series close p) :=
  eat.bind fun _ => .ite .pure <| h.separated.bind fun _ => expect.bind fun _ => .pure

end Parser.ByWords

namespace Rule.ByWords

variable {p : Parser α} {r : Rule α}

theorem ofParser (h : p.ByWords) : ByWords (Rule.ofParser p) := by
  intro scope
  funext s
  unfold Rule.ofParser
  rw [h scope]

theorem decided (h : p.ByWords) : ByWords (Rule.decided p) := by
  intro scope
  funext s
  unfold Rule.decided
  rw [h scope]

theorem taking {p : Nat → String → Parser α} (h : ∀ i word, (p i word).ByWords) :
    ByWords (Rule.taking p) :=
  fun scope => funext fun s =>
    congrFun (decided (Parser.ByWords.advance.bind fun _ => h _ _) scope) s

theorem opening {k : Kind} (h : ByWords r) : ByWords (Rule.opening k r) := by
  intro scope
  funext s
  unfold Rule.opening
  rw [h scope]

theorem followedBy {next : Nat → α → Rule β} (h : ByWords r)
    (hnext : ∀ i v, ByWords (next i v)) : ByWords (r.followedBy next) := by
  intro scope
  funext s
  unfold Rule.followedBy
  rw [h scope]
  cases hr : r _ s with
  | mk outcome t =>
    cases outcome with
    | consumedOk v | emptyOk v => exact congrFun (hnext _ v scope) t
    | consumedErr fault | emptyErr expected position => rfl

theorem named {name : RuleName} (h : ByWords r) : ByWords (r.named name) := by
  intro scope
  funext s
  unfold Rule.named
  rw [h scope]

protected theorem none : ByWords (Rule.firstOf ([] : List (Rule α))) := fun _ => rfl

theorem orElse {rs : List (Rule α)} (h : ByWords r) (hrs : ByWords (Rule.firstOf rs)) :
    ByWords (Rule.firstOf (r :: rs)) := by
  intro scope
  funext s
  unfold Rule.firstOf
  rw [h scope, hrs scope]

end Rule.ByWords

end SolidityParser
