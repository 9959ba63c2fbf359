import Mathlib
import SolidityParser.Lexer.Scan
import SolidityParser.Proofs.Grammar.Unnamed
import SolidityParser.Proofs.Lexer.Dispatch

/-!
# Declarations and expression statements

A statement that no word begins, and the first part of a `for` loop, is a declaration or an
expression statement. The declaration is attempted first. Does it matter?

**Theorem** (`alternatives_apart_unless_unnamed`): at most one of the two is there, and trying them
in the other order gives the same, unless a list in which no variable is declared stands there with
an equals sign after it. Then both are there or neither, they end at one place, and whichever is
tried first decides.

Such a list is the only overlap, but it is one: `expression_first_differs` shows what `(,) = f();`
is in either order.
-/

namespace SolidityParser

variable {α : Type} {scope : Scope} {i j : Nat}

/-! ### Rules that give the same -/

/-- At `i` two parsers give the same. -/
def Parser.SameAt (scope : Scope) (i : Nat) (p q : Parser α) : Prop :=
  ∀ v j, p.Gives scope i v j ↔ q.Gives scope i v j

/-- At `i` two rules give the same. -/
def Rule.SameAt (scope : Scope) (i : Nat) (r r' : Rule α) : Prop :=
  ∀ v j, r.Gives scope i v j ↔ r'.Gives scope i v j

namespace Rule

variable {r : Rule α} {rs rs' : List (Rule α)} {v : α}

/-- A rule under a name gives what it gives without. -/
theorem named_gives_iff {name : RuleName} (hr : r.Steady) :
    (r.named name).Gives scope i v j ↔ r.Gives scope i v j :=
  ⟨.of_named, fun h => .of_reads (.named (h.reads hr))⟩

/-- A choice whose first rule misses gives what the others give. -/
theorem firstOf_gives_iff (hmiss : r.Misses scope i) (hrs : (firstOf rs).Steady) :
    (firstOf (r :: rs)).Gives scope i v j ↔ (firstOf rs).Gives scope i v j := by
  constructor
  · intro h
    rcases h.elim with h | ⟨-, h⟩
    · exact (hmiss.not_gives h).elim
    · exact h
  · exact fun h => .of_reads (.later hmiss (h.reads hrs))

/-- Choices that go on with the same give the same. -/
theorem SameAt.firstOf (h : SameAt scope i (firstOf rs) (firstOf rs')) (hr : r.Steady)
    (hrs : (Rule.firstOf rs).Steady) (hrs' : (Rule.firstOf rs').Steady) :
    SameAt scope i (Rule.firstOf (r :: rs)) (Rule.firstOf (r :: rs')) := by
  have step {rs rs' : List (Rule α)} (hrs' : (Rule.firstOf rs').Steady)
      (hgo : ∀ v j, (Rule.firstOf rs).Gives scope i v j → (Rule.firstOf rs').Gives scope i v j)
      {v : α} {j : Nat} (h : (Rule.firstOf (r :: rs)).Gives scope i v j) :
      (Rule.firstOf (r :: rs')).Gives scope i v j := by
    rcases h.elim with h | ⟨hmissed, h⟩
    · exact .of_reads (.first (h.reads hr))
    · exact .of_reads (.later (hmissed.misses hr) ((hgo v j h).reads hrs'))
  exact fun v j => ⟨step hrs' fun v j => (h v j).mp, step hrs fun v j => (h v j).mpr⟩

end Rule

/-! ### Two alternatives, one of which is attempted -/

namespace Parser

/-- Runs are the same in an attempt and outside, and whatever is on record. -/
structure Uniform (p : Parser α) : Prop where
  /-- They depend on words alone. -/
  byWords : p.ByWords
  /-- They do not depend on the failures on record. -/
  steady : p.Steady 1

/-- Two alternatives: the first is attempted, and taken back if it fails. -/
def either (p q : Parser α) : List (Rule α) := [(Rule.ofParser p).attempt, Rule.ofParser q]

variable {p q : Parser α} {v : α}

namespace Uniform

/-- Runs are the same in an attempt. -/
theorem speculative_eq (hp : p.Uniform) : p { scope with speculative := true } = p scope :=
  hp.byWords.congr rfl

/-- What an attempt gives, its parser gives. -/
theorem of_attempt (hp : p.Uniform) (h : (Rule.ofParser p).attempt.Gives scope i v j) :
    p.Gives scope i v j := by
  obtain ⟨s, t, hrun, hs, ht⟩ := h.attempt.ofParser
  rw [hp.speculative_eq] at hrun
  exact ⟨s, t, hrun, hs, ht⟩

/-- What a parser gives, an attempt at it reads. -/
theorem attempt (hp : p.Uniform) (h : p.Gives scope i v j) :
    (Rule.ofParser p).attempt.Reads scope i v j := by
  refine .attempt <| .ofParser fun trail => ?_
  rw [hp.speculative_eq]
  exact h.reads hp.steady trail

/-- A choice between two alternatives is steady. -/
theorem either (hp : p.Uniform) (hq : q.Uniform) : (Rule.firstOf (either p q)).Steady :=
  .orElse (.attempt (.ofParser hp.steady)) <| .orElse (.ofParser hq.steady) .none

end Uniform

/-- A choice between two alternatives gives what one of them gives; the second, only if an attempt
at the first missed. -/
theorem either_gives (hp : p.Uniform)
    (h : (Rule.firstOf (either p q)).Gives scope i v j) :
    p.Gives scope i v j ∨ (Rule.ofParser p).attempt.Missed scope i ∧ q.Gives scope i v j := by
  rcases h.elim with h | ⟨hmissed, h⟩
  · exact .inl (hp.of_attempt h)
  · rcases h.elim with h | ⟨-, h⟩
    · exact .inr ⟨hmissed, h.ofParser⟩
    · exact h.none.elim

/-- Where at most one of two alternatives is there, their order does not matter. -/
theorem either_sameAt (hp : p.Uniform) (hq : q.Uniform)
    (hpq : ∀ v j w k, p.Gives scope i v j → ¬ q.Gives scope i w k) :
    Rule.SameAt scope i (Rule.firstOf (either p q)) (Rule.firstOf (either q p)) := by
  have swap {p q : Parser α} (hp : p.Uniform) (hq : q.Uniform)
      (hpq : ∀ v j w k, p.Gives scope i v j → ¬ q.Gives scope i w k) {v : α} {j : Nat}
      (h : (Rule.firstOf (either p q)).Gives scope i v j) :
      (Rule.firstOf (either q p)).Gives scope i v j := by
    rcases either_gives hp h with hgives | ⟨-, hgives⟩
    · refine .of_reads <| .later (.attempt fun w k hother => ?_) <|
        .first <| .ofParser (hgives.reads hp.steady)
      exact hpq v j w k hgives (hq.of_attempt hother)
    · exact .of_reads (.first (hq.attempt hgives))
  exact fun v j => ⟨swap hp hq hpq,
    swap hq hp fun v j w k hgives hother => hpq w k v j hother hgives⟩

/-- Where the second of two alternatives is there only if the first is, the first decides. -/
theorem either_gives_iff (hp : p.Uniform)
    (hqp : ∀ w k, q.Gives scope i w k → ∃ v j, p.Gives scope i v j) :
    (Rule.firstOf (either p q)).Gives scope i v j ↔ p.Gives scope i v j := by
  constructor
  · intro h
    rcases either_gives hp h with hgives | ⟨hmissed, hgives⟩
    · exact hgives
    · obtain ⟨w, k, hfirst⟩ := hqp v j hgives
      exact (hmissed.not_reads (hp.attempt hfirst)).elim
  · exact fun h => .of_reads (.first (hp.attempt h))

end Parser

namespace Grammar

open SolidityParser.Parser (either eat)

/-! ### The two orders -/

/-- The statement rule with its last alternatives left open. -/
def statementAmong (inner : Inner) (alternatives : List (Rule (Statement .parsed))) :
    Rule (Statement .parsed) :=
  Rule.named .statement <| Rule.firstOf <|
    keywordStatement inner :: placeholder :: revertStatement inner :: alternatives

/-- What a `for` loop does first, with the alternatives left open. -/
def initialAmong (alternatives : List (Rule (Statement .parsed))) :
    Parser (Option (Statement .parsed)) := do
  if ← eat .semicolon then return none
  some <$> (Rule.firstOf alternatives).finish

/-- The declaration is attempted, and an expression statement comes next. -/
def declarationFirst (inner : Inner) : List (Rule (Statement .parsed)) :=
  either (declarationStatement inner) (expressionStatement inner)

/-- The same in the other order. -/
def expressionFirst (inner : Inner) : List (Rule (Statement .parsed)) :=
  either (expressionStatement inner) (declarationStatement inner)

/-- The rule for statements tries a declaration first. -/
theorem statement_eq_among (inner : Inner) :
    statement inner = statementAmong inner (declarationFirst inner) := rfl

/-- So does the rule for what a loop begins with. -/
theorem forInitial_eq_among (inner : Inner) :
    forInitial inner = initialAmong (declarationFirst inner) := rfl

section Among

variable {inner : Inner} {alternatives others : List (Rule (Statement .parsed))}

/-- The rules that come before the alternatives. -/
theorem words_steady (hi : inner.Built) (hs : (Rule.firstOf alternatives).Steady) :
    (Rule.firstOf (keywordStatement inner :: placeholder :: revertStatement inner ::
      alternatives)).Steady :=
  .orElse (keywordStatement_built hi).steady <| .orElse placeholder_built.steady <|
    .orElse (revertStatement_built hi).steady hs

/-- Statements among the same alternatives are the same. -/
theorem statementAmong_sameAt (hi : inner.Built) (hs : (Rule.firstOf alternatives).Steady)
    (hs' : (Rule.firstOf others).Steady)
    (h : Rule.SameAt scope i (Rule.firstOf alternatives) (Rule.firstOf others)) :
    Rule.SameAt scope i (statementAmong inner alternatives) (statementAmong inner others) := by
  have hrevert := (revertStatement_built hi).steady
  have hlast := Rule.Steady.orElse hrevert hs
  have hlast' := Rule.Steady.orElse hrevert hs'
  have hrest := (h.firstOf hrevert hs hs').firstOf placeholder_built.steady hlast hlast'
  have hwords := hrest.firstOf (keywordStatement_built hi).steady
    (.orElse placeholder_built.steady hlast) (.orElse placeholder_built.steady hlast')
  intro v j
  unfold statementAmong
  rw [Rule.named_gives_iff (words_steady hi hs), Rule.named_gives_iff (words_steady hi hs')]
  exact hwords v j

/-- At a parenthesis, a statement is one of the alternatives. -/
theorem statementAmong_gives_iff (hi : inner.Built) (hs : (Rule.firstOf alternatives).Steady)
    (hopen : scope.lexemes.kindAt i = .lparen) {v : Statement .parsed} :
    (statementAmong inner alternatives).Gives scope i v j ↔
      (Rule.firstOf alternatives).Gives scope i v j := by
  have hident : scope.lexemes.kindAt i ≠ .ident := by rw [hopen]; decide
  have hkeyword : (keywordStatement inner).Misses scope i :=
    keywordStatement_misses inner (by rw [hopen]; rfl)
  have hplaceholder : placeholder.Misses scope i :=
    .provided (by rw [isWordAt_eq_false hident, Bool.false_and])
  have hrevert : (revertStatement inner).Misses scope i :=
    .provided (by rw [isWordAt_eq_false hident, Bool.false_and])
  have hsteady : (Rule.firstOf (revertStatement inner :: alternatives)).Steady :=
    .orElse (revertStatement_built hi).steady hs
  unfold statementAmong
  rw [Rule.named_gives_iff (words_steady hi hs),
    Rule.firstOf_gives_iff hkeyword (.orElse placeholder_built.steady hsteady),
    Rule.firstOf_gives_iff hplaceholder hsteady, Rule.firstOf_gives_iff hrevert hs]

/-- What a `for` loop does first is nothing, or one of the alternatives. -/
theorem initialAmong_gives_iff (hs : (Rule.firstOf alternatives).Steady)
    {v : Option (Statement .parsed)} :
    (initialAmong alternatives).Gives scope i v j ↔
      scope.lexemes.kindAt i = .semicolon ∧ v = none ∧ j = i + 1 ∨
        scope.lexemes.kindAt i ≠ .semicolon ∧
          ∃ s, v = some s ∧ (Rule.firstOf alternatives).Gives scope i s j := by
  constructor
  · intro h
    rcases h.eatIf (by decide) with ⟨hi, h⟩ | ⟨hi, h⟩
    · exact .inl ⟨hi, h.pure⟩
    · obtain ⟨s, hgives, rfl⟩ := h.map
      exact .inr ⟨hi, s, rfl, hgives.finish⟩
  · rintro (⟨hi, rfl, rfl⟩ | ⟨hi, s, rfl, hgives⟩)
    · exact .of_reads (.eatIf (by decide) hi .pure)
    · exact .of_reads (.eatElse hi (.map (.finish (hgives.reads hs))))

/-- What a `for` loop does first among the same alternatives is the same. -/
theorem initialAmong_sameAt (hs : (Rule.firstOf alternatives).Steady)
    (hs' : (Rule.firstOf others).Steady)
    (h : Rule.SameAt scope i (Rule.firstOf alternatives) (Rule.firstOf others)) :
    Parser.SameAt scope i (initialAmong alternatives) (initialAmong others) := by
  intro v j
  rw [initialAmong_gives_iff hs, initialAmong_gives_iff hs']
  simp only [h _ j]

end Among

/-! ### When the order matters -/

/-- At most one of declaration and expression statement is there, so that their order does not
matter. -/
structure Apart (inner : Inner) (scope : Scope) (i : Nat) : Prop where
  /-- At most one is there. -/
  exclusive : ∀ v j w k, (declarationStatement inner).Gives scope i v j →
    ¬ (expressionStatement inner).Gives scope i w k
  /-- A statement is the same in the other order. -/
  statement : Rule.SameAt scope i (statement inner) (statementAmong inner (expressionFirst inner))
  /-- So is what a `for` loop does first. -/
  initial : Parser.SameAt scope i (forInitial inner) (initialAmong (expressionFirst inner))

/-- Declaration and expression statement are both there or neither, and their order decides. -/
structure Together (inner : Inner) (scope : Scope) (i : Nat) : Prop where
  /-- Both are there, up to one place, or neither is. -/
  both : ∀ j, (∃ v, (declarationStatement inner).Gives scope i v j) ↔
    ∃ v, (expressionStatement inner).Gives scope i v j
  /-- A statement is the declaration. -/
  statement : ∀ v j, (statement inner).Gives scope i v j ↔
    (declarationStatement inner).Gives scope i v j
  /-- In the other order it is the expression statement. -/
  statement_swapped : ∀ v j, (statementAmong inner (expressionFirst inner)).Gives scope i v j ↔
    (expressionStatement inner).Gives scope i v j
  /-- What a `for` loop does first is the declaration. -/
  initial : ∀ v j, (forInitial inner).Gives scope i v j ↔
    ∃ s, v = some s ∧ (declarationStatement inner).Gives scope i s j
  /-- In the other order it is the expression statement. -/
  initial_swapped : ∀ v j, (initialAmong (expressionFirst inner)).Gives scope i v j ↔
    ∃ s, v = some s ∧ (expressionStatement inner).Gives scope i s j

/-! ### The alternatives of a statement -/

/-- A declaration is read alike in an attempt and outside. -/
theorem declarationStatement_uniform (depth : Nat) : (declarationStatement (.upTo depth)).Uniform :=
  ⟨declarationStatement_byWords (Inner.byWords_upTo depth),
    (declarationStatement_built (Inner.built_upTo depth)).steady⟩

/-- So is an expression. -/
theorem expressionStatement_uniform (depth : Nat) : (expressionStatement (.upTo depth)).Uniform :=
  ⟨expressionStatement_byWords (Inner.byWords_upTo depth),
    (expressionStatement_built (Inner.built_upTo depth)).steady⟩

/-- Either order is steady. -/
theorem declarationFirst_steady (depth : Nat) :
    (Rule.firstOf (declarationFirst (.upTo depth))).Steady :=
  (declarationStatement_uniform depth).either (expressionStatement_uniform depth)

/-- In the other order, too, both runs tell the same. -/
theorem expressionFirst_steady (depth : Nat) :
    (Rule.firstOf (expressionFirst (.upTo depth))).Steady :=
  (expressionStatement_uniform depth).either (declarationStatement_uniform depth)

variable {depth : Nat}

/-- Where at most one alternative is there, the order does not matter. -/
theorem apart_of_exclusive
    (h : ∀ v j w k, (declarationStatement (.upTo depth)).Gives scope i v j →
      ¬ (expressionStatement (.upTo depth)).Gives scope i w k) : Apart (.upTo depth) scope i := by
  have hsame := Parser.either_sameAt (declarationStatement_uniform depth)
    (expressionStatement_uniform depth) h
  have hsteady := declarationFirst_steady depth
  have hsteady' := expressionFirst_steady depth
  exact {
    exclusive := h
    statement := by
      rw [statement_eq_among]
      exact statementAmong_sameAt (Inner.built_upTo depth) hsteady hsteady' hsame
    initial := by
      rw [forInitial_eq_among]
      exact initialAmong_sameAt hsteady hsteady' hsame }

/-- Where both alternatives are there or neither, the order decides. -/
theorem together_of_both (hopen : scope.lexemes.kindAt i = .lparen)
    (h : ∀ j, (∃ v, (declarationStatement (.upTo depth)).Gives scope i v j) ↔
      ∃ v, (expressionStatement (.upTo depth)).Gives scope i v j) :
    Together (.upTo depth) scope i := by
  have hi := Inner.built_upTo depth
  have hne : scope.lexemes.kindAt i ≠ .semicolon := by rw [hopen]; decide
  have hdeclaration (v : Statement .parsed) (j : Nat) :
      (Rule.firstOf (declarationFirst (.upTo depth))).Gives scope i v j ↔
        (declarationStatement (.upTo depth)).Gives scope i v j :=
    Parser.either_gives_iff (declarationStatement_uniform depth) fun w k hw =>
      let ⟨v, hv⟩ := (h k).mpr ⟨w, hw⟩
      ⟨v, k, hv⟩
  have hexpression (v : Statement .parsed) (j : Nat) :
      (Rule.firstOf (expressionFirst (.upTo depth))).Gives scope i v j ↔
        (expressionStatement (.upTo depth)).Gives scope i v j :=
    Parser.either_gives_iff (expressionStatement_uniform depth) fun w k hw =>
      let ⟨v, hv⟩ := (h k).mp ⟨w, hw⟩
      ⟨v, k, hv⟩
  have hsteady := declarationFirst_steady depth
  have hsteady' := expressionFirst_steady depth
  exact {
    both := h
    statement := fun v j => by
      rw [statement_eq_among, statementAmong_gives_iff hi hsteady hopen]
      exact hdeclaration v j
    statement_swapped := fun v j => by
      rw [statementAmong_gives_iff hi hsteady' hopen]
      exact hexpression v j
    initial := fun v j => by
      rw [forInitial_eq_among, initialAmong_gives_iff hsteady]
      simp [hne, hdeclaration]
    initial_swapped := fun v j => by
      rw [initialAmong_gives_iff hsteady']
      simp [hne, hexpression] }

/-- At most one of declaration and expression statement is there, and their order does not matter,
unless a list in which no variable is declared stands there with an equals sign after it. The levels
of nesting are at least as many as the tokens left, as they are in every parse. -/
theorem alternatives_apart_unless_unnamed (hd : scope.lexemes.size ≤ i + depth) :
    ((∀ close, ¬ scope.lexemes.Unnamed i close) → Apart (.upTo depth) scope i) ∧
      ∀ close, scope.lexemes.Unnamed i close → Together (.upTo depth) scope i := by
  constructor
  · intro hnone
    refine apart_of_exclusive fun v j w k hdeclaration hexpression => ?_
    obtain ⟨close, hunnamed⟩ := unnamed_of_gives hd hdeclaration hexpression
    exact hnone close hunnamed
  · intro close hunnamed
    refine together_of_both hunnamed.opening fun j => ?_
    rw [declarationStatement_gives_iff hunnamed hd, expressionStatement_gives_iff hunnamed]

/-! ### Examples of either case -/

/-- The words of a source. -/
def scopeOf (source : String) : Scope := { lexemes := (lex source).tokens.lexemes }

/-- The words of `(,) = f();`. -/
def pairLexemes : Lexemes :=
  #[⟨.lparen, "("⟩, ⟨.comma, ","⟩, ⟨.rparen, ")"⟩, ⟨.eq, "="⟩, ⟨.ident, "f"⟩, ⟨.lparen, "("⟩,
    ⟨.rparen, ")"⟩, ⟨.semicolon, ";"⟩, ⟨.eof, ""⟩]

/-- The tokens of a list that declares nothing. -/
theorem scopeOf_pair : scopeOf "(,) = f();" = { lexemes := pairLexemes } := by
  have hlex : (lex "(,) = f();").tokens.lexemes = pairLexemes := by
    rw [lex_ofList]
    decide +kernel
  rw [scopeOf, hlex]

/-- It is one of the lists that may be read either way. -/
theorem unnamed_pair : (scopeOf "(,) = f();").lexemes.Unnamed 0 2 := by
  rw [scopeOf_pair]
  refine ⟨by decide, rfl, fun n hlt hclose => ?_, rfl, rfl⟩
  obtain rfl : n = 1 := by omega
  rfl

/-- An assignment to an element, and a list without variables. -/
theorem alternatives_of_element_and_pair :
    Apart (.upTo 10) (scopeOf "a[i] = 1;") 0 ∧ Together (.upTo 10) (scopeOf "(,) = f();") 0 := by
  constructor
  · refine (alternatives_apart_unless_unnamed (by rw [scopeOf, lex_ofList]; cbv)).1
      fun close h => ?_
    have hopen : (scopeOf "a[i] = 1;").lexemes.kindAt 0 = .ident := by
      rw [scopeOf, lex_ofList]
      cbv
    rw [h.opening] at hopen
    cases hopen
  · exact (alternatives_apart_unless_unnamed (by rw [scopeOf_pair]; cbv)).2 2 unnamed_pair

/-- The list of two variables in `(,) = f();`, and its value. -/
def pairDeclaration : Statement .parsed :=
  .declaration ⟨0, 8⟩ [none, none]
    (some (.call ⟨4, 7⟩ (.identifier ⟨4, 5⟩ "f") (.positional [])))

/-- The same as a tuple that is assigned to. -/
def pairAssignment : Statement .parsed :=
  .expression ⟨0, 8⟩ (.assignment ⟨0, 7⟩ .assign (.tuple ⟨0, 3⟩ [none, none] false)
    (.call ⟨4, 7⟩ (.identifier ⟨4, 5⟩ "f") (.positional [])))

open SolidityParser.Parser (told told_eq_ok) in
/-- `(,) = f();` is a declaration and an expression statement, and the order decides which. -/
theorem expression_first_differs :
    (declarationStatement (.upTo 10)).Gives (scopeOf "(,) = f();") 0 pairDeclaration 8 ∧
      (expressionStatement (.upTo 10)).Gives (scopeOf "(,) = f();") 0 pairAssignment 8 ∧
      (statement (.upTo 10)).Gives (scopeOf "(,) = f();") 0 pairDeclaration 8 ∧
      (statementAmong (.upTo 10) (expressionFirst (.upTo 10))).Gives (scopeOf "(,) = f();") 0
        pairAssignment 8 ∧
      ¬ Apart (.upTo 10) (scopeOf "(,) = f();") 0 := by
  have gives {p : Parser (Statement .parsed)} {v : Statement .parsed} {n : Nat}
      (h : told (p (scopeOf "(,) = f();") {}) = .ok v n) :
      p.Gives (scopeOf "(,) = f();") 0 v n := by
    obtain ⟨t, hrun, rfl⟩ := told_eq_ok h
    exact .of_run hrun
  rw [scopeOf_pair] at gives ⊢
  have hdeclaration : (declarationStatement (.upTo 10)).Gives { lexemes := pairLexemes } 0
      pairDeclaration 8 := gives (by cbv)
  have hexpression : (expressionStatement (.upTo 10)).Gives { lexemes := pairLexemes } 0
      pairAssignment 8 := gives (by cbv)
  have hordered : (statement (.upTo 10)).finish.Gives { lexemes := pairLexemes } 0
      pairDeclaration 8 := gives (by cbv)
  have hswapped : (statementAmong (.upTo 10) (expressionFirst (.upTo 10))).finish.Gives
      { lexemes := pairLexemes } 0 pairAssignment 8 := gives (by cbv)
  exact ⟨hdeclaration, hexpression, hordered.finish, hswapped.finish,
    fun h => h.exclusive _ _ _ _ hdeclaration hexpression⟩

end Grammar

end SolidityParser
