import SolidityParser.Grammar.Entry

/-!
# Runs of the primitive parsers

What a run of each primitive comes to, in terms of the kind of the current token: `eat_hit` and
`eat_miss`, `expect_hit` and `expect_miss`, and so on. A run of a composition is taken apart by
`bind_eq_ok` and put together by `bind_of_ok` and `bind_of_error`, so no later proof opens the
monad.
-/

namespace SolidityParser

/-! ### Kinds by index -/

namespace Lexemes

variable {lexemes : Lexemes} {i : Nat}

/-- Past the end of the input stands `eof`. -/
theorem kindAt_of_size_le (h : lexemes.size ≤ i) : lexemes.kindAt i = .eof :=
  dif_neg (Nat.not_lt.mpr h)

/-- A token that is not `eof` stands before the end of the input. -/
theorem lt_size_of_kindAt (h : lexemes.kindAt i ≠ .eof) : i < lexemes.size :=
  Nat.lt_of_not_le fun hi => h (kindAt_of_size_le hi)

/-- Where a word stands, the token is an identifier. -/
theorem kindAt_of_isWordAt {word : String} (h : lexemes.isWordAt i word = true) :
    lexemes.kindAt i = .ident := by
  unfold isWordAt at h
  rw [Bool.and_eq_true] at h
  exact eq_of_beq h.1

theorem textAt_of_isWordAt {word : String} (h : lexemes.isWordAt i word = true) :
    lexemes.textAt i = word := by
  unfold isWordAt at h
  rw [Bool.and_eq_true, beq_iff_eq, beq_iff_eq] at h
  exact h.2

end Lexemes

namespace Parser

variable {α β : Type} {scope : Scope} {s t u : ParseState}

/-- The state a run comes to, whether it succeeds or not. -/
def final : EStateM.Result Fault ParseState α → ParseState
  | .ok _ t | .error _ t => t

/-! ### Composition -/

/-- A parser that gives a value leaves the state as it is. -/
@[simp] theorem pure_run (v : α) : (pure v : Parser α) scope s = .ok v s := rfl

/-- A composition runs its first part, and goes on if that succeeds. -/
theorem bind_run (p : Parser α) (f : α → Parser β) :
    (p >>= f) scope s =
      match p scope s with
      | .ok v t => f v scope t
      | .error fault t => .error fault t := by
  show EStateM.bind (p scope) (fun v => f v scope) s = _
  unfold EStateM.bind
  cases p scope s <;> rfl

/-- A composition goes on with the value of its first part. -/
theorem bind_of_ok {p : Parser α} {f : α → Parser β} {v : α} (h : p scope s = .ok v t) :
    (p >>= f) scope s = f v scope t := by
  rw [bind_run, h]

/-- A composition fails where its first part does. -/
theorem bind_of_error {p : Parser α} {f : α → Parser β} {fault : Fault}
    (h : p scope s = .error fault t) : (p >>= f) scope s = .error fault t := by
  rw [bind_run, h]

/-- Both parts of a composition that succeeds do. -/
theorem bind_eq_ok {p : Parser α} {f : α → Parser β} {w : β} (h : (p >>= f) scope s = .ok w u) :
    ∃ v t, p scope s = .ok v t ∧ f v scope t = .ok w u := by
  rw [bind_run] at h
  cases hp : p scope s with
  | ok v t => exact ⟨v, t, rfl, by rwa [hp] at h⟩
  | error fault t => rw [hp] at h; cases h

/-- A composition that fails does so in its first part or in what follows. -/
theorem bind_eq_error {p : Parser α} {f : α → Parser β} {fault : Fault}
    (h : (p >>= f) scope s = .error fault u) :
    p scope s = .error fault u ∨ ∃ v t, p scope s = .ok v t ∧ f v scope t = .error fault u := by
  rw [bind_run] at h
  cases hp : p scope s with
  | ok v t => exact .inr ⟨v, t, rfl, by rwa [hp] at h⟩
  | error fault t =>
    rw [hp] at h
    cases h
    exact .inl rfl

/-! ### Single tokens -/

/-- The current token is looked for; a miss is reported. -/
theorem check_run (k : Kind) :
    check k scope s =
      if scope.lexemes.kindAt s.position = k then .ok true s
      else .ok false { s with trail := s.trail.addToken s.position k } := by
  unfold check
  rw [bind_run]
  simp only [kind]
  split <;> rfl

/-- Before the end of the input, the position moves on by one. -/
theorem advance_run (h : scope.lexemes.kindAt s.position ≠ .eof) :
    advance scope s = .ok () { s with position := s.position + 1 } := if_neg h

/-- A token that is looked for is consumed. -/
theorem eat_hit {k : Kind} (hk : k ≠ .eof) (h : scope.lexemes.kindAt s.position = k) :
    eat k scope s = .ok true { s with position := s.position + 1 } := by
  subst h
  unfold eat
  rw [bind_of_ok (by rw [check_run, if_pos rfl]), if_pos rfl, bind_of_ok (advance_run hk)]
  rfl

/-- A token that is not there is not consumed. -/
theorem eat_miss {k : Kind} (h : scope.lexemes.kindAt s.position ≠ k) :
    eat k scope s = .ok false { s with trail := s.trail.addToken s.position k } := by
  unfold eat
  rw [bind_of_ok (by rw [check_run, if_neg h])]
  rfl

/-- A token that is expected is consumed. -/
theorem expect_hit {k : Kind} (hk : k ≠ .eof) (h : scope.lexemes.kindAt s.position = k) :
    expect k scope s = .ok () { s with position := s.position + 1 } := by
  subst h
  unfold expect
  rw [bind_of_ok (by rw [check_run, if_pos rfl]), if_pos rfl, advance_run hk]

/-- Where another token stands than the one expected, that is a failure. -/
theorem expect_miss {k : Kind} (h : scope.lexemes.kindAt s.position ≠ k) :
    expect k scope s =
      .error ⟨s.position, none⟩ { s with trail := s.trail.addToken s.position k } := by
  unfold expect
  rw [bind_of_ok (by rw [check_run, if_neg h])]
  rfl

/-- A token that was expected and consumed stood there. -/
theorem expect_eq_ok {k : Kind} (hk : k ≠ .eof) {v : Unit} (h : expect k scope s = .ok v t) :
    scope.lexemes.kindAt s.position = k ∧ t = { s with position := s.position + 1 } := by
  by_cases hs : scope.lexemes.kindAt s.position = k
  · rw [expect_hit hk hs] at h
    cases h
    exact ⟨hs, rfl⟩
  · rw [expect_miss hs] at h
    cases h

/-- An identifier that was expected and consumed stood there. -/
theorem expectIdent_eq_ok {v : Identifier Extent} (h : expectIdent scope s = .ok v t) :
    scope.lexemes.kindAt s.position = .ident ∧ t = { s with position := s.position + 1 } := by
  obtain ⟨_, _, hname, hrest⟩ := bind_eq_ok h
  cases hname
  obtain ⟨_, _, htext, hrest⟩ := bind_eq_ok hrest
  cases htext
  obtain ⟨_, _, hexpect, hrest⟩ := bind_eq_ok hrest
  cases hrest
  exact expect_eq_ok (by decide) hexpect

end Parser

end SolidityParser
