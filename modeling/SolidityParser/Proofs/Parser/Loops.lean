import SolidityParser.Proofs.Parser.Reads
import SolidityParser.Proofs.Production.Symbol

/-!
# Loops that read all they should

A loop reads what its rounds read one after the other, however many there are: each round consumes
a token, so the rounds do not run out before the input does. `Parser.Rounds` is a row of rounds of
`iterate`, `Parser.Gathers` one of `collect`; `Reads.separated` and `Reads.series` are given the
symbols of a production instead. For the same reason a loop that fails does so in one of its rounds
(`iterate_eq_error`, `collect_eq_error`).
-/

namespace SolidityParser

variable {α β : Type} {scope : Scope} {i j k l : Nat}

namespace Parser

/-- From one value and position to another by rounds of a loop, each of which consumes. -/
inductive Rounds (scope : Scope) (step : β → Parser (Option β)) : β → Nat → β → Nat → Prop
  | refl (v : β) (i : Nat) : Rounds scope step v i v i
  | head {v w u : β} {i j k : Nat} (first : Reads scope i (step v) (some w) j) (lt : i < j)
      (rest : Rounds scope step w j u k) : Rounds scope step v i u k

/-- Rounds of a loop that give these values, each of which consumes, and one that gives none. -/
inductive Gathers (scope : Scope) (step : Parser (Option α)) : Nat → List α → Nat → Prop
  | nil {i j : Nat} (last : Reads scope i step none j) : Gathers scope step i [] j
  | cons {v : α} {vs : List α} {i j k : Nat} (first : Reads scope i step (some v) j) (lt : i < j)
      (rest : Gathers scope step j vs k) (le : j ≤ scope.lexemes.size) :
      Gathers scope step i (v :: vs) k

namespace Rounds

variable {step : β → Parser (Option β)} {v w u : β}

/-- One more round may be put at the end. -/
theorem tail (h : Rounds scope step v i w j) (last : Reads scope j (step w) (some u) k)
    (lt : j < k) : Rounds scope step v i u k := by
  induction h with
  | refl v i => exact .head last lt (.refl u k)
  | head first lt' _ ih => exact .head first lt' (ih last lt)

/-- Rounds may be put together. -/
theorem trans (h : Rounds scope step v i w j) (h' : Rounds scope step w j u k) :
    Rounds scope step v i u k := by
  induction h with
  | refl => exact h'
  | head first lt _ ih => exact .head first lt (ih h')

/-- Rounds do not go back. -/
theorem le (h : Rounds scope step v i w j) : i ≤ j := by
  induction h with
  | refl => exact Nat.le_refl _
  | head _ lt _ ih => omega

end Rounds

namespace Reads

/-- A loop reads its rounds, and ends where one gives nothing. -/
theorem iterate {step : β → Parser (Option β)} {v w : β} (h : Rounds scope step v i w j)
    (last : Reads scope j (step w) none k) (hj : j ≤ scope.lexemes.size) :
    Reads scope i (Parser.iterate step v) w k := by
  have loop : ∀ fuel, j - i < fuel → Reads scope i (iterateAtFuel step fuel v) w k := by
    induction h with
    | refl v i =>
      intro fuel hfuel
      obtain ⟨fuel, rfl⟩ : ∃ n, fuel = n + 1 := ⟨fuel - 1, by omega⟩
      exact last.bind .pure
    | @head v w u i j k first lt rest ih =>
      intro fuel hfuel
      obtain ⟨fuel, rfl⟩ : ∃ n, fuel = n + 1 := ⟨fuel - 1, by omega⟩
      have := rest.le
      exact first.bind (ih last hj fuel (by omega))
  exact fun trail => loop (scope.lexemes.size - i + 1) (by omega) trail

/-- A loop that collects reads what its rounds give. -/
theorem collect {step : Parser (Option α)} {vs : List α} (h : Gathers scope step i vs k) :
    Reads scope i (Parser.collect step) vs k := by
  have loop : ∀ fuel, scope.lexemes.size - i < fuel →
      Reads scope i (collectAtFuel step fuel) vs k := by
    induction h with
    | nil last =>
      intro fuel hfuel
      obtain ⟨fuel, rfl⟩ : ∃ n, fuel = n + 1 := ⟨fuel - 1, by omega⟩
      exact last.bind .pure
    | cons first lt rest le ih =>
      intro fuel hfuel
      obtain ⟨fuel, rfl⟩ : ∃ n, fuel = n + 1 := ⟨fuel - 1, by omega⟩
      exact first.bind ((ih fuel (by omega)).bind .pure)
  exact fun trail => loop (scope.lexemes.size - i + 1) (by omega) trail

section Made

variable {γ : Type} {item : Parser α} (make : γ → α) {ws : List γ} {symbols : γ → List Symbol}

/-- Items are read, each where what it is made of is spelled, up to a token that is no comma. -/
theorem separated_made (hws : ws ≠ [])
    (h : scope.lexemes.Spells i (Symbol.separated (ws.map symbols)) j)
    (hj : scope.lexemes.kindAt j ≠ .comma)
    (hitem : ∀ w ∈ ws, ∀ n m, i ≤ n → scope.lexemes.Spells n (symbols w) m →
      scope.lexemes.kindAt m = .comma ∨ m = j → Reads scope n item (make w) m) :
    Reads scope i (Parser.separated item) (ws.map make) j := by
  have loop : ∀ fuel, scope.lexemes.size - i < fuel →
      Reads scope i (separatedAtFuel item fuel) (ws.map make) j := by
    induction ws generalizing i with
    | nil => exact absurd rfl hws
    | cons w ws ih =>
      intro fuel hfuel
      obtain ⟨fuel, rfl⟩ : ∃ n, fuel = n + 1 := ⟨fuel - 1, by omega⟩
      cases ws with
      | nil =>
        have hread := hitem w (by simp) i j (Nat.le_refl _) h (.inr rfl)
        exact hread.bind (.eatElse hj .pure)
      | cons w' ws =>
        obtain ⟨m, hfirst, ⟨-, hcomma⟩, hrest⟩ := Lexemes.spells_append.mp h
        have hle := hfirst.inside.1
        have hlt := @Lexemes.lt_size_of_kindAt scope.lexemes m
          (by rw [hcomma]; decide)
        have hread := hitem w (by simp) i m (Nat.le_refl _) hfirst (.inl hcomma)
        refine hread.bind (.eatIf (by decide) hcomma (.bind ?_ .pure))
        exact ih (by simp) hrest
          (fun w hw n m' hn => hitem w (List.mem_cons_of_mem _ hw) n m' (by omega))
          fuel (by omega)
  exact fun trail => loop (scope.lexemes.size - i + 1) (by omega) trail

/-- A series is read up to the token that closes it, if none of its items begins with that. -/
theorem series_made {close : Kind} (hclose : close ≠ .eof ∧ close ≠ .comma)
    (h : scope.lexemes.Spells i (Symbol.series close (ws.map symbols)) j)
    (hfirst : ws ≠ [] → scope.lexemes.kindAt i ≠ close)
    (hitem : ∀ w ∈ ws, ∀ n m, i ≤ n → scope.lexemes.Spells n (symbols w) m →
      scope.lexemes.kindAt m = .comma ∨ scope.lexemes.kindAt m = close →
      Reads scope n item (make w) m) :
    Reads scope i (Parser.series close item) (ws.map make) j := by
  obtain ⟨m, hrow, ⟨-, hm⟩, rfl⟩ := Lexemes.spells_append.mp h
  cases ws with
  | nil =>
    obtain rfl : i = m := hrow
    exact .eatIf hclose.1 hm .pure
  | cons w ws =>
    refine .eatElse (hfirst (by simp)) <| .bind ?_ <| .bind (.expect hclose.1 hm) .pure
    refine separated_made make (by simp) hrow (by rw [hm]; exact hclose.2) ?_
    exact fun w hw n m' hn hspells hend =>
      hitem w hw n m' hn hspells (hend.imp_right fun h => by rw [h, hm])

end Made

variable {item : Parser α} {vs : List α} {symbols : α → List Symbol}

/-- Items are read, each where its symbols are spelled, up to a token that is no comma. -/
theorem separated (hvs : vs ≠ [])
    (h : scope.lexemes.Spells i (Symbol.separated (vs.map symbols)) j)
    (hj : scope.lexemes.kindAt j ≠ .comma)
    (hitem : ∀ v ∈ vs, ∀ n m, i ≤ n → scope.lexemes.Spells n (symbols v) m →
      scope.lexemes.kindAt m = .comma ∨ m = j → Reads scope n item v m) :
    Reads scope i (Parser.separated item) vs j := by
  have hmade := separated_made id hvs h hj hitem
  rwa [List.map_id] at hmade

/-- A series is read up to the token that closes it, if none of its items begins with that. -/
theorem series {close : Kind} (hclose : close ≠ .eof ∧ close ≠ .comma)
    (h : scope.lexemes.Spells i (Symbol.series close (vs.map symbols)) j)
    (hfirst : vs ≠ [] → scope.lexemes.kindAt i ≠ close)
    (hitem : ∀ v ∈ vs, ∀ n m, i ≤ n → scope.lexemes.Spells n (symbols v) m →
      scope.lexemes.kindAt m = .comma ∨ scope.lexemes.kindAt m = close →
      Reads scope n item v m) :
    Reads scope i (Parser.series close item) vs j := by
  have hmade := series_made id hclose h hfirst hitem
  rwa [List.map_id] at hmade

end Reads

/-! ### Loops that fail -/

section Fail

variable {fault : Fault} {s u : ParseState}

/-- If each round consumes a token of the input, a loop fails only in a round, and what holds from
round to round holds where that round begins. -/
theorem iterate_eq_error {step : β → Parser (Option β)} {P : β → ParseState → Prop}
    (next : ∀ {v s w t}, P v s → step v scope s = .ok (some w) t →
      P w t ∧ s.position < t.position ∧ t.position ≤ scope.lexemes.size)
    {v : β} (hs : P v s) (h : iterate step v scope s = .error fault u) :
    ∃ w t, P w t ∧ step w scope t = .error fault u := by
  have loop : ∀ fuel v s, P v s → scope.lexemes.size - s.position < fuel →
      iterateAtFuel step fuel v scope s = .error fault u →
        ∃ w t, P w t ∧ step w scope t = .error fault u := by
    intro fuel
    induction fuel with
    | zero => exact fun _ _ _ hlt => absurd hlt (Nat.not_lt_zero _)
    | succ fuel ih =>
      intro v s hs hfuel h
      rcases bind_eq_error h with hstep | ⟨w?, t, hstep, hrest⟩
      · exact ⟨v, s, hs, hstep⟩
      · cases w? with
        | none => cases hrest
        | some w =>
          obtain ⟨ht, hlt, hle⟩ := next hs hstep
          exact ih w t ht (by omega) hrest
  exact loop (scope.lexemes.size - s.position + 1) v s hs (Nat.lt_succ_self _) h

/-- A loop whose rounds go on while a property holds fails where a round fails. -/
theorem collect_eq_error {step : Parser (Option α)} {P : ParseState → Prop}
    (next : ∀ {s v t}, P s → step scope s = .ok (some v) t →
      P t ∧ s.position < t.position ∧ t.position ≤ scope.lexemes.size)
    (hs : P s) (h : collect step scope s = .error fault u) :
    ∃ t, P t ∧ step scope t = .error fault u := by
  have loop : ∀ fuel s, P s → scope.lexemes.size - s.position < fuel →
      collectAtFuel step fuel scope s = .error fault u →
        ∃ t, P t ∧ step scope t = .error fault u := by
    intro fuel
    induction fuel with
    | zero => exact fun _ _ hlt => absurd hlt (Nat.not_lt_zero _)
    | succ fuel ih =>
      intro s hs hfuel h
      rcases bind_eq_error h with hstep | ⟨v?, t, hstep, hrest⟩
      · exact ⟨s, hs, hstep⟩
      · cases v? with
        | none => cases hrest
        | some v =>
          obtain ⟨ht, hlt, hle⟩ := next hs hstep
          rcases bind_eq_error hrest with hrest | ⟨vs, w, -, hdone⟩
          · exact ih t ht (by omega) hrest
          · cases hdone
  exact loop (scope.lexemes.size - s.position + 1) s hs (Nat.lt_succ_self _) h

end Fail

end Parser

end SolidityParser
