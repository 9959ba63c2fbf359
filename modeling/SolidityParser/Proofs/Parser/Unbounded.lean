import SolidityParser.Proofs.Parser.Basic
import SolidityParser.Grammar.Recovery

/-!
# Loops without a budget

The loops of the grammar are given a budget of rounds. `Parser.Ends` is what a loop comes to that is
given none: it goes round until a round ends it or fails, and a loop that went round for ever would
come to nothing. If a round that is not the last moves on and stays in the input, the budget is
never used up: the loop ends without one, and comes to the same (`Ends.iterate`, `Ends.collect`,
`Ends.separated`, `Ends.skip`).

That a round which fails or is the last consumes anything is not asked.
-/

namespace SolidityParser.Parser

variable {α β γ : Type}

/-! ### Bodies -/

/-- A round of `iterate`: the value of the loop, or what the next round starts from. -/
def iterateBody (step : β → Parser (Option β)) (v : β) : Parser (β ⊕ β) := do
  match ← step v with
  | none => return .inl v
  | some w => return .inr w

/-- A round of `collect`, given what has been collected before. -/
def collectBody (step : Parser (Option α)) (vs : List α) : Parser (List α ⊕ List α) := do
  match ← step with
  | none => return .inl vs
  | some v => return .inr (vs ++ [v])

/-- A round of `separated`, given the items before. -/
def separatedBody (item : Parser α) (vs : List α) : Parser (List α ⊕ List α) := do
  let v ← item
  if ← eat .comma then return .inr (vs ++ [v])
  return .inl (vs ++ [v])

/-- A round of the loop that skips tokens, given the open brackets. -/
def skipBody (statement : Rule α) (brackets : Grammar.OpenBrackets) :
    Parser (Unit ⊕ Grammar.OpenBrackets) := do
  match ← Grammar.skipToken statement brackets with
  | none => return .inl ()
  | some brackets => return .inr brackets

/-! ### Loops that end -/

/-- A loop without a budget comes to a result after finitely many rounds. -/
inductive Ends (scope : Scope) (body : γ → Parser (α ⊕ γ)) :
    γ → ParseState → EStateM.Result Fault ParseState α → Prop
  | stop {v : γ} {s t : ParseState} {x : α} (last : body v scope s = .ok (.inl x) t) :
      Ends scope body v s (.ok x t)
  | fail {v : γ} {s t : ParseState} {fault : Fault} (last : body v scope s = .error fault t) :
      Ends scope body v s (.error fault t)
  | again {v w : γ} {s t : ParseState} {result : EStateM.Result Fault ParseState α}
      (round : body v scope s = .ok (.inr w) t) (rest : Ends scope body w t result) :
      Ends scope body v s result

variable {scope : Scope} {s : ParseState} {P : ParseState → Prop}

/-- Rounds that are not the last move on, in the input. -/
def MovesOn (scope : Scope) (P : ParseState → Prop) (body : γ → Parser (α ⊕ γ)) : Prop :=
  ∀ v s w t, P s → body v scope s = .ok (.inr w) t →
    P t ∧ s.position < t.position ∧ t.position ≤ scope.lexemes.size

/-- If rounds move on, a budget of one more than the tokens left is never used up. The induction is
on the budget: a round lowers it by one, and the number of tokens left by one at least. -/
theorem Ends.of_budget {body : γ → Parser (α ⊕ γ)} (run : Nat → γ → Parser α)
    (unfolds : ∀ fuel v, run (fuel + 1) v = body v >>= Sum.elim pure (run fuel))
    (moves : MovesOn scope P body) :
    ∀ fuel v s, P s → scope.lexemes.size - s.position < fuel →
      Ends scope body v s (run fuel v scope s)
  | 0, _, _, _, hfuel => absurd hfuel (Nat.not_lt_zero _)
  | fuel + 1, v, s, hs, hfuel => by
    rw [unfolds]
    cases hround : body v scope s with
    | error fault t =>
      rw [bind_of_error hround]
      exact .fail hround
    | ok next t =>
      rw [bind_of_ok hround]
      cases next with
      | inl x => exact .stop hround
      | inr w =>
        obtain ⟨ht, hlt, hle⟩ := moves v s w t hs hround
        exact .again hround (of_budget run unfolds moves fuel w t ht (by omega))

/-! ### The loops of the grammar -/

/-- A loop with a budget ends as the one without does. -/
theorem Ends.iterate {step : β → Parser (Option β)} {v : β}
    (moves : MovesOn scope P (iterateBody step)) (hs : P s) :
    Ends scope (iterateBody step) v s (iterate step v scope s) := by
  refine of_budget (iterateAtFuel step) (fun fuel v => ?_) moves
    (scope.lexemes.size - s.position + 1) v s hs (Nat.lt_succ_self _)
  rw [iterateAtFuel, iterateBody, bind_assoc]
  congr 1
  funext next
  cases next <;> rfl

/-- So does skipping. -/
theorem Ends.skip {statement : Rule α} {brackets : Grammar.OpenBrackets}
    (moves : MovesOn scope P (skipBody statement)) (hs : P s) :
    Ends scope (skipBody statement) brackets s
      (Grammar.skipAtFuel statement (scope.lexemes.size - s.position + 1) brackets scope s) := by
  refine of_budget (Grammar.skipAtFuel statement) (fun fuel brackets => ?_) moves
    (scope.lexemes.size - s.position + 1) brackets s hs (Nat.lt_succ_self _)
  rw [Grammar.skipAtFuel, skipBody, bind_assoc]
  congr 1
  funext next
  cases next <;> rfl

/-- What is collected from here on comes after what was collected before. -/
theorem Ends.collect {step : Parser (Option α)} (moves : MovesOn scope P (collectBody step))
    (hs : P s) : Ends scope (collectBody step) [] s (collect step scope s) := by
  have h := of_budget (fun fuel vs => (vs ++ ·) <$> collectAtFuel step fuel)
    (fun fuel vs => ?_) moves (scope.lexemes.size - s.position + 1) [] s hs (Nat.lt_succ_self _)
  · rwa [show ([] ++ · : List α → List α) = id from rfl, id_map] at h
  · rw [collectAtFuel, collectBody, map_bind, bind_assoc]
    congr 1
    funext next
    cases next <;> simp

/-- So do items with commas between them. -/
theorem Ends.separated {item : Parser α} (moves : MovesOn scope P (separatedBody item))
    (hs : P s) : Ends scope (separatedBody item) [] s (separated item scope s) := by
  have h := of_budget (fun fuel vs => (vs ++ ·) <$> separatedAtFuel item fuel)
    (fun fuel vs => ?_) moves (scope.lexemes.size - s.position + 1) [] s hs (Nat.lt_succ_self _)
  · rwa [show ([] ++ · : List α → List α) = id from rfl, id_map] at h
  · rw [separatedAtFuel, separatedBody, map_bind, bind_assoc]
    congr 1
    funext v
    rw [map_bind, bind_assoc]
    congr 1
    funext comma
    cases comma <;> simp

end SolidityParser.Parser
