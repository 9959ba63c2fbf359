import SolidityParser.Proofs.Grammar.Boundary
import SolidityParser.Proofs.Grammar.Recovery
import SolidityParser.Proofs.Grammar.Unit
import SolidityParser.Proofs.Parser.Ensures

/-!
# How declarations end

`declarations_close`: without tolerance, the last token of a declaration at file level is a
semicolon or a closing brace. A block ends with a brace unless it is cut short, which needs
tolerance; a loop over members ends with the round that consumes the brace.
-/

namespace SolidityParser

/-- The kinds that end a unit. -/
def Kind.endsUnit (kind : Kind) : Bool := kind matches .semicolon | .rbrace

/-- A run that succeeds without tolerance consumes a token, and the last one it consumes may end a
unit. -/
abbrev Parser.Closes {α : Type} (p : Parser α) : Prop :=
  p.Ensures [] fun lexemes tolerant i _ j =>
    tolerant = false → i < j ∧ (lexemes.kindAt (j - 1)).endsUnit = true

/-- As `Parser.Closes`, for rules. -/
abbrev Rule.Closes {α : Type} (r : Rule α) : Prop :=
  r.Ensures [] fun lexemes tolerant i _ j =>
    tolerant = false → i < j ∧ (lexemes.kindAt (j - 1)).endsUnit = true

namespace Parser.Closes

variable {α β : Type} {k : Kind} {p : Parser α} {f : α → Parser β}

/-- The second part closes. -/
theorem bind_right (hp : p.Steady 0) (hf : ∀ v, Closes (f v)) : Closes (p >>= f) := by
  intro scope s u w _ hrun htolerant
  obtain ⟨v, t, hfirst, hrest⟩ := bind_eq_ok hrun
  have hle := hp.le hfirst
  obtain ⟨hlt, hends⟩ := hf v scope t u w trivial hrest htolerant
  exact ⟨by omega, hends⟩

/-- The first part closes, and what follows only gives a value. -/
theorem placed (hp : Closes p) {first : Nat} {g : α → Extent → β} :
    Closes (do
      let v ← p
      let place ← Parser.extentFrom first
      return g v place) := by
  intro scope s u w _ hrun htolerant
  obtain ⟨v, t, hfirst, hrest⟩ := bind_eq_ok hrun
  cases hrest
  exact hp scope s u v trivial hfirst htolerant

/-- The first part closes, and a value is given. -/
theorem gives (hp : Closes p) {g : α → β} : Closes (p >>= fun v => pure (g v)) := by
  intro scope s u w _ hrun htolerant
  obtain ⟨v, t, hfirst, hrest⟩ := bind_eq_ok hrun
  cases hrest
  exact hp scope s u v trivial hfirst htolerant

/-- What is made of a value does not change where a run ends. -/
theorem map (hp : Closes p) {g : α → β} : Closes (g <$> p) := by
  rw [← bind_pure_comp]
  exact gives hp

/-- A token that may end a unit is taken last. -/
theorem expect (hk : k.endsUnit = true) : Closes (Parser.expect k) := by
  intro scope s t v _ hrun _
  obtain ⟨he, rfl⟩ := expect_eq_ok (by rintro rfl; cases hk) hrun
  exact ⟨Nat.lt_succ_self _, by simpa [he] using hk⟩

/-- Where the token that closes is missing, another parser closes. -/
theorem eatElse (hk : k.endsUnit = true) {v : α} (hp : Closes p) :
    Closes (Parser.eat k >>= fun found => if found = true then pure v else p) := by
  intro scope s t w _ hrun htolerant
  by_cases he : scope.lexemes.kindAt s.position = k
  · rw [bind_of_ok (eat_hit (by rintro rfl; cases hk) he)] at hrun
    cases hrun
    exact ⟨Nat.lt_succ_self _, by simpa [he] using hk⟩
  · rw [bind_of_ok (eat_miss he), if_neg Bool.false_ne_true] at hrun
    exact hp scope { s with trail := s.trail.addToken s.position k } t w trivial hrun htolerant

/-- A loop closes if the step that gives nothing does. -/
theorem collect {step : Parser (Option α)} (hforth : step.Steady 0)
    (hlast : ∀ scope s t, scope.tolerant = false → step scope s = .ok none t →
      s.position < t.position ∧ (scope.lexemes.kindAt (t.position - 1)).endsUnit = true) :
    Closes (Parser.collect step) := by
  have loop : ∀ fuel, Closes (collectAtFuel step fuel) := by
    intro fuel
    induction fuel with
    | zero => exact Ensures.fail
    | succ fuel ih =>
      intro scope s u w _ hrun htolerant
      unfold collectAtFuel at hrun
      obtain ⟨next, t, hstep, hrest⟩ := bind_eq_ok hrun
      cases next with
      | none =>
        cases hrest
        exact hlast scope s u htolerant hstep
      | some v =>
        obtain ⟨vs, t', hmore, hdone⟩ := bind_eq_ok hrest
        cases hdone
        have hle := hforth.le hstep
        obtain ⟨hlt, hends⟩ := ih scope t u vs trivial hmore htolerant
        exact ⟨by omega, hends⟩
  exact bind_right .budget loop

/-- A loop over items that the closing brace ends. -/
theorem collect_items {item : Parser (Option α)} (hitem : item.Steady 0)
    (hsome : ∀ scope s t, item scope s ≠ .ok none t) :
    Closes (Parser.collect do
      if ← Parser.eat .rbrace then return none
      item) := by
  refine collect (Steady.eat.bind fun _ => .ite (.pure none) hitem) ?_
  intro scope s t _ hstep
  by_cases he : scope.lexemes.kindAt s.position = .rbrace
  · rw [bind_of_ok (eat_hit (by decide) he)] at hstep
    cases hstep
    exact ⟨Nat.lt_succ_self _, by simp [he, Kind.endsUnit]⟩
  · rw [bind_of_ok (eat_miss he), if_neg Bool.false_ne_true] at hstep
    exact absurd hstep (hsome _ _ _)

/-- A list ends with the token that closes it. -/
theorem series (hk : k.endsUnit = true) (hp : p.Steady 0) : Closes (Parser.series k p) :=
  eatElse hk <| bind_right hp.separated fun _ => gives (expect hk)

end Parser.Closes

namespace Grammar

open SolidityParser.Parser (Steady Closes)

/-- What gives a value by itself gives something. -/
private theorem some_ne_none {α : Type} {p : Parser α} {scope : Scope} {s t : ParseState} :
    (some <$> p) scope s ≠ .ok none t := by
  intro hrun
  rw [← bind_pure_comp] at hrun
  obtain ⟨v, u, -, hdone⟩ := Parser.bind_eq_ok hrun
  cases hdone

variable {inner : Inner} (hi : inner.Built)

include hi

/-! ### Bodies -/

/-- A block ends with its brace, if it may not be cut short. -/
theorem block_closes : Closes (block inner.statement) := by
  have hsteady : inner.statement.Steady := Rule.Built.steady (hi.statement {})
  refine .bind_right .position fun start => .bind_right .expect fun _ => .placed <|
    .collect (.blockItem hsteady hi.ends) ?_
  intro scope s t htolerant hstep
  unfold blockItem at hstep
  by_cases he : scope.lexemes.kindAt s.position = .rbrace
  · rw [Parser.bind_of_ok (Parser.eat_hit (by decide) he)] at hstep
    cases hstep
    exact ⟨Nat.lt_succ_self _, by simp [he, Kind.endsUnit]⟩
  · -- without tolerance the block is not cut short
    have hcut : cutShort scope { s with trail := s.trail.addToken s.position .rbrace } =
        .ok false { s with trail := s.trail.addToken s.position .rbrace } := by
      unfold cutShort Scope.recovers
      rw [htolerant]
      rfl
    rw [Parser.bind_of_ok (Parser.eat_miss he), if_neg Bool.false_ne_true,
      Parser.bind_of_ok hcut, if_neg Bool.false_ne_true] at hstep
    obtain ⟨v, u, -, hdone⟩ := Parser.bind_eq_ok hstep
    cases hdone

/-- A function ends with its body or a semicolon. -/
theorem bodyOrSemicolon_closes : Closes (bodyOrSemicolon inner) :=
  .eatElse rfl (.map (.inBody (block_closes hi)))

theorem functionRest_closes {start : Nat} {name : String} :
    Closes (functionRest inner start name) :=
  .bind_right (Steady.built (parameters_built hi.typeName)) fun _ =>
    .bind_right (Steady.built (functionAttributes_built hi)) fun _ =>
    .bind_right (Steady.built (returns?_built hi.typeName)) fun _ =>
    .placed (bodyOrSemicolon_closes hi)

/-! ### Declarations

Each declaration that may stand at file level ends with a semicolon or a brace of its own, or with a
body.
-/

theorem freeFunction_closes : (freeFunction inner).Closes :=
  .within <| .opening <| .ofParser <| .weaken <| Closes.bind_right .position fun _ =>
    .bind_right .advance fun _ => .bind_right (Steady.built expectIdent_built) fun _ =>
    functionRest_closes hi

theorem contract_closes : (contract inner).Closes := by
  rw [contract_eq]
  refine .oneOf <| .within <| .ofParser <| Closes.bind_right .position fun start =>
    .bind_right .eat fun _ => .bind_right (Steady.built contractKind_built) fun _ =>
    .bind_right (Steady.built expectIdent_built) fun _ =>
    .bind_right (Steady.built (bases_built hi)) fun _ => .bind_right .expect fun _ =>
    .placed <| .collect_items ?_ fun _ _ _ => some_ne_none
  exact (Steady.built (.finish (contractPart_built hi))).map

theorem structDefinition_closes : (structDefinition inner).Closes := by
  refine .within <| .opening <| .ofParser <| .weaken <| Closes.bind_right .position fun start =>
    .bind_right .advance fun _ => .bind_right (Steady.built expectIdent_built) fun _ =>
    .bind_right .expect fun _ => .placed <| .collect_items ?_ ?_
  · exact (Steady.built (variableDeclaration_built hi)).bind fun _ =>
      Steady.expect.bind fun _ => .pure _
  · intro scope s t hrun
    obtain ⟨_, _, -, hrun⟩ := Parser.bind_eq_ok hrun
    obtain ⟨_, _, -, hdone⟩ := Parser.bind_eq_ok hrun
    cases hdone

omit hi in
theorem enumDefinition_closes : enumDefinition.Closes :=
  .within <| .opening <| .ofParser <| .weaken <| Closes.bind_right .position fun _ =>
    .bind_right .advance fun _ => .bind_right (Steady.built expectIdent_built) fun _ =>
    .bind_right .expect fun _ => .placed (.series rfl (Steady.built expectIdent_built))

theorem eventDefinition_closes : (eventDefinition inner).Closes :=
  .within <| .opening <| .ofParser <| .weaken <| Closes.bind_right .position fun _ =>
    .bind_right .advance fun _ => .bind_right (Steady.built expectIdent_built) fun _ =>
    .bind_right (Steady.built (parameters_built hi.typeName)) fun _ =>
    .bind_right (Steady.built eatWord_built) fun _ => .placed (.expect rfl)

theorem errorDefinition_closes : (errorDefinition inner).Closes :=
  .tried <| .within <| .ofParser <|
    Closes.bind_right .position fun _ =>
    .bind_right .advance fun _ => .bind_right (Steady.built expectIdent_built) fun _ =>
    .bind_right (Steady.built (parameters_built hi.typeName)) fun _ => .placed (.expect rfl)

theorem usingDirective_closes : (usingDirective inner).Closes :=
  .within <| .opening <| .ofParser <| .weaken <| Closes.bind_right .position fun _ =>
    .bind_right .advance fun _ => .bind_right (Steady.built attachedFunctions_built) fun (_, _) =>
    .bind_right .expect fun _ => .bind_right (Steady.built (attachedType_built hi)) fun _ =>
    .bind_right (Steady.built eatWord_built) fun _ => .placed (.expect rfl)

omit hi in
theorem valueTypeDefinition_closes : valueTypeDefinition.Closes :=
  .tried <| .within <| .opening <| .ofParser <| .weaken <|
    Closes.bind_right .position fun _ => .bind_right .advance fun _ =>
    .bind_right (Steady.built expectIdent_built) fun _ => .bind_right .expect fun _ =>
    .bind_right (Steady.built elementaryType_built) fun (_, _) => .placed (.expect rfl)

theorem fileConstant_closes : (fileConstant inner).Closes :=
  .attempt <| .ofParser <| Closes.bind_right .position fun _ =>
    .bind_right (Steady.built (.finish (hi.typeName {}))) fun _ => .bind_right .expect fun _ =>
    .bind_right (Steady.built expectIdent_built) fun _ => .bind_right .expect fun _ =>
    .bind_right (Steady.built (hi.expression {})) fun _ => .placed (.expect rfl)

/-- Without tolerance, the last token of a declaration may end a unit. -/
theorem declarations_close : (Rule.firstOf (declarations inner)).Closes :=
  .orElse (.map (contract_closes hi)) <|
    .orElse (.map (freeFunction_closes hi)) <|
    .orElse (.map (structDefinition_closes hi)) <|
    .orElse (.map enumDefinition_closes) <|
    .orElse (.map (eventDefinition_closes hi)) <|
    .orElse (.map (errorDefinition_closes hi)) <|
    .orElse (.map (usingDirective_closes hi)) <|
    .orElse (.map valueTypeDefinition_closes) <|
    .orElse (.map (fileConstant_closes hi)) .none

end Grammar

end SolidityParser
