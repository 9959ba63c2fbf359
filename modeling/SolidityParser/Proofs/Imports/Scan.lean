import SolidityParser.Proofs.Grammar.Ending
import SolidityParser.Proofs.Grammar.Entry
import SolidityParser.Proofs.Imports.State
import SolidityParser.Proofs.Parser.Follows

/-!
# The scan for imports follows its states

What the scanner finds from a position on, `Finds`, is put together from the back: at the end of the
input it finds nothing, an import adds its path, and a token that has a state after it leads on to
what is found from that state (`goes_of_after?`). No part of it depends on how many rounds the loops
are given, as long as there is one for every token left.
-/

namespace SolidityParser.Grammar

open SolidityParser.Parser (Reads)

variable {scope : Scope} {i j : Nat} {paths : List String} {state state' : ScanState}

/-! ### Skipping a unit -/

/-- The step of the loop that skips a unit. -/
def skipStep (progress : List Kind × Bool) : Parser (Option (List Kind × Bool)) :=
  if progress.2 then some <$> skipUnitToken progress.1 else return none

/-- The brackets open after a token, as the scanner computes them. -/
def closersAfter (closers : List Kind) (k : Kind) : List Kind :=
  match k.closer? with
  | some closer => closer :: closers
  | none => if k.isClose then closers.tail else closers

/-- The scanner computes the state after a token. -/
theorem closers_of_after? {k : Kind} (h : state.after? k = some state') :
    ¬ (k.isClose = true ∧ k ≠ state.closers.headD k) ∧
      closersAfter state.closers k = state'.closers ∧
      (state'.closers.isEmpty && (k == .semicolon || k == .rbrace)) = state'.atUnit := by
  unfold ScanState.after? at h
  unfold closersAfter
  cases hcloser : k.closer? with
  | some closer =>
    have hclose : k.isClose = false := by
      unfold Kind.closer? at hcloser
      split at hcloser <;> first | rfl | cases hcloser
    rw [hcloser] at h
    cases h
    simp [hclose]
  | none =>
    rw [hcloser] at h
    dsimp only at h ⊢
    split_ifs at h with hclose hhead hk
    · have hne : (k == .semicolon) = false := by
        rw [beq_eq_false_iff_ne]
        rintro rfl
        cases hclose
      cases h
      simp [hclose, hhead, List.headD_eq_head?_getD, hne]
    · have hne : (k == .rbrace) = false := by
        rw [beq_eq_false_iff_ne]
        rintro rfl
        exact hclose rfl
      cases h
      simp [hclose, hne]

/-- One token is skipped if there is a state after it, and nothing is reported. -/
theorem skipUnitToken_run {s : ParseState}
    (h : state.after? (scope.lexemes.kindAt s.position) = some state') :
    skipUnitToken state.closers scope s =
      .ok (state'.closers, !state'.atUnit) { s with position := s.position + 1 } := by
  have hne : scope.lexemes.kindAt s.position ≠ .eof := by
    intro he
    rw [he] at h
    cases h
  have hadvance := Parser.advance_run hne
  obtain ⟨hmatch, hclosers, hunit⟩ := closers_of_after? h
  obtain ⟨closers, atUnit⟩ := state
  dsimp only at hmatch hclosers hunit ⊢
  unfold skipUnitToken
  rw [Parser.bind_of_ok (show Parser.kind scope s = .ok _ s from rfl)]
  generalize scope.lexemes.kindAt s.position = k at h hne hmatch hclosers hunit ⊢
  split
  · exact absurd rfl hne
  · cases h
  · cases h
  · cases h
  · rw [if_neg hmatch, ← hunit, ← hclosers]
    exact Parser.bind_of_ok hadvance

/-- One token is skipped if there is a state after it. -/
theorem skipUnitToken_reads (h : state.after? (scope.lexemes.kindAt i) = some state') :
    Reads scope i (skipUnitToken state.closers) (state'.closers, !state'.atUnit) (i + 1) :=
  fun trail => ⟨trail, skipUnitToken_run (s := ⟨i, trail⟩) h⟩

/-- Within a unit, there is no state after the end of the input, nor after a bracket that closes
another one than the innermost that is open. -/
theorem after?_eq_none {closers : List Kind} {k : Kind}
    (h : (ScanState.mk closers false).after? k = none) :
    k = .eof ∨ k.isClose = true ∧ closers.head? ≠ some k := by
  unfold ScanState.after? at h
  cases hopen : k.closer? with
  | some closer =>
    rw [hopen] at h
    cases h
  | none =>
    rw [hopen] at h
    dsimp only at h
    split_ifs at h with hclose hhead heof
    · exact .inr ⟨hclose, hhead⟩
    · exact .inl (heof.resolve_right And.right)

/-- Where there is no state after a token, the unit is not skipped. What would have been accepted is
reported, unless a bracket is closed and none is open. -/
theorem skipUnitToken_stops {closers : List Kind} {s : ParseState}
    (h : (ScanState.mk closers false).after? (scope.lexemes.kindAt s.position) = none) :
    skipUnitToken closers scope s = .error ⟨s.position, none⟩
      (if closers = [] ∧ (scope.lexemes.kindAt s.position).isClose = true then s
        else { s with trail := s.trail.addToken s.position (closers.headD .semicolon) }) := by
  unfold skipUnitToken
  rw [Parser.bind_of_ok (show Parser.kind scope s = .ok _ s from rfl)]
  have hstops := after?_eq_none h
  clear h
  generalize scope.lexemes.kindAt s.position = k at hstops ⊢
  split
  · rw [if_neg (by simp [Kind.isClose])]
    rfl
  · rfl
  · rfl
  · rfl
  · next hne hparen hbracket hbrace =>
    obtain ⟨hclose, hhead⟩ := hstops.resolve_left hne
    cases closers with
    | nil =>
      -- a closing bracket with none open is one of the cases before
      exfalso
      unfold Kind.isClose at hclose
      split at hclose
      · exact hparen rfl rfl
      · exact hbracket rfl rfl
      · exact hbrace rfl rfl
      · cases hclose
    | cons closer rest =>
      have hmiss : k.isClose = true ∧ k ≠ (closer :: rest).headD k :=
        ⟨hclose, fun he => hhead (by rw [he]; rfl)⟩
      have hopen : ¬ (closer :: rest = [] ∧ k.isClose = true) := fun h => List.cons_ne_nil _ _ h.1
      rw [if_pos hmiss, if_neg hopen]
      rfl

/-- A round of the loop that skips a unit goes on to the state after one token, and nothing is
reported. -/
theorem skipStep_eq_ok {progress next : List Kind × Bool} {s t : ParseState}
    (h : skipStep progress scope s = .ok (some next) t) :
    progress.2 = true ∧ ∃ state,
      (ScanState.mk progress.1 false).after? (scope.lexemes.kindAt s.position) = some state ∧
      next = (state.closers, !state.atUnit) ∧ t = { s with position := s.position + 1 } := by
  unfold skipStep at h
  split at h
  · next hmore =>
    refine ⟨hmore, ?_⟩
    rw [← bind_pure_comp] at h
    obtain ⟨_, _, htoken, hnext⟩ := Parser.bind_eq_ok h
    cases hnext
    cases hafter : (ScanState.mk progress.1 false).after? (scope.lexemes.kindAt s.position) with
    | none =>
      rw [skipUnitToken_stops hafter] at htoken
      cases htoken
    | some state =>
      rw [skipUnitToken_run hafter] at htoken
      cases htoken
      exact ⟨state, rfl, rfl, rfl⟩
  · cases h

/-- A round fails where there is no state after the token. -/
theorem skipStep_eq_error {progress : List Kind × Bool} {s t : ParseState} {fault : Fault}
    (h : skipStep progress scope s = .error fault t) :
    progress.2 = true ∧
      (ScanState.mk progress.1 false).after? (scope.lexemes.kindAt s.position) = none ∧
      t = if progress.1 = [] ∧ (scope.lexemes.kindAt s.position).isClose = true then s
        else { s with trail := s.trail.addToken s.position (progress.1.headD .semicolon) } := by
  unfold skipStep at h
  split at h
  · next hmore =>
    rw [← bind_pure_comp] at h
    rcases Parser.bind_eq_error h with htoken | ⟨_, _, -, hdone⟩
    · cases hafter : (ScanState.mk progress.1 false).after? (scope.lexemes.kindAt s.position) with
      | none =>
        rw [skipUnitToken_stops hafter] at htoken
        cases htoken
        exact ⟨hmore, rfl, rfl⟩
      | some state =>
        rw [skipUnitToken_run hafter] at htoken
        cases htoken
    · cases hdone
  · cases h

/-- A unit with these brackets open is skipped up to `j`. -/
def SkipsTo (scope : Scope) (closers : List Kind) (i j : Nat) : Prop :=
  ∀ fuel, scope.lexemes.size - i < fuel →
    ∃ last, Reads scope i (Parser.iterateAtFuel skipStep fuel (closers, true)) last j

/-- A token that can be passed is in the input. -/
private theorem lt_size_of_after? (h : state.after? (scope.lexemes.kindAt i) = some state') :
    i < scope.lexemes.size := by
  refine Lexemes.lt_size_of_kindAt fun he => ?_
  rw [he] at h
  cases h

/-- The token that ends a unit is the last one skipped. -/
theorem skipsTo_last (h : state.after? (scope.lexemes.kindAt i) = some state')
    (hunit : state'.atUnit = true) : SkipsTo scope state.closers i (i + 1) := by
  intro fuel hfuel
  have hlt := lt_size_of_after? h
  obtain ⟨fuel, rfl⟩ : ∃ n, fuel = n + 2 := ⟨fuel - 2, by omega⟩
  have hread := skipUnitToken_reads h
  rw [hunit] at hread
  exact ⟨_, .bind (.map hread) (.bind (v := none) .pure .pure)⟩

/-- A token that does not end the unit is passed first. -/
theorem skipsTo_step (h : state.after? (scope.lexemes.kindAt i) = some state')
    (hunit : state'.atUnit = false) (hrest : SkipsTo scope state'.closers (i + 1) j) :
    SkipsTo scope state.closers i j := by
  intro fuel hfuel
  have hlt := lt_size_of_after? h
  obtain ⟨fuel, rfl⟩ : ∃ n, fuel = n + 1 := ⟨fuel - 1, by omega⟩
  obtain ⟨last, hlast⟩ := hrest fuel (by omega)
  have hread := skipUnitToken_reads h
  rw [hunit] at hread
  exact ⟨last, .bind (.map hread) hlast⟩

/-- A unit is skipped as far as its state goes on. -/
theorem skipUnit_reads (h : SkipsTo scope [] i j) : Reads scope i skipUnit () j := by
  obtain ⟨last, hlast⟩ := h _ (Nat.lt_succ_self _)
  have hloop : Reads scope i (Parser.iterate skipStep ([], true)) last j :=
    fun trail => hlast trail
  exact hloop.bind .pure

/-! ### Finding paths -/

/-- The step of the loop over units: nothing at the end, the path of an import, or no path. -/
def scanStep : Parser (Option (Option String)) := do
  if ← Parser.check .eof then return none
  if (← Parser.kind) = .kwImport then
    let directive ← importDirective.finish
    return some (some directive.path)
  skipUnit
  return some none

/-- The scan is a loop, of which the paths are kept. -/
theorem importPaths_eq :
    importPaths = (Parser.collect scanStep >>= fun paths => pure (paths.filterMap id)) := rfl

/-- From `i` on, where a unit begins, the scanner finds these paths. -/
def Finds (scope : Scope) (i : Nat) (paths : List String) : Prop :=
  ∀ fuel, scope.lexemes.size - i < fuel →
    ∃ found j, Reads scope i (Parser.collectAtFuel scanStep fuel) found j ∧
      found.filterMap id = paths

/-- Nothing is found at the end of the input. -/
theorem finds_eof (h : scope.lexemes.kindAt i = .eof) : Finds scope i [] := by
  intro fuel hfuel
  obtain ⟨fuel, rfl⟩ : ∃ n, fuel = n + 1 := ⟨fuel - 1, by omega⟩
  exact ⟨[], i, .bind (v := none) (.bind (.check h) .pure) .pure, rfl⟩

/-- A step that gives a path or none leads on to what is found after it. -/
theorem finds_some (path? : Option String) (hne : scope.lexemes.kindAt i ≠ .eof) (hlt : i < j)
    (hstep : Reads scope i scanStep (some path?) j) (hrest : Finds scope j paths) :
    Finds scope i (path?.toList ++ paths) := by
  intro fuel hfuel
  have hi := Lexemes.lt_size_of_kindAt hne
  obtain ⟨fuel, rfl⟩ : ∃ n, fuel = n + 1 := ⟨fuel - 1, by omega⟩
  obtain ⟨found, k, hfound, rfl⟩ := hrest fuel (by omega)
  refine ⟨path? :: found, k, .bind hstep (.bind hfound .pure), ?_⟩
  cases path? <;> rfl

/-- An import is found with its path, and what comes after it. -/
theorem finds_import {directive : ImportDirective Extent}
    (himport : scope.lexemes.kindAt i = .kwImport) (hlt : i < j)
    (hread : Reads scope i importDirective.finish directive j) (hrest : Finds scope j paths) :
    Finds scope i (directive.path :: paths) := by
  have hne : scope.lexemes.kindAt i ≠ .eof := by
    rw [himport]
    decide
  exact finds_some (some directive.path) hne hlt
    (.bind (.check_not hne) (.kindIf himport (.bind hread .pure))) hrest

/-- A unit that is no import is passed over. -/
theorem finds_skip (hne : scope.lexemes.kindAt i ≠ .eof)
    (himport : scope.lexemes.kindAt i ≠ .kwImport) (hlt : i < j) (hskip : SkipsTo scope [] i j)
    (hrest : Finds scope j paths) : Finds scope i paths :=
  finds_some none hne hlt
    (.bind (.check_not hne) (.kindElse himport (.bind (skipUnit_reads hskip) .pure))) hrest

/-! ### From state to state -/

/-- The scanner, in this state at `i`, finds these paths. -/
def Goes (scope : Scope) (state : ScanState) (i : Nat) (paths : List String) : Prop :=
  if state.atUnit = true then state.closers = [] ∧ Finds scope i paths
  else ∃ j, i < j ∧ SkipsTo scope state.closers i j ∧ Finds scope j paths

/-- What is found after a token is found before it. -/
theorem goes_of_after? (hstate : state.atUnit = true → state.closers = [])
    (h : state.after? (scope.lexemes.kindAt i) = some state')
    (hrest : Goes scope state' (i + 1) paths) : Goes scope state i paths := by
  have hskip : ∃ j, i < j ∧ SkipsTo scope state.closers i j ∧ Finds scope j paths := by
    unfold Goes at hrest
    cases hunit : state'.atUnit with
    | true =>
      rw [if_pos hunit] at hrest
      exact ⟨i + 1, Nat.lt_succ_self _, skipsTo_last h hunit, hrest.2⟩
    | false =>
      rw [if_neg (by rw [hunit]; exact Bool.false_ne_true)] at hrest
      obtain ⟨j, hlt, hskip, hfinds⟩ := hrest
      exact ⟨j, Nat.lt_of_succ_lt hlt, skipsTo_step h hunit hskip, hfinds⟩
  obtain ⟨j, hlt, hskip, hfinds⟩ := hskip
  unfold Goes
  split
  · next hunit =>
    have hne : scope.lexemes.kindAt i ≠ .eof := by
      intro he
      rw [he] at h
      cases h
    have himport : scope.lexemes.kindAt i ≠ .kwImport := by
      intro he
      rw [he] at h
      simp [ScanState.after?, Kind.closer?, Kind.isClose, hunit] at h
    rw [hstate hunit] at hskip
    exact ⟨hstate hunit, finds_skip hne himport hlt hskip hfinds⟩
  · exact ⟨j, hlt, hskip, hfinds⟩

/-- What is found after tokens in a row is found before them. -/
theorem goes_of_afterAll? (hle : i ≤ j) (hstate : state.atUnit = true → state.closers = [])
    (h : state.afterAll? (scope.lexemes.kinds ⟨i, j⟩) = some state')
    (hrest : Goes scope state' j paths) : Goes scope state i paths := by
  obtain ⟨n, rfl⟩ := Nat.exists_eq_add_of_le hle
  clear hle
  induction n generalizing i state with
  | zero =>
    rw [Nat.add_zero, Lexemes.kinds_self] at h
    cases h
    exact hrest
  | succ n ih =>
    rw [Lexemes.kinds_cons (by omega)] at h
    cases hafter : state.after? (scope.lexemes.kindAt i) with
    | none =>
      rw [ScanState.afterAll?, hafter] at h
      cases h
    | some next =>
      rw [ScanState.afterAll?_cons hafter] at h
      have hassoc : i + (n + 1) = i + 1 + n := by omega
      rw [hassoc] at h hrest
      exact goes_of_after? hstate hafter
        (ih (ScanState.closers_of_after? hafter) h hrest)

end SolidityParser.Grammar
