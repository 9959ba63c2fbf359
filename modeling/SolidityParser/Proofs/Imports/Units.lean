import SolidityParser.Proofs.Grammar.Progress
import SolidityParser.Proofs.Imports.Scan

/-!
# The scan for imports over one unit

`sourceUnit_finds`: what the scanner finds after a unit, it finds before it, behind the path of the
unit if that is an import. An import is read by the rule that the grammar has for it. Any other unit
is passed over: a declaration takes the scan with it as a run of its ledger, and a pragma has only a
name, a version or a passage between its keyword and its semicolon.
-/

namespace SolidityParser.Grammar

open SolidityParser.Parser (Reads Steady Moves)

variable {lexemes : Lexemes} {scope : Scope} {i j m : Nat} {unit : SourceUnit .parsed}
  {paths : List String}

/-! ### Units that are passed over -/

/-- The unit is no import, and takes a scan that begins a unit at `i` to one that does at `j`, if
its passages are tidy. -/
structure PassedOver (lexemes : Lexemes) (i : Nat) (unit : SourceUnit .parsed) (j : Nat) :
    Prop where
  /-- The unit has no path. -/
  noPath : SourceUnit.importPaths [unit] = []
  /-- The unit does not go back. -/
  le : i ≤ j
  /-- The scan ends where the unit does. -/
  afterAll : (∀ passage ∈ unit.passages, ScanState.tidy (lexemes.kinds passage) = true) →
    (ScanState.mk [] true).afterAll? (lexemes.kinds ⟨i, j⟩) = some ⟨[], true⟩

/-- What is found after a unit that is passed over is what is found. -/
theorem PassedOver.finds (h : PassedOver scope.lexemes i unit j)
    (htidy : ∀ passage ∈ unit.passages, ScanState.tidy (scope.lexemes.kinds passage) = true)
    (hrest : Finds scope j paths) : Finds scope i (SourceUnit.importPaths [unit] ++ paths) := by
  have hunits : Goes scope ⟨[], true⟩ j paths := ⟨rfl, hrest⟩
  rw [h.noPath]
  exact (goes_of_afterAll? h.le (fun _ => rfl) (h.afterAll htidy) hunits).2

/-! ### Pragmas -/

/-- A keyword, a name, tidy tokens and a semicolon make a unit. -/
theorem afterAll?_pragma (hkeyword : lexemes.kindAt i = .kwPragma)
    (hname : lexemes.kindAt (i + 1) = .ident) (hle : i + 2 ≤ m)
    (htidy : ScanState.tidy (lexemes.kinds ⟨i + 2, m⟩) = true)
    (hend : lexemes.kindAt m = .semicolon) :
    (ScanState.mk [] true).afterAll? (lexemes.kinds ⟨i, m + 1⟩) = some ⟨[], true⟩ := by
  have hfirst : (ScanState.mk [] true).after? .kwPragma = some {} := rfl
  have hsecond : ({} : ScanState).after? .ident = some {} := rfl
  obtain ⟨atUnit, hmiddle⟩ := ScanState.tidy_iff.mp htidy
  rw [Lexemes.kinds_cons (by omega), hkeyword, ScanState.afterAll?_cons hfirst,
    Lexemes.kinds_cons (by omega), hname, ScanState.afterAll?_cons hsecond,
    ← Lexemes.kinds_append hle (Nat.le_succ m), ScanState.afterAll?_append, hmiddle,
    Lexemes.kinds_cons (Nat.lt_succ_self m), Lexemes.kinds_self, hend]
  rfl

/-- What is built from combinators, without brackets left open, is tidy. -/
theorem tidy_of_built {α : Type} {p : Parser α} (h : Parser.Built [] {} p fun _ => {})
    (hstrict : scope.tolerant = false) {s t : ParseState} {v : α} (hrun : p scope s = .ok v t) :
    s.position ≤ t.position ∧
      ScanState.tidy (scope.lexemes.kinds ⟨s.position, t.position⟩) = true := by
  have hfollows := h.follows hrun
  rw [hstrict] at hfollows
  exact ⟨hfollows.le, ScanState.tidy_iff.mpr (hfollows.afterAll? nofun {} rfl)⟩

/-- After its name, a pragma has tokens that are tidy if its passages are, and a semicolon. -/
theorem pragmaRest_ensures {start : Nat} {name : String} :
    (pragmaRest start name).Ensures [] fun lexemes tolerant i unit j => tolerant = false →
      SourceUnit.importPaths [unit] = [] ∧
        ∃ m, i ≤ m ∧ lexemes.kindAt m = .semicolon ∧ j = m + 1 ∧
          ((∀ passage ∈ unit.passages, ScanState.tidy (lexemes.kinds passage) = true) →
            ScanState.tidy (lexemes.kinds ⟨i, m⟩) = true) := by
  unfold pragmaRest
  split
  · intro scope s t unit _ hrun hstrict
    obtain ⟨version, u, hversion, hrun⟩ := Parser.bind_eq_ok hrun
    obtain ⟨_, w, hend, hrun⟩ := Parser.bind_eq_ok hrun
    obtain ⟨hsemicolon, rfl⟩ := Parser.expect_eq_ok (by decide) hend
    cases hrun
    obtain ⟨hle, htidy⟩ := tidy_of_built expectIdent_built hstrict hversion
    exact ⟨rfl, u.position, hle, hsemicolon, rfl, fun _ => htidy⟩
  · intro scope s t unit _ hrun hstrict
    obtain ⟨feature, u, hfeature, hrun⟩ := Parser.bind_eq_ok hrun
    obtain ⟨_, w, hend, hrun⟩ := Parser.bind_eq_ok hrun
    obtain ⟨hsemicolon, rfl⟩ := Parser.expect_eq_ok (by decide) hend
    cases hrun
    obtain ⟨hle, htidy⟩ := tidy_of_built feature_built hstrict hfeature
    exact ⟨rfl, u.position, hle, hsemicolon, rfl, fun _ => htidy⟩
  · intro scope s t unit _ hrun _
    obtain ⟨valueStart, _, hvalue, hrun⟩ := Parser.bind_eq_ok hrun
    cases hvalue
    obtain ⟨_, u, hskip, hrun⟩ := Parser.bind_eq_ok hrun
    obtain ⟨value, _, hvalue, hrun⟩ := Parser.bind_eq_ok hrun
    cases hvalue
    obtain ⟨_, w, hend, hrun⟩ := Parser.bind_eq_ok hrun
    obtain ⟨hsemicolon, rfl⟩ := Parser.expect_eq_ok (by decide) hend
    cases hrun
    exact ⟨rfl, u.position, skipToSemicolon_steady.le hskip, hsemicolon, rfl,
      fun htidy => htidy _ (List.mem_singleton_self _)⟩

/-- A pragma is passed over, if its tokens are tidy. -/
theorem pragmaDirective_passedOver : pragmaDirective.Ensures [] fun lexemes tolerant i unit j =>
    tolerant = false → PassedOver lexemes i unit j := by
  rw [pragmaDirective_eq]
  refine .within <| .opening <| .ofParser ?_
  intro scope s t unit hshows hrun hstrict
  have hkeyword : scope.lexemes.kindAt s.position = .kwPragma := hshows.1
  obtain ⟨start, _, hstart, hrun⟩ := Parser.bind_eq_ok hrun
  cases hstart
  rw [Parser.bind_of_ok (Parser.advance_run (by rw [hkeyword]; decide))] at hrun
  obtain ⟨name, _, hname, hrun⟩ := Parser.bind_eq_ok hrun
  obtain ⟨hident, rfl⟩ := Parser.expectIdent_eq_ok hname
  obtain ⟨hpath, m, hle, hend, hj, htidy⟩ := pragmaRest_ensures _ _ _ _ trivial hrun hstrict
  rw [hj]
  exact ⟨hpath, by simp at hle; omega, fun h => afterAll?_pragma hkeyword hident hle (htidy h) hend⟩

/-! ### Imports -/

/-- An import begins with its keyword. -/
theorem importDirective_begins :
    importDirective.Ensures [] fun lexemes _ i _ j => lexemes.kindAt i = .kwImport ∧ i < j := by
  rw [importDirective_eq]
  refine .within <| .opening <| .ofParser ?_
  intro scope s t v hshows hrun
  have hmoves : Moves [.kwImport] _ :=
    .keyword (f := importRest) (by decide) fun _ => importRest_steady.sooner
  exact ⟨hshows.1, hmoves scope s t v hshows hrun⟩

/-! ### Declarations -/

variable {inner : Inner} (hi : inner.Built)

/-- No declaration has a path. -/
theorem declarations_noPath : (Rule.firstOf (declarations inner)).Ensures [] fun _ _ _ unit _ =>
    SourceUnit.importPaths [unit] = [] := by
  have none {α : Type} {r : Rule α} {f : α → SourceUnit .parsed}
      (hf : ∀ v, SourceUnit.importPaths [f v] = []) :
      (r.map f).Ensures [] fun _ _ _ unit _ => SourceUnit.importPaths [unit] = [] :=
    .map fun _ _ v _ _ => hf v
  exact .orElse (none fun _ => rfl) <| .orElse (none fun _ => rfl) <|
    .orElse (none fun _ => rfl) <| .orElse (none fun _ => rfl) <|
    .orElse (none fun _ => rfl) <| .orElse (none fun _ => rfl) <|
    .orElse (none fun _ => rfl) <| .orElse (none fun _ => rfl) <|
    .orElse (none fun _ => rfl) .none

include hi

/-- So is every declaration that is read without tolerance. -/
theorem declarations_passedOver : (Rule.firstOf (declarations inner)).Ensures []
    fun lexemes tolerant i unit j => tolerant = false → PassedOver lexemes i unit j := by
  intro scope s unit hshows hv hstrict
  obtain ⟨hlt, hends⟩ := declarations_close hi scope s unit hshows hv hstrict
  refine ⟨declarations_noPath scope s unit hshows hv, Nat.le_of_lt hlt, fun htidy => ?_⟩
  have hfollows := Rule.Built.follows (a := {}) (declarations_built hi) hv
  rw [hstrict] at hfollows
  obtain ⟨atUnit, hall⟩ := hfollows.afterAll? (by simpa [Ledger.note] using htidy) ⟨[], true⟩ rfl
  have hconcat := hall
  rw [Lexemes.kinds_concat hlt] at hconcat
  have hunit : atUnit = true := ScanState.atUnit_of_afterAll? hconcat rfl hends
  rw [hall, hunit]
  rfl

/-! ### Units -/

/-- What is found after a unit is found before it, behind its path if it has one. -/
theorem sourceUnit_finds (hstrict : scope.tolerant = false)
    (hunit : (sourceUnit inner).Gives scope i unit j)
    (htidy : ∀ passage ∈ unit.passages, ScanState.tidy (scope.lexemes.kinds passage) = true)
    (hrest : Finds scope j paths) : Finds scope i (SourceUnit.importPaths [unit] ++ paths) := by
  rw [sourceUnit_eq] at hunit
  rcases hunit.of_named.orElse with hpragma | hunit
  · exact (pragmaDirective_passedOver.of_gives hpragma hstrict).finds htidy hrest
  · rcases hunit.orElse with himport | hdeclaration
    · obtain ⟨directive, hdirective, rfl⟩ := himport.of_map
      obtain ⟨hkind, hlt⟩ := importDirective_begins.of_gives hdirective
      obtain ⟨s, t, hrun, rfl, rfl⟩ := hdirective.finish
      exact finds_import hkind hlt (importDirective_steady.finish.reads hrun) hrest
    · exact ((declarations_passedOver hi).of_gives hdeclaration hstrict).finds htidy hrest

end SolidityParser.Grammar
