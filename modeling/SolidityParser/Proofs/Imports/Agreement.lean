import SolidityParser.Proofs.Imports.Units
import SolidityParser.Proofs.Lexer.Dispatch
import SolidityParser.Proofs.Reading

/-!
# The scan for imports agrees with the parse

`Source.scanImports_eq_importPaths`: of a source that is parsed without tolerance, and whose unread
passages are tidy, the scan finds the paths of the imports in its tree. The passages matter because
no rule reads them: the parse accepts any tokens as the value of a pragma and any but unmatched
braces in assembly, where the scan wants every bracket matched
(`Source.scanDisagrees_untidy`).

The proof goes through the units from the back: what is found after a unit is found before it.
-/

namespace SolidityParser

/-! ### Paths -/

namespace SourceUnit

variable {F G : Form}

/-- The paths of units are those of the first, then those of the others. -/
theorem importPaths_cons (unit : SourceUnit F) (units : List (SourceUnit F)) :
    importPaths (unit :: units) = importPaths [unit] ++ importPaths units := by
  rw [← List.singleton_append, importPaths, List.filterMap_append]
  rfl

/-- Placing units in a source changes no path. -/
theorem importPaths_relocate (r : Relocation F G) (units : List (SourceUnit F)) :
    importPaths (units.map (·.relocate r)) = importPaths units := by
  unfold importPaths
  rw [List.filterMap_map]
  congr 1
  funext unit
  cases unit <;> rfl

end SourceUnit

/-! ### Units in a row -/

namespace Grammar

open SolidityParser.Parser (Reads)

variable {scope : Scope} {inner : Inner} (hi : inner.Built)

include hi

/-- Of the units that are parsed, the scanner finds the imports. -/
theorem collectAtFuel_finds (hstrict : scope.tolerant = false) (fuel : Nat) {s t : ParseState}
    {units : List (SourceUnit .parsed)}
    (h : Parser.collectAtFuel (nextUnit? inner) fuel scope s = .ok units t)
    (htidy : ∀ unit ∈ units, ∀ passage ∈ unit.passages,
      ScanState.tidy (scope.lexemes.kinds passage) = true) :
    Finds scope s.position (SourceUnit.importPaths units) := by
  induction fuel generalizing s units with
  | zero => cases h
  | succ fuel ih =>
    unfold Parser.collectAtFuel at h
    obtain ⟨next, u, hstep, hrest⟩ := Parser.bind_eq_ok h
    unfold nextUnit? at hstep
    obtain ⟨atEnd, s', hcheck, hstep⟩ := Parser.bind_eq_ok hstep
    rw [Parser.check_run] at hcheck
    split at hcheck
    · next heof =>
      cases hcheck
      cases hstep
      cases hrest
      exact finds_eof heof
    · cases hcheck
      rw [if_neg Bool.false_ne_true, ← bind_pure_comp] at hstep
      obtain ⟨unit, _, hunit, hsome⟩ := Parser.bind_eq_ok hstep
      cases hsome
      obtain ⟨rest, _, hmore, hdone⟩ := Parser.bind_eq_ok hrest
      cases hdone
      have hgives := Rule.Gives.of_finish hunit
      rw [SourceUnit.importPaths_cons]
      exact sourceUnit_finds hi hstrict hgives (htidy unit List.mem_cons_self)
        (ih hmore fun unit hmem => htidy unit (List.mem_cons_of_mem _ hmem))

omit hi in
/-- Of units whose passages are tidy, the scan finds the imports. -/
theorem scanImports_of_parseUnits {lexemes : Lexemes} {units : List (SourceUnit .parsed)}
    (h : parseUnits lexemes = .ok units)
    (htidy : ∀ unit ∈ units, ∀ passage ∈ unit.passages,
      ScanState.tidy (lexemes.kinds passage) = true) :
    scanImports lexemes = .ok (SourceUnit.importPaths units) := by
  unfold parseUnits run at h
  cases hrun : Grammar.units (Inner.ofLexemes lexemes) { lexemes } {} with
  | error fault t =>
    rw [hrun] at h
    cases h
  | ok value t =>
    rw [hrun] at h
    cases h
    rw [units_eq] at hrun
    obtain ⟨fuel, _, hbudget, hcollect⟩ := Parser.bind_eq_ok hrun
    cases hbudget
    have hfinds := collectAtFuel_finds (Inner.built_ofLexemes lexemes) rfl _ hcollect htidy
    obtain ⟨found, j, hfound, hpaths⟩ := hfinds _ (Nat.lt_succ_self _)
    have hcollected : Reads { lexemes } 0 (Parser.collect scanStep) found j :=
      fun trail => hfound trail
    obtain ⟨trail, hscan⟩ := hcollected.bind (f := fun paths => pure (paths.filterMap id)) .pure {}
    unfold scanImports run
    rw [importPaths_eq, hscan, ← hpaths]

end Grammar

/-! ### Sources -/

namespace Source

/-- The kinds of the tokens in each passage of a source that no rule reads: the values of pragmas
and the bodies of assembly blocks. There are none if the source is not parsed. -/
def unreadPassages (source : String) : List (List Kind) :=
  let lexemes := (layout source).tokens.lexemes
  match Grammar.parseUnits lexemes with
  | .ok units => (units.flatMap SourceUnit.passages).map lexemes.kinds
  | .error _ => []

/-- Of a source that is parsed without tolerance, the scan finds the imports, if its unread passages
are tidy. -/
theorem scanImports_eq_importPaths {source : String} {program : Program}
    (h : parse source = .ok program)
    (htidy : ∀ kinds ∈ unreadPassages source, ScanState.tidy kinds = true) :
    scanImports source = .ok program.importPaths := by
  obtain ⟨hsize, units, hunits, rfl⟩ := read_eq_ok_iff.mp h
  have hpassages : unreadPassages source =
      (units.flatMap SourceUnit.passages).map (lex source).tokens.lexemes.kinds := by
    unfold unreadPassages
    dsimp only [layout]
    rw [hunits]
  rw [hpassages] at htidy
  have hscan := Grammar.scanImports_of_parseUnits hunits fun unit hunit passage hpassage =>
    htidy _ (List.mem_map_of_mem (List.mem_flatMap_of_mem hunit hpassage))
  exact read_eq_ok_iff.mpr
    ⟨hsize, _, hscan, (SourceUnit.importPaths_relocate _ units)⟩

/-- Two imports, with a pragma before them and assembly between. -/
def twoImports : String :=
  "pragma solidity ^0.8.0; import 'a'; contract C { function f() { assembly { g(1) } } } " ++
    "import * as B from 'b';"

/-- Both imports of `twoImports` are found. -/
theorem scanImports_eq_importPaths_two :
    ∃ program, parse twoImports = .ok program ∧
      (∀ kinds ∈ unreadPassages twoImports, ScanState.tidy kinds = true) ∧
      scanImports twoImports = .ok program.importPaths := by
  have htext : twoImports = String.ofList _ := Text.append_eq_ofList rfl rfl
  have hok : (parse twoImports).isOk = true := by
    rw [htext, parse, read_ofList]
    decide +kernel
  have htidy : ∀ kinds ∈ unreadPassages twoImports, ScanState.tidy kinds = true := by
    rw [htext, unreadPassages, layout, lex_ofList]
    decide +kernel
  cases h : parse twoImports with
  | error e =>
    rw [h] at hok
    cases hok
  | ok program => exact ⟨program, rfl, htidy, scanImports_eq_importPaths h htidy⟩

/-- The source is parsed, but the scan does not find just the imports in its tree. -/
def ScanDisagrees (source : String) : Prop :=
  ∃ program, parse source = .ok program ∧ scanImports source ≠ .ok program.importPaths

/-- The scan and the tree disagree if it does not find the paths of the program that is parsed. -/
theorem scanDisagrees_iff {source : String} :
    (parse source).isOk = true ∧
      (scanImports source).toOption ≠ (parse source).toOption.map Program.importPaths ↔
        ScanDisagrees source := by
  unfold ScanDisagrees
  cases hparse : parse source <;> cases hscan : scanImports source <;>
    simp [Except.isOk, Except.toBool, Except.toOption]

instance (source : String) : Decidable (ScanDisagrees source) :=
  decidable_of_iff _ scanDisagrees_iff

/-- No part of `ScanState.tidy` can be left out: brackets that do not match, in a pragma or in
assembly, make the scan fail, and an import after a brace is found though no rule reads it. -/
theorem scanDisagrees_untidy :
    ScanDisagrees "pragma a (;" ∧ ScanDisagrees "contract C { function f() { assembly { ( } } }" ∧
      ScanDisagrees "pragma a {} import 'b';" := by
  refine ⟨scanDisagrees_iff.mp ?_, scanDisagrees_iff.mp ?_, scanDisagrees_iff.mp ?_⟩ <;>
  · rw [parse, scanImports, read_ofList, read_ofList]
    decide +kernel

end Source

end SolidityParser
