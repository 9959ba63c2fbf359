import SolidityParser.Proofs.Accounts.Parser
import SolidityParser.Proofs.Complete.Declaration
import SolidityParser.Proofs.Imports.Scan
import SolidityParser.Proofs.Production.Bracket
import SolidityParser.Proofs.Reading
import SolidityParser.Proofs.Sound.Declaration

/-!
# What a scan for imports accepts

A scan splits the tokens of a source into units: import directives, as the grammar has them, and
other stretches of tokens, which are only passed over. Of these the brackets are nested properly,
and each ends at its first semicolon outside of all brackets, or its first brace that closes an
outermost group (`Lexemes.Passes`). A scan succeeds if and only if the source is not too long and
the tokens before the end of the input can be split so; there is then only one way to do it, and
what is found are the paths of the imports in their order (`Source.scanImports_eq_ok_iff`).

The brackets that are open after the first tokens of a stretch (`Kind.pass?`) are what the scanner
keeps in its loop.
-/

namespace SolidityParser

/-! ### Units -/

namespace Lexemes

variable {lexemes : Lexemes} {i j k : Nat}

/-- A unit that begins at `i` and is no import ends before `j`: the last token is a semicolon
outside of all brackets, or a brace that closes an outermost group. -/
def EndsUnit (lexemes : Lexemes) (i j : Nat) : Prop :=
  i < j ∧
    (lexemes.kindAt (j - 1) = .semicolon ∧ Kind.Nested (lexemes.kinds ⟨i, j - 1⟩) ∨
      lexemes.kindAt (j - 1) = .rbrace ∧ Kind.Nested (lexemes.kinds ⟨i, j⟩))

/-- The tokens from `i` up to `j` are passed over as one unit. -/
structure Passes (lexemes : Lexemes) (i j : Nat) : Prop where
  /-- It is no import. -/
  noImport : lexemes.kindAt i ≠ .kwImport
  /-- The end of the input is not passed. -/
  goesOn : lexemes.GoesOn i j
  /-- Brackets are nested properly. -/
  nested : Kind.Nested (lexemes.kinds ⟨i, j⟩)
  /-- It ends as a unit does. -/
  ends : lexemes.EndsUnit i j
  /-- It does not end so before. -/
  first : ∀ k, lexemes.EndsUnit i k → j ≤ k

end Lexemes

/-- A unit of a source, as a scan for imports sees it. -/
inductive ScanUnit
  /-- An import. -/
  | imported (directive : ImportDirective Extent)
  /-- Any other tokens. -/
  | passed (place : Extent)

namespace ScanUnit

/-- The tokens of a unit. -/
def place : ScanUnit → Extent
  | .imported directive => directive.place
  | .passed place => place

/-- The path of an import. -/
def path? : ScanUnit → Option String
  | .imported directive => some directive.path
  | .passed _ => none

end ScanUnit

namespace Lexemes

/-- The unit stands where its place says. -/
def HasUnit (lexemes : Lexemes) : ScanUnit → Prop
  | .imported directive =>
    lexemes.IsPhrase directive.place.first (.unit (.importDirective directive)) directive.place.next
  | .passed place => lexemes.Passes place.first place.next

/-- The tokens from `i` up to `j` are split into units, which stand one after the other. -/
def Splits (lexemes : Lexemes) : Nat → List ScanUnit → Nat → Prop
  | i, [], j => i = j
  | i, unit :: units, j =>
    unit.place.first = i ∧ lexemes.HasUnit unit ∧ lexemes.Splits unit.place.next units j

/-- All tokens before the end of the input are split into units. -/
def SplitsWhole (lexemes : Lexemes) (units : List ScanUnit) : Prop :=
  ∃ j, lexemes.Splits 0 units j ∧ lexemes.kindAt j = .eof

variable {lexemes : Lexemes} {i j k : Nat} {closers : List Kind}

/-! ### Open brackets -/

/-- The brackets still to be closed at `j`, innermost first, in a stretch that begins at `i`. -/
def closers? (lexemes : Lexemes) (i j : Nat) : Option (List Kind) :=
  (lexemes.kinds ⟨i, j⟩).foldlM Kind.pass? []

/-- At its start nothing is open in a stretch. -/
theorem closers?_self : lexemes.closers? i i = some [] := by
  unfold closers?
  rw [kinds_self]
  rfl

/-- One more token opens a bracket, closes one, or leaves them as they are. -/
theorem closers?_succ (h : i ≤ j) :
    lexemes.closers? i (j + 1) = (lexemes.closers? i j).bind (Kind.pass? · (lexemes.kindAt j)) := by
  unfold closers?
  rw [kinds_concat (Nat.lt_succ_of_le h), List.foldlM_append, Nat.succ_sub_one]
  show Option.bind _ _ = _
  congr 1
  funext closers
  rw [List.foldlM_cons]
  cases Kind.pass? closers (lexemes.kindAt j) <;> rfl

/-- A stretch is nested if it can be passed with nothing left open. -/
theorem nested_iff_closers? :
    Kind.Nested (lexemes.kinds ⟨i, j⟩) ↔ lexemes.closers? i j = some [] :=
  Kind.nested_iff_foldlM_pass?

/-- What is passed as a whole is passed up to any token of it. -/
theorem closers?_of_le (h : lexemes.closers? i k ≠ none) (hij : i ≤ j) (hjk : j ≤ k) :
    ∃ closers, lexemes.closers? i j = some closers := by
  rw [← Option.ne_none_iff_exists']
  intro hnone
  refine h ?_
  unfold closers? at hnone ⊢
  rw [← kinds_append hij hjk, List.foldlM_append, hnone]
  rfl

/-- A unit ends after a token that ends units, if no bracket is open then. -/
theorem endsUnit_succ_iff (hle : i ≤ j) (h : lexemes.closers? i (j + 1) = some closers) :
    lexemes.EndsUnit i (j + 1) ↔ closers = [] ∧
      (lexemes.kindAt j = .semicolon ∨ lexemes.kindAt j = .rbrace) := by
  have hlt : i < j + 1 := Nat.lt_succ_of_le hle
  unfold EndsUnit
  rw [Nat.add_sub_cancel, nested_iff_closers?, nested_iff_closers?, h, Option.some_inj]
  rw [closers?_succ hle] at h
  obtain ⟨before, hbefore, hpass⟩ := Option.bind_eq_some_iff.mp h
  rw [hbefore, Option.some_inj]
  constructor
  · rintro ⟨-, ⟨hk, rfl⟩ | ⟨hk, rfl⟩⟩
    · rw [hk] at hpass
      cases hpass
      exact ⟨rfl, .inl hk⟩
    · exact ⟨rfl, .inr hk⟩
  · rintro ⟨rfl, hk | hk⟩
    · rw [hk] at hpass
      cases hpass
      exact ⟨hlt, .inl ⟨hk, rfl⟩⟩
    · exact ⟨hlt, .inr ⟨hk, rfl⟩⟩

end Lexemes

/-- Within a unit, the state after a token is that of its brackets. -/
theorem ScanState.after?_eq {closers : List Kind} {k : Kind} (hk : k ≠ .eof) :
    (ScanState.mk closers false).after? k = (k.pass? closers).map fun closers =>
      ⟨closers, closers.isEmpty && (k == .semicolon || k == .rbrace)⟩ := by
  unfold after? Kind.pass?
  cases hopen : k.closer? with
  | some closer => rfl
  | none =>
    dsimp only
    split_ifs with hclose hhead heof
    · have hne : (k == .semicolon) = false := by
        rw [beq_eq_false_iff_ne]
        rintro rfl
        cases hclose
      rw [Option.map_some, hne, Bool.false_or]
    · rfl
    · exact absurd heof (by simpa using hk)
    · have hne : (k == .rbrace) = false := by
        rw [beq_eq_false_iff_ne]
        rintro rfl
        exact hclose rfl
      rw [Option.map_some, hne, Bool.or_false]

namespace Grammar

open SolidityParser.Parser (Reads)

variable {scope : Scope} {i j k : Nat}

/-! ### Passing over a unit -/

/-- Within a unit that begins at `i`, a token is entered if it can be passed, and then a unit begins
after it if the one that began at `i` ends. -/
theorem after?_eq_some_iff {closers : List Kind} {state : ScanState} (hle : i ≤ k)
    (hk : scope.lexemes.kindAt k ≠ .eof) (h : scope.lexemes.closers? i k = some closers) :
    (ScanState.mk closers false).after? (scope.lexemes.kindAt k) = some state ↔
      scope.lexemes.closers? i (k + 1) = some state.closers ∧
        (state.atUnit = true ↔ scope.lexemes.EndsUnit i (k + 1)) := by
  have hsucc : scope.lexemes.closers? i (k + 1) = (scope.lexemes.kindAt k).pass? closers := by
    rw [Lexemes.closers?_succ hle, h]
    rfl
  have hends (hpass : (scope.lexemes.kindAt k).pass? closers = some state.closers) :
      scope.lexemes.EndsUnit i (k + 1) ↔ (state.closers.isEmpty &&
        (scope.lexemes.kindAt k == .semicolon || scope.lexemes.kindAt k == .rbrace)) = true := by
    rw [Lexemes.endsUnit_succ_iff hle (hsucc.trans hpass), Bool.and_eq_true, List.isEmpty_iff,
      Bool.or_eq_true, beq_iff_eq, beq_iff_eq]
  rw [ScanState.after?_eq hk, hsucc]
  constructor
  · intro hafter
    obtain ⟨closers', hpass, rfl⟩ := Option.map_eq_some_iff.mp hafter
    exact ⟨hpass, (hends hpass).symm⟩
  · rintro ⟨hpass, hunit⟩
    rw [hpass, Option.map_some, ← Bool.eq_iff_iff.mpr (hunit.trans (hends hpass))]

/-- The loop that passes over a unit goes on up to the end of it. -/
theorem skipsTo_of_passes (h : scope.lexemes.Passes i j) {closers : List Kind} (hik : i ≤ k)
    (hkj : k < j) (hclosers : scope.lexemes.closers? i k = some closers) :
    SkipsTo scope closers k j := by
  have hwhole : scope.lexemes.closers? i j ≠ none := by
    rw [Lexemes.nested_iff_closers?.mp h.nested]
    exact Option.some_ne_none _
  obtain ⟨n, hn⟩ := Nat.exists_eq_add_of_lt hkj
  induction n generalizing k closers with
  | zero =>
    obtain rfl : j = k + 1 := hn
    obtain ⟨closers', hnext⟩ := Option.ne_none_iff_exists'.mp hwhole
    have hafter : (ScanState.mk closers false).after? _ = some ⟨closers', true⟩ :=
      (after?_eq_some_iff hik (h.goesOn k hik hkj) hclosers).mpr ⟨hnext, iff_of_true rfl h.ends⟩
    exact skipsTo_last hafter rfl
  | succ n ih =>
    obtain ⟨closers', hnext⟩ :=
      Lexemes.closers?_of_le hwhole (Nat.le_succ_of_le hik) (Nat.succ_le_of_lt hkj)
    have hmore : ¬ scope.lexemes.EndsUnit i (k + 1) := fun hends => by
      have := h.first (k + 1) hends
      omega
    have hafter : (ScanState.mk closers false).after? _ = some ⟨closers', false⟩ :=
      (after?_eq_some_iff hik (h.goesOn k hik hkj) hclosers).mpr
        ⟨hnext, iff_of_false Bool.false_ne_true hmore⟩
    exact skipsTo_step hafter rfl (ih (Nat.le_succ_of_le hik) (by omega) hnext (by omega))

/-- A stretch that passes as a unit is skipped. -/
theorem skipUnit_reads_of_passes (h : scope.lexemes.Passes i j) : Reads scope i skipUnit () j :=
  skipUnit_reads (skipsTo_of_passes h (Nat.le_refl i) h.ends.1 Lexemes.closers?_self)

/-- Where the loop that passes over a unit stands at `k`: the unit, begun at `i`, has not ended
before, and the loop goes on unless it ends there. -/
structure Passing (lexemes : Lexemes) (i : Nat) (progress : List Kind × Bool) (k : Nat) :
    Prop where
  /-- The position does not go back. -/
  le : i ≤ k
  /-- The end of the input is not passed. -/
  goesOn : lexemes.GoesOn i k
  /-- The brackets that are open are known. -/
  closers : lexemes.closers? i k = some progress.1
  /-- The loop goes on unless the unit ends. -/
  more : progress.2 = false ↔ lexemes.EndsUnit i k
  /-- The unit does not end before. -/
  first : ∀ m, lexemes.EndsUnit i m → k ≤ m

/-- At the start of a unit nothing is open, and nothing was passed. -/
theorem passing_start (lexemes : Lexemes) (i : Nat) : Passing lexemes i ([], true) i where
  le := Nat.le_refl i
  goesOn := .refl i
  closers := Lexemes.closers?_self
  more := iff_of_false nofun fun h => Nat.lt_irrefl i h.1
  first _ h := Nat.le_of_lt h.1

/-- One more token is passed. -/
theorem Passing.step {closers : List Kind} {state : ScanState}
    (h : Passing scope.lexemes i (closers, true) k)
    (hafter : (ScanState.mk closers false).after? (scope.lexemes.kindAt k) = some state) :
    Passing scope.lexemes i (state.closers, !state.atUnit) (k + 1) := by
  have hk : scope.lexemes.kindAt k ≠ .eof := by
    intro heof
    rw [heof] at hafter
    cases hafter
  obtain ⟨hclosers, hunit⟩ := (after?_eq_some_iff h.le hk h.closers).mp hafter
  refine ⟨Nat.le_succ_of_le h.le, h.goesOn.trans (.step hk), hclosers, ?_, fun m hm => ?_⟩
  · rw [Bool.not_eq_false', hunit]
  · have hne : k ≠ m := by
      rintro rfl
      exact absurd (h.more.mpr hm) nofun
    have := h.first m hm
    omega

/-- A unit at whose end the loop stops is passed over. -/
theorem Passing.passes {closers : List Kind} (h : Passing scope.lexemes i (closers, false) j)
    (himport : scope.lexemes.kindAt i ≠ .kwImport) : scope.lexemes.Passes i j := by
  have hends := h.more.mp rfl
  obtain ⟨k, rfl⟩ : ∃ k, j = k + 1 := ⟨j - 1, by have := hends.1; omega⟩
  refine ⟨himport, h.goesOn, ?_, hends, h.first⟩
  rw [Lexemes.nested_iff_closers?, h.closers]
  exact congrArg some ((Lexemes.endsUnit_succ_iff (Nat.le_of_lt_succ hends.1) h.closers).mp hends).1

/-- A round of the loop passes one more token, and reports nothing. -/
theorem Passing.round {progress next : List Kind × Bool} {s t : ParseState}
    (h : Passing scope.lexemes i progress s.position)
    (hstep : skipStep progress scope s = .ok (some next) t) :
    Passing scope.lexemes i next t.position ∧ t = { s with position := s.position + 1 } := by
  obtain ⟨hmore, state, hafter, rfl, rfl⟩ := skipStep_eq_ok hstep
  obtain ⟨closers, more⟩ := progress
  cases hmore
  exact ⟨h.step hafter, rfl⟩

/-- What is skipped passes as a unit. -/
theorem passes_of_skipUnit (h : skipUnit.Gives scope i () j)
    (himport : scope.lexemes.kindAt i ≠ .kwImport) : scope.lexemes.Passes i j := by
  obtain ⟨⟨closers, more⟩, k, hloop, hrest⟩ := Parser.Gives.bind h
  obtain ⟨-, rfl⟩ := hrest.pure
  have hskip : (Parser.iterate skipStep ([], true)).Gives scope i (closers, more) j := hloop
  obtain ⟨l, hpassing, hlast⟩ := hskip.iterate (passing_start _ i) (by
    rintro progress _ next _ hpassing ⟨s, t, hstep, rfl, rfl⟩
    exact (hpassing.round hstep).1)
  unfold skipStep at hlast
  split at hlast
  · obtain ⟨_, -, hnone⟩ := hlast.map
    cases hnone
  · next hmore =>
    obtain ⟨-, rfl⟩ := hlast.pure
    rw [Bool.not_eq_true] at hmore
    cases hmore
    exact hpassing.passes himport

/-! ### Units -/

/-- What a round of the scan gives, other than the end, is a unit that stands where it began. -/
theorem scanStep_gives {path? : Option String} (h : scanStep.Gives scope i (some path?) j) :
    ∃ unit : ScanUnit, unit.place = ⟨i, j⟩ ∧ scope.lexemes.HasUnit unit ∧ unit.path? = path? := by
  rcases Parser.Gives.check h with ⟨-, h⟩ | ⟨-, h⟩
  · rw [if_pos rfl] at h
    cases h.pure.1
  · rw [if_neg Bool.false_ne_true] at h
    rcases h.kindIf with ⟨-, h⟩ | ⟨himport, h⟩
    · obtain ⟨directive, k, hread, h⟩ := h.bind
      obtain ⟨hpath, rfl⟩ := h.pure
      cases hpath
      have hphrase := importDirective_isPhrase hread.finish
      have hplace : directive.place = ⟨i, j⟩ := hphrase.place
      refine ⟨.imported directive, hplace, ?_, rfl⟩
      show scope.lexemes.IsPhrase directive.place.first _ directive.place.next
      rwa [hplace]
    · obtain ⟨_, k, hskip, h⟩ := h.bind
      obtain ⟨hpath, rfl⟩ := h.pure
      cases hpath
      exact ⟨.passed ⟨i, j⟩, rfl, passes_of_skipUnit hskip himport, rfl⟩

/-- A round that gives the end stands at the end of the input. -/
theorem scanStep_gives_none (h : scanStep.Gives scope i none j) :
    scope.lexemes.kindAt i = .eof ∧ j = i := by
  rcases Parser.Gives.check h with ⟨heof, h⟩ | ⟨-, h⟩
  · rw [if_pos rfl] at h
    exact ⟨heof, h.pure.2⟩
  · rw [if_neg Bool.false_ne_true] at h
    rcases h.kindIf with ⟨-, h⟩ | ⟨-, h⟩
    · obtain ⟨_, _, -, h⟩ := h.bind
      cases h.pure.1
    · obtain ⟨_, _, -, h⟩ := h.bind
      cases h.pure.1

end Grammar

namespace Lexemes

variable {lexemes : Lexemes} {i j k : Nat} {unit other : ScanUnit} {units others : List ScanUnit}

/-- An import begins with its keyword. -/
theorem IsPhrase.kindAt_import {directive : ImportDirective Extent}
    (h : lexemes.IsPhrase i (.unit (.importDirective directive)) j) :
    lexemes.kindAt i = .kwImport := by
  obtain ⟨symbols, hphrased, hspells⟩ := h.written
  cases hphrased with
  | importFile | importAll | importNames => exact hspells.1.2
  | unit hmember => cases hmember

namespace HasUnit

/-- A unit takes up at least one token. -/
theorem lt (h : lexemes.HasUnit unit) : unit.place.first < unit.place.next := by
  cases unit with
  | imported directive => exact IsPhrase.lt h
  | passed place => exact (Passes.ends h).1

/-- It does not begin at the end of the input. -/
theorem kindAt_ne_eof (h : lexemes.HasUnit unit) : lexemes.kindAt unit.place.first ≠ .eof := by
  cases unit with
  | imported directive =>
    show lexemes.kindAt directive.place.first ≠ .eof
    rw [IsPhrase.kindAt_import h]
    decide
  | passed place => exact Passes.goesOn h _ (Nat.le_refl _) (Passes.ends h).1

/-- It ends in the input. -/
theorem le_size (h : lexemes.HasUnit unit) : unit.place.next ≤ lexemes.size := by
  cases unit with
  | imported directive => exact IsPhrase.le_size h
  | passed place =>
    have hlt := lt_size_of_kindAt (Passes.goesOn h (place.next - 1)
      (by have := (Passes.ends h).1; omega) (by have := (Passes.ends h).1; omega))
    show place.next ≤ lexemes.size
    omega

/-- A unit is read by a round of the scan. -/
theorem reads {scope : Scope} (h : scope.lexemes.HasUnit unit) :
    Parser.Reads scope unit.place.first Grammar.scanStep (some unit.path?) unit.place.next := by
  have hne := h.kindAt_ne_eof
  cases unit with
  | imported directive =>
    exact .bind (.check_not hne) <| .kindIf (IsPhrase.kindAt_import h) <|
      .bind (.finish (Grammar.importDirective_reads h)) .pure
  | passed place =>
    exact .bind (.check_not hne) <| .kindElse (Passes.noImport h) <|
      .bind (Grammar.skipUnit_reads_of_passes h) .pure

/-- Only one unit begins at a token. -/
theorem unique (h : lexemes.HasUnit unit) (h' : lexemes.HasUnit other)
    (hfirst : unit.place.first = other.place.first) : unit = other := by
  match unit, other with
  | .imported directive, .imported directive' =>
    have hread : Grammar.importDirective.Reads { lexemes } directive.place.first directive _ :=
      Grammar.importDirective_reads h
    have hread' : Grammar.importDirective.Reads { lexemes } directive'.place.first directive' _ :=
      Grammar.importDirective_reads h'
    rw [show directive'.place.first = directive.place.first from hfirst.symm] at hread'
    exact congrArg ScanUnit.imported (hread.unique hread').1
  | .imported directive, .passed place =>
    have himport := IsPhrase.kindAt_import h
    rw [show directive.place.first = place.first from hfirst] at himport
    exact absurd himport (Passes.noImport h')
  | .passed place, .imported directive =>
    have himport := IsPhrase.kindAt_import h'
    rw [show directive.place.first = place.first from hfirst.symm] at himport
    exact absurd himport (Passes.noImport h)
  | .passed ⟨i, j⟩, .passed ⟨i', j'⟩ =>
    obtain rfl : i = i' := hfirst
    have hle : j ≤ j' := Passes.first h j' (Passes.ends h')
    have hge : j' ≤ j := Passes.first h' j (Passes.ends h)
    rw [Nat.le_antisymm hle hge]

end HasUnit

/-! ### Splits -/

/-- No two splits of a whole input differ. -/
theorem Splits.unique {l : Nat} (h : lexemes.Splits i units j) (hj : lexemes.kindAt j = .eof)
    (h' : lexemes.Splits i others l) (hl : lexemes.kindAt l = .eof) : units = others := by
  induction units generalizing i others with
  | nil =>
    obtain rfl : i = j := h
    cases others with
    | nil => rfl
    | cons other others =>
      obtain ⟨rfl, hunit, -⟩ := h'
      exact absurd hj hunit.kindAt_ne_eof
  | cons unit units ih =>
    obtain ⟨rfl, hunit, hrest⟩ := h
    cases others with
    | nil =>
      obtain rfl : unit.place.first = l := h'
      exact absurd hl hunit.kindAt_ne_eof
    | cons other others =>
      obtain ⟨hfirst, hother, hmore⟩ := h'
      obtain rfl := hunit.unique hother hfirst.symm
      rw [ih hrest hmore]

/-- What the rounds of a scan give are the units of a split. -/
theorem splits_of_collected {scope : Scope} {paths : List (Option String)}
    (h : Collected scope Grammar.scanStep i paths j) :
    ∃ units, scope.lexemes.Splits i units j ∧ scope.lexemes.kindAt j = .eof ∧
      units.map (·.path?) = paths := by
  induction h with
  | nil last =>
    obtain ⟨heof, rfl⟩ := Grammar.scanStep_gives_none last
    exact ⟨[], rfl, heof, rfl⟩
  | cons first _ ih =>
    obtain ⟨unit, hplace, hunit, rfl⟩ := Grammar.scanStep_gives first
    obtain ⟨units, hsplits, heof, rfl⟩ := ih
    refine ⟨unit :: units, ⟨by rw [hplace], hunit, ?_⟩, heof, rfl⟩
    rwa [hplace]

/-- The units of a split are read by the rounds of a scan. -/
theorem Splits.gathers {scope : Scope} (h : scope.lexemes.Splits i units j)
    (hj : scope.lexemes.kindAt j = .eof) :
    Parser.Gathers scope Grammar.scanStep i (units.map (·.path?)) j := by
  induction units generalizing i with
  | nil =>
    obtain rfl : i = j := h
    exact .nil (.bind (.check hj) .pure)
  | cons unit units ih =>
    obtain ⟨rfl, hunit, hrest⟩ := h
    exact .cons hunit.reads hunit.lt (ih hrest) hunit.le_size

end Lexemes

/-! ### Sources -/

namespace Grammar

open SolidityParser.Parser (Reads)

variable {lexemes : Lexemes} {paths : List String}

/-- A scan succeeds if its input can be split, and finds the paths of the units. -/
theorem scanImports_eq_ok_iff_splits : scanImports lexemes = .ok paths ↔
    ∃ units, lexemes.SplitsWhole units ∧ units.filterMap (·.path?) = paths := by
  have hfilter (units : List ScanUnit) :
      (units.map (·.path?)).filterMap id = units.filterMap (·.path?) := by
    rw [List.filterMap_map]
    rfl
  unfold scanImports run
  rw [importPaths_eq]
  constructor
  · intro h
    split at h
    · next found t hrun =>
      cases h
      obtain ⟨rounds, j, hcollect, hfound⟩ := (Parser.Gives.of_run hrun).bind
      obtain ⟨rfl, rfl⟩ := hfound.pure
      obtain ⟨units, hsplits, heof, rfl⟩ := Lexemes.splits_of_collected hcollect.collect
      exact ⟨units, ⟨_, hsplits, heof⟩, (hfilter units).symm⟩
    · cases h
  · rintro ⟨units, ⟨j, hsplits, heof⟩, rfl⟩
    have hgathers : Parser.Gathers { lexemes } scanStep 0 _ j := hsplits.gathers heof
    have hread : Reads { lexemes } 0
        (Parser.collect scanStep >>= fun paths => pure (paths.filterMap id)) _ j :=
      (Reads.collect hgathers).bind .pure
    obtain ⟨trail, hrun⟩ := hread {}
    rw [hrun, ← hfilter units]

/-- The imports of a split are what the rule for import directives accepts. -/
theorem importDirective_gives_iff {scope : Scope} {directive : ImportDirective Extent} {i j : Nat} :
    importDirective.Gives scope i directive j ↔
      scope.lexemes.IsPhrase i (.unit (.importDirective directive)) j := by
  refine ⟨importDirective_isPhrase, fun h => ?_⟩
  obtain ⟨outcome, trail, hrun, hvalue⟩ := importDirective_reads h {}
  exact ⟨⟨i, {}⟩, rfl, by rw [hrun]; exact hvalue, by rw [hrun]⟩

end Grammar

namespace Source

/-- A scan for imports succeeds if and only if the source is not too long and its tokens, before the
end of the input, can be split into units; it finds the paths of the imports among them, in their
order. There is no more than one way to split them. The imports of a split are what the rule for an
`import` directive accepts. -/
theorem scanImports_eq_ok_iff (source : String) :
    (∀ paths, scanImports source = .ok paths ↔
      WithinLimit source ∧ ∃ units, (lex source).tokens.lexemes.SplitsWhole units ∧
        units.filterMap (·.path?) = paths) ∧
    Subsingleton {units // (lex source).tokens.lexemes.SplitsWhole units} ∧
    ∀ directive i j,
      Grammar.importDirective.Gives { lexemes := (lex source).tokens.lexemes } i directive j ↔
        (lex source).tokens.lexemes.IsPhrase i (.unit (.importDirective directive)) j := by
  refine ⟨fun paths => ?_, ?_, fun directive i j => Grammar.importDirective_gives_iff⟩
  · rw [← Grammar.scanImports_eq_ok_iff_splits]
    refine read_eq_ok_iff.trans (and_congr_right fun _ => ?_)
    rw [exists_eq_right']
  · refine ⟨?_⟩
    rintro ⟨units, j, hsplits, hj⟩ ⟨others, l, hsplits', hl⟩
    exact Subtype.ext (hsplits.unique hj hsplits' hl)

end Source

end SolidityParser
