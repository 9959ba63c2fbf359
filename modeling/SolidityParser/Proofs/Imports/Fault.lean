import SolidityParser.Proofs.Accounts.Report
import SolidityParser.Proofs.Grammar.Invariant
import SolidityParser.Proofs.Imports.Split

/-!
# Where a scan for imports fails

A scan that fails has split the tokens before some unit, and stops in that unit
(`Lexemes.ScanStops`): at the token that an import cannot go on with, at the end of the input, or at
a bracket that closes another one than the innermost that is open. The error is made of the record
of failures, which the scan leaves in two ways. Mostly it reports at the token where it stops. But a
bracket that closes none is not reported; the last report is then that of the end of the input,
which is looked for where each unit begins. So the error points at the token where the scan stopped,
unless that is such a bracket (`Lexemes.Unreported`), and then at the first token of the unit.
-/

namespace SolidityParser

/-! ### Where scans stop -/

namespace Lexemes

variable {lexemes : Lexemes} {u i : Nat}

/-- In a unit that begins at `u`, a scan stops at `i`. -/
inductive ScanStops (lexemes : Lexemes) (u : Nat) : Nat → Prop
  /-- The unit is an import, and the rule for imports fails at the token. -/
  | badImport {i : Nat} {fault : Fault} {trail : Trail} (himport : lexemes.kindAt u = .kwImport)
      (hrun : Grammar.importDirective.finish { lexemes } ⟨u, {}⟩ = .error fault ⟨i, trail⟩) :
      ScanStops lexemes u i
  /-- The unit is none, and has not ended; the input ends, or another bracket is closed than the
  innermost that is open. -/
  | badUnit {i : Nat} {closers : List Kind} (himport : lexemes.kindAt u ≠ .kwImport)
      (hle : u ≤ i) (hgoes : lexemes.GoesOn u i) (hends : ∀ k, lexemes.EndsUnit u k → i < k)
      (hclosers : lexemes.closers? u i = some closers)
      (hstops : lexemes.kindAt i = .eof ∨
        (lexemes.kindAt i).isClose = true ∧ closers.head? ≠ some (lexemes.kindAt i)) :
      ScanStops lexemes u i

/-- In a unit that begins at `u` and is no import, a bracket is closed at `i`, after other tokens,
and none is open. -/
structure Unreported (lexemes : Lexemes) (u i : Nat) : Prop where
  /-- The unit is no import. -/
  noImport : lexemes.kindAt u ≠ .kwImport
  /-- Other tokens stand before the bracket. -/
  later : u < i
  /-- None is open. -/
  closed : lexemes.closers? u i = some []
  /-- A bracket is closed. -/
  closes : (lexemes.kindAt i).isClose = true

end Lexemes

/-- An error of a source is at its token `i`, and names it as the one found where something else was
expected. -/
structure SyntaxError.PointsAt (error : SyntaxError) (source : String) (i : Nat) : Prop where
  /-- It is at the token. -/
  isAt : error.IsAt source i
  /-- It names the token. -/
  found : ∃ token name, (lex source).tokens.get? i = some token ∧ token.IsNamed name ∧
    ∃ expected : List String, expected ≠ [] ∧
      error.message = "Expected " ++ Furthest.joinAlternatives expected ++ " but " ++ name ++
        " found."

/-- The error for a record that is right points at the token of the record. -/
theorem Source.syntaxError_pointsAt {source : String} {trail : Trail} {i : Nat}
    (hexact : trail.Exact) (hreported : trail.reported ≠ []) (hpos : trail.furthest.position = i)
    (hgoes : (lex source).tokens.lexemes.GoesOn 0 i) :
    (syntaxError (layout source) trail.furthest).PointsAt source i := by
  subst hpos
  obtain ⟨token, htoken⟩ := lex_get?_of_goesOn hgoes
  exact ⟨syntaxError_isAt hgoes, token, _, htoken, Furthest.foundAt_isNamed htoken, _,
    Furthest.message_eq (hexact.nonempty hreported) _⟩

/-! ### Records on the way -/

/-- The record of a state is right, and no further on than its position. -/
structure ParseState.Abreast (lexemes : Lexemes) (s : ParseState) : Prop where
  /-- The end of the input is not passed. -/
  goesOn : lexemes.GoesOn 0 s.position
  /-- The record is right. -/
  exact : s.trail.Exact
  /-- It is no further on. -/
  le : s.trail.furthest.position ≤ s.position

namespace ParseState.Abreast

variable {lexemes : Lexemes} {s : ParseState}

/-- A token is reported at the position. -/
theorem addToken (h : s.Abreast lexemes) (k : Kind) :
    ParseState.Abreast lexemes { s with trail := s.trail.addToken s.position k } := by
  have hreports := Trail.reports_addToken s.trail s.position k
  refine ⟨h.goesOn, hreports.exact h.exact, ?_⟩
  rw [hreports.position]
  exact Nat.max_le.mpr ⟨h.le, Nat.le_refl _⟩

/-- What goes only forward keeps the record there. -/
theorem invariant : StepInvariant ParseState.Abreast where
  advance hs hne := ⟨hs.goesOn.trans (.step hne), hs.exact, Nat.le_succ_of_le hs.le⟩
  miss hs _ := hs.addToken _

/-- So it is where an import lacks `from`. -/
theorem keptWithoutFrom : KeptWithoutFrom ParseState.Abreast := fun _ _ hs _ => hs.addToken _

/-- With a failure on record as far on as the position, the record is there. -/
theorem position_eq (h : s.Abreast lexemes) (hcovers : s.trail.Covers s.position) :
    s.trail.furthest.position = s.position :=
  Nat.le_antisymm h.le hcovers.le

end ParseState.Abreast

/-! ### Splits that go on -/

/-- Splits in a row are one split. -/
theorem Lexemes.Splits.append {lexemes : Lexemes} {i j k : Nat} {units others : List ScanUnit}
    (h : lexemes.Splits i units j) (h' : lexemes.Splits j others k) :
    lexemes.Splits i (units ++ others) k := by
  induction units generalizing i with
  | nil =>
    obtain rfl : i = j := h
    exact h'
  | cons unit units ih => exact ⟨h.1, h.2.1, ih h.2.2⟩

namespace Grammar

variable {lexemes : Lexemes} {fault : Fault} {s t : ParseState}

/-- A scan that fails has split the tokens before a unit, and fails in a round that begins there. -/
theorem importPaths_eq_error (h : importPaths { lexemes } {} = .error fault s) :
    ∃ units t, lexemes.Splits 0 units t.position ∧ t.Abreast lexemes ∧
      scanStep { lexemes } t = .error fault s := by
  rw [importPaths_eq] at h
  rcases Parser.bind_eq_error h with hloop | ⟨_, _, -, hdone⟩
  · have hstart : ParseState.Abreast lexemes {} := ⟨.refl 0, Trail.exact_empty, Nat.le_refl 0⟩
    have hstep : Parser.Keeps ParseState.Abreast [] scanStep :=
      keeps_scanStep ParseState.Abreast.invariant ParseState.Abreast.keptWithoutFrom
    obtain ⟨t, ⟨⟨units, hsplits⟩, ht⟩, hfails⟩ := Parser.collect_eq_error
      (P := fun s => (∃ units, lexemes.Splits 0 units s.position) ∧ s.Abreast lexemes) (by
        rintro s path? t ⟨⟨units, hsplits⟩, hs⟩ hrun
        obtain ⟨unit, hplace, hunit, -⟩ := scanStep_gives (.of_run hrun)
        have hlt := hunit.lt
        have hle := hunit.le_size
        have ht := hstep { lexemes } s trivial hs
        rw [hrun] at ht
        rw [hplace] at hlt hle
        refine ⟨⟨⟨units ++ [unit], hsplits.append ⟨by rw [hplace], hunit, ?_⟩⟩, ht⟩, hlt, hle⟩
        rw [hplace]
        rfl)
      (s := {}) ⟨⟨[], rfl⟩, hstart⟩ hloop
    exact ⟨units, t, hsplits, ht, hfails⟩
  · cases hdone

/-- An import that cannot be read is reported where the rule stops. -/
theorem importDirective_eq_error (ht : t.Abreast lexemes) (hcovers : t.trail.Covers t.position)
    (himport : lexemes.kindAt t.position = .kwImport)
    (h : importDirective.finish { lexemes } t = .error fault s) :
    lexemes.ScanStops t.position s.position ∧ s.trail.Covers s.position := by
  have haccounts : Parser.Accounts (.refl lexemes) true t.position importDirective.finish
      importDirective.finish fun _ j => t.position < j := importDirective_accounts.finish
  have haccount := haccounts t rfl ht.exact (fun _ => hcovers) (ht.goesOn.le_size (Nat.zero_le _))
  refine ⟨?_, haccount.covers fault s h⟩
  -- the rule stops at the same token with nothing on record before
  obtain ⟨trail, hfresh⟩ := importDirective_steady.finish.fails h {}
  exact .badImport himport hfresh

/-- A unit that cannot be skipped is reported where the scan stops, unless a bracket is closed there
and none is open; then nothing is reported. -/
theorem skipUnit_eq_error (himport : lexemes.kindAt t.position ≠ .kwImport)
    (h : skipUnit { lexemes } t = .error fault s) :
    lexemes.ScanStops t.position s.position ∧ t.position ≤ s.position ∧
      (lexemes.closers? t.position s.position = some [] ∧
          (lexemes.kindAt s.position).isClose = true ∧ s.trail = t.trail ∨
        ¬ (lexemes.closers? t.position s.position = some [] ∧
          (lexemes.kindAt s.position).isClose = true) ∧
          ∃ k, s.trail = t.trail.addToken s.position k) := by
  rcases Parser.bind_eq_error (show (Parser.iterate skipStep ([], true) >>= fun _ => pure ())
    { lexemes } t = .error fault s from h) with hloop | ⟨_, _, -, hdone⟩
  · obtain ⟨⟨closers, more⟩, r, ⟨hpassing, htrail⟩, hfails⟩ := Parser.iterate_eq_error
      (P := fun progress r => Passing lexemes t.position progress r.position ∧ r.trail = t.trail) (by
        rintro progress r next r' ⟨hpassing, htrail⟩ hstep
        obtain ⟨hnext, rfl⟩ := hpassing.round hstep
        refine ⟨⟨hnext, htrail⟩, Nat.lt_succ_self _, ?_⟩
        exact Lexemes.lt_size_of_kindAt (hnext.goesOn _ hpassing.le (Nat.lt_succ_self _)))
      ⟨passing_start _ _, rfl⟩ hloop
    obtain ⟨hmore, hafter, hs⟩ := skipStep_eq_error hfails
    cases hmore
    have hends (k : Nat) (hk : lexemes.EndsUnit t.position k) : r.position < k := by
      refine Nat.lt_of_le_of_ne (hpassing.first k hk) fun he => ?_
      exact absurd (hpassing.more.mpr (he ▸ hk)) nofun
    have hstops : lexemes.ScanStops t.position r.position :=
      .badUnit himport hpassing.le hpassing.goesOn hends hpassing.closers (after?_eq_none hafter)
    have hclosers : lexemes.closers? t.position r.position = some [] ↔ closers = [] := by
      rw [hpassing.closers, Option.some_inj]
    split at hs
    · next hstray =>
      subst hs
      exact ⟨hstops, hpassing.le, .inl ⟨hclosers.mpr hstray.1, hstray.2, htrail⟩⟩
    · next hmiss =>
      subst hs
      exact ⟨hstops, hpassing.le, .inr ⟨fun ⟨hnone, hclose⟩ => hmiss ⟨hclosers.mp hnone, hclose⟩,
        closers.headD .semicolon, by rw [← htrail]⟩⟩
  · cases hdone

/-- In the round that fails, the scan stops, and the record is at the token where it does, or at the
one where the unit begins if the bracket that stops it is unreported. -/
theorem scanStep_eq_error (ht : t.Abreast lexemes) (h : scanStep { lexemes } t = .error fault s) :
    lexemes.ScanStops t.position s.position ∧ s.Abreast lexemes ∧ s.trail.reported ≠ [] ∧
      (lexemes.Unreported t.position s.position ∧ s.trail.furthest.position = t.position ∨
        ¬ lexemes.Unreported t.position s.position ∧
          s.trail.furthest.position = s.position) := by
  by_cases heof : lexemes.kindAt t.position = .eof
  · have hdone : scanStep { lexemes } t = .ok none t := by
      unfold scanStep
      rw [Parser.bind_of_ok (by rw [Parser.check_run, if_pos heof])]
      rfl
    rw [hdone] at h
    cases h
  have hkeeps : Parser.Keeps ParseState.Abreast [] scanStep :=
    keeps_scanStep ParseState.Abreast.invariant ParseState.Abreast.keptWithoutFrom
  have hs := hkeeps { lexemes } t trivial ht
  rw [h] at hs
  -- the end of the input is looked for, and reported at the first token of the unit
  obtain ⟨r, hr⟩ : ∃ r, r = { t with trail := t.trail.addToken t.position .eof } := ⟨_, rfl⟩
  have hcheck : Parser.check .eof { lexemes } t = .ok false r := by
    rw [Parser.check_run, if_neg heof, hr]
  have hpos : r.position = t.position := by rw [hr]
  have habreast : r.Abreast lexemes := hr ▸ ht.addToken .eof
  have hcovers : r.trail.Covers r.position :=
    hr ▸ (Trail.reports_addToken t.trail t.position .eof).covers
  have hfurthest := habreast.position_eq hcovers
  unfold scanStep at h
  rw [Parser.bind_of_ok hcheck, if_neg Bool.false_ne_true,
    Parser.bind_of_ok (show Parser.kind { lexemes } r = .ok _ r from rfl)] at h
  rw [← hpos]
  split at h
  · next himport =>
    rcases Parser.bind_eq_error h with hfails | ⟨_, _, -, hdone⟩
    · obtain ⟨hstops, hreported⟩ := importDirective_eq_error habreast hcovers himport hfails
      exact ⟨hstops, hs, hreported.reported,
        .inr ⟨fun hunreported => hunreported.noImport himport, hs.position_eq hreported⟩⟩
    · cases hdone
  · next himport =>
    rcases Parser.bind_eq_error h with hfails | ⟨_, _, -, hdone⟩
    · obtain ⟨hstops, hle, ⟨hclosed, hcloses, htrail⟩ | ⟨hreported, k, htrail⟩⟩ :=
        skipUnit_eq_error himport hfails
      · rw [htrail, hfurthest]
        refine ⟨hstops, hs, hcovers.reported, ?_⟩
        rcases Nat.lt_or_eq_of_le hle with hlater | hfirst
        · exact .inl ⟨⟨himport, hlater, hclosed, hcloses⟩, rfl⟩
        · exact .inr ⟨fun hunreported => absurd hunreported.later (by omega), hfirst⟩
      · have hreports := Trail.reports_addToken r.trail s.position k
        rw [← htrail] at hreports
        exact ⟨hstops, hs, hreports.covers.reported,
          .inr ⟨fun hunreported => hreported ⟨hunreported.closed, hunreported.closes⟩,
            hs.position_eq hreports.covers⟩⟩
    · cases hdone

end Grammar

/-! ### Sources -/

namespace Source

/-- Of a source in which no imports can be found, and which is not too long, some tokens have been
split into units, and the scan stops in the unit after them. The error points at the token where it
stops if and only if that is not a bracket that closes none, after other tokens of a unit that is no
import; then the error points at the first token of the unit. -/
theorem scanImports_error_at {source : String} {error : SyntaxError}
    (h : scanImports source = .error error) :
    ¬ WithinLimit source ∧ error = lengthError source ∨
      WithinLimit source ∧ ∃ fault s units u,
        Grammar.importPaths { lexemes := (lex source).tokens.lexemes } {} = .error fault s ∧
        (lex source).tokens.lexemes.Splits 0 units u ∧
        (lex source).tokens.lexemes.ScanStops u s.position ∧
        (error.PointsAt source s.position ↔
          ¬ (lex source).tokens.lexemes.Unreported u s.position) ∧
        ((lex source).tokens.lexemes.Unreported u s.position → error.PointsAt source u) := by
  refine ((read_eq_error (fun _ => Grammar.importPaths) false fun _ paths => paths).mp h).imp_right
    (And.imp_right ?_)
  rintro ⟨fault, s, hrun, rfl⟩
  obtain ⟨units, t, hsplits, ht, hfails⟩ := Grammar.importPaths_eq_error hrun
  obtain ⟨hstops, hs, hreported, hrecord⟩ := Grammar.scanStep_eq_error ht hfails
  refine ⟨fault, s, units, t.position, hrun, hsplits, hstops, ?_⟩
  rcases hrecord with ⟨hunreported, hpos⟩ | ⟨hunreported, hpos⟩
  · have hunit := syntaxError_pointsAt hs.exact hreported hpos ht.goesOn
    refine ⟨⟨fun hstop => ?_, fun hnot => absurd hunreported hnot⟩, fun _ => hunit⟩
    have := hunreported.later
    have := hunit.isAt.unique hstop.isAt
    omega
  · have hstop := syntaxError_pointsAt hs.exact hreported hpos hs.goesOn
    exact ⟨iff_of_true hstop hunreported, fun h => absurd h hunreported⟩

/-- A bracket is closed, and another one is open: the scan stops there, and the error names it. -/
theorem scanImports_error_at_mismatch :
    let error : SyntaxError := ⟨"Expected `)` but `]` found.", ⟨1, 5, 4⟩⟩
    scanImports "a ( ]" = .error error ∧ ∃ fault s units u,
      Grammar.importPaths { lexemes := (lex "a ( ]").tokens.lexemes } {} = .error fault s ∧
      s.position = 2 ∧
      (lex "a ( ]").tokens.lexemes.Splits 0 units u ∧
      (lex "a ( ]").tokens.lexemes.ScanStops u s.position ∧
      (error.PointsAt "a ( ]" s.position ↔
        ¬ (lex "a ( ]").tokens.lexemes.Unreported u s.position) ∧
      ((lex "a ( ]").tokens.lexemes.Unreported u s.position → error.PointsAt "a ( ]" u) := by
  intro error
  have hread : scanImports "a ( ]" = .error error := by
    refine errorOf?_eq_some_iff.mp ?_
    rw [scanImports, read_ofList]
    decide +kernel
  have hsize : WithinLimit "a ( ]" := by
    rw [withinLimit_ofList]
    decide
  obtain ⟨htoo, -⟩ | ⟨-, fault, s, units, u, hrun, hstops⟩ := scanImports_error_at hread
  · exact absurd hsize htoo
  · have hposition : (match Grammar.importPaths { lexemes := (lex "a ( ]").tokens.lexemes } {} with
        | .error _ s => s.position == 2
        | .ok _ _ => false) = true := by decide +kernel
    rw [hrun] at hposition
    exact ⟨hread, fault, s, units, u, hrun, eq_of_beq hposition, hstops⟩

/-- A parenthesis is closed, and none is open: the scan stops there, and the error is at the token
before it. -/
theorem scanImports_error_not_at :
    ∃ fault s, Grammar.importPaths { lexemes := (lex "a )").tokens.lexemes } {} = .error fault s ∧
      s.position = 1 ∧ (lex "a )").tokens.get? 1 = some ⟨⟨.rparen, ")"⟩, ⟨2, 3⟩⟩ ∧
      scanImports "a )" = .error ⟨"Expected end of input but `a` found.", ⟨1, 1, 0⟩⟩ := by
  have hstop : (match Grammar.importPaths { lexemes := (lex "a )").tokens.lexemes } {} with
      | .error _ s => s.position == 1
      | .ok _ _ => false) = true := by decide +kernel
  cases h : Grammar.importPaths { lexemes := (lex "a )").tokens.lexemes } {} with
  | ok paths s => rw [h] at hstop; cases hstop
  | error fault s =>
    rw [h] at hstop
    exact ⟨fault, s, rfl, eq_of_beq hstop, by decide +kernel, by decide +kernel⟩

end Source

end SolidityParser
