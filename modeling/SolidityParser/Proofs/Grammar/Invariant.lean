import SolidityParser.Proofs.Imports.Scan
import SolidityParser.Proofs.Parser.Keeps
import SolidityParser.Proofs.Sound.Declaration

/-!
# Whole inputs keep invariants

Declarations, expressions and statements are built from combinators and keep every invariant. The
other rules are those of pragmas, of imports, and of the scan for imports alone; all of them go only
forward. One step of an import is none that `StepInvariant` knows: where the word `from` should
stand an identifier is reported, and an identifier may be what stands there (`Lexemes.LacksFrom`).
-/

namespace SolidityParser

/-! ### Imports without `from` -/

/-- What an import directive takes from its source, where that is said before the source. -/
inductive ImportNames
  /-- All of it, under a name. -/
  | all (newName : String)
  /-- What is listed, each under its own name or a new one. -/
  | listed (symbols : List (String × Option String))

/-- How the names are written. -/
def ImportNames.symbols : ImportNames → List Symbol
  | .all newName => [.token .star, .token .kwAs, .word .ident newName]
  | .listed symbols => .token .lbrace :: Symbol.series .rbrace
      (symbols.map fun (name, newName) => .word .ident name :: Symbol.newName newName)

/-- Directly after the names of an import directive stands an identifier other than `from`. -/
structure Lexemes.LacksFrom (lexemes : Lexemes) (i : Nat) : Prop where
  /-- An identifier stands here. -/
  ident : lexemes.kindAt i = .ident
  /-- It is another word. -/
  other : lexemes.textAt i ≠ "from"
  /-- The names of an import stand before it. -/
  named : ∃ start names, lexemes.Spells start (.token .kwImport :: ImportNames.symbols names) i

/-- A property of states that is kept where an import lacks `from`, and an identifier is
reported. -/
def KeptWithoutFrom (Inv : Lexemes → ParseState → Prop) : Prop :=
  ∀ (lexemes : Lexemes) (s : ParseState), Inv lexemes s → lexemes.LacksFrom s.position →
    Inv lexemes { s with trail := s.trail.addToken s.position .ident }

namespace Grammar

open SolidityParser.Parser (Keeps)

/-- The names of an import stand before the word that says where they are from. -/
theorem importedNames_named {scope : Scope} {i j : Nat}
    {names : Option String × Option (List (ImportSymbol Extent))}
    (h : importedNames.Gives scope i names j) :
    ∃ names : ImportNames, scope.lexemes.Spells i names.symbols j := by
  rcases importedNames_gives h with ⟨newName, -, hall⟩ | ⟨symbols, -, hopen, hsymbols⟩
  · exact ⟨.all newName, hall⟩
  · have hlist := hsymbols.series_spells (by decide) fun _ _ _ h => (importSymbol_spells h).2
    refine ⟨.listed (symbols.map fun symbol => (symbol.name, symbol.newName)),
      ⟨by decide, hopen⟩, ?_⟩
    rwa [List.map_map]

/-! ### Rules that go forward -/

section Forward

variable {Inv : Lexemes → ParseState → Prop} (h : StepInvariant Inv) {known : List Kind}

include h

/-- A string is a token out of three kinds. -/
theorem keeps_expectString : Keeps Inv known expectString :=
  .text fun _ => h.keeps_expect.bind fun _ => .pure _

/-- A new name is a keyword and a name. -/
theorem keeps_newName? : Keeps Inv known newName? :=
  h.keeps_eat.bind fun _ => .ite (fun _ => h.keeps_expectIdent.bind fun _ => .pure _)
    fun _ => .pure none

/-- Names are a star, a name or a list in braces. -/
theorem keeps_importedNames : Keeps Inv known importedNames := by
  have symbol : Keeps Inv [] importSymbol :=
    h.keeps_expectIdent.bind fun _ => (keeps_newName? h).bind fun _ => .extentFrom fun _ => .pure _
  exact h.keeps_eat.bind fun _ =>
    .ite (fun _ => h.keeps_expect.bind fun _ => h.keeps_expectIdent.bind fun _ => .pure _) fun _ =>
    h.keeps_eat.bind fun _ => .ite (fun _ => (h.keeps_series symbol).bind fun _ => .pure _)
      fun _ => .fail

/-- What follows the names of an import. -/
theorem keeps_importEnd (start : Nat) (newName : Option String)
    (symbols : Option (List (ImportSymbol Extent))) : Keeps Inv known (do
      let path ← expectString
      Parser.expect .semicolon
      return ⟨← Parser.extentFrom start, path, newName, symbols⟩ :
        Parser (ImportDirective Extent)) :=
  (keeps_expectString h).bind fun _ => h.keeps_expect.bind fun _ => .extentFrom fun _ => .pure _

/-- After the names of an import, another identifier than `from` is reported as one. -/
theorem expectFrom_keeps (hfrom : KeptWithoutFrom Inv) {scope : Scope} {s : ParseState}
    (hnamed : ∃ start names,
      scope.lexemes.Spells start (.token .kwImport :: ImportNames.symbols names) s.position)
    (hs : Inv scope.lexemes s) :
    Inv scope.lexemes (Parser.final (Parser.expectWord "from" scope s)) := by
  unfold Parser.expectWord
  rw [Parser.bind_of_ok (show Parser.isWord "from" scope s =
    .ok (scope.lexemes.isWordAt s.position "from") s from rfl)]
  cases hword : scope.lexemes.isWordAt s.position "from" with
  | true =>
    have hadvance : Keeps Inv [] Parser.advance := h.keeps_advance
    exact hadvance scope s trivial hs
  | false =>
    show Inv scope.lexemes { s with trail := s.trail.addToken s.position .ident }
    by_cases hident : scope.lexemes.kindAt s.position = .ident
    · refine hfrom _ _ hs ⟨hident, fun htext => ?_, hnamed⟩
      simp [Lexemes.isWordAt, hident, htext] at hword
    · exact h.miss hs hident

/-- The names or the path of an import, after its keyword, and all that follows. -/
theorem importRest_keeps (hfrom : KeptWithoutFrom Inv) {scope : Scope} {s : ParseState} {i : Nat}
    (himport : scope.lexemes.kindAt i = .kwImport) (hpos : s.position = i + 1)
    (hs : Inv scope.lexemes s) : Inv scope.lexemes (Parser.final (importRest i scope s)) := by
  have hcheck : Keeps Inv [] (Parser.check .string) := h.keeps_check
  refine Parser.final_bind (hcheck scope s trivial hs) fun found t hrun ht => ?_
  have hsame : t.position = i + 1 := by
    rw [Parser.check_run] at hrun
    split at hrun <;> cases hrun <;> exact hpos
  cases found with
  | true =>
    have hpath : Keeps Inv [] (do
        let path ← expectString
        let newName ← newName?
        Parser.expect .semicolon
        return ⟨← Parser.extentFrom i, path, newName, none⟩ : Parser (ImportDirective Extent)) :=
      (keeps_expectString h).bind fun _ => (keeps_newName? h).bind fun _ =>
        h.keeps_expect.bind fun _ => .extentFrom fun _ => .pure _
    exact hpath scope t trivial ht
  | false =>
    have hnames : Keeps Inv [] importedNames := keeps_importedNames h
    refine Parser.final_bind (hnames scope t trivial ht) fun (newName, symbols) u hrun hu => ?_
    obtain ⟨names, hspells⟩ := importedNames_named (.of_run hrun)
    rw [hsame] at hspells
    have hnamed := expectFrom_keeps h hfrom ⟨i, names, ⟨by decide, himport⟩, hspells⟩ hu
    have hend : Keeps Inv [] _ := keeps_importEnd h i newName symbols
    exact Parser.final_bind hnamed fun _ v _ hv => hend scope v trivial hv

/-- An import reports an identifier where it lacks `from`, and goes forward otherwise. -/
theorem importDirective_keeps (hfrom : KeptWithoutFrom Inv) :
    importDirective.Keeps Inv known := by
  rw [importDirective_eq]
  refine .within <| h.keeps_opening <| .ofParser fun scope s hshows hs => ?_
  have himport : scope.lexemes.kindAt s.position = .kwImport := hshows.1
  have hne : scope.lexemes.kindAt s.position ≠ .eof := by
    rw [himport]
    decide
  rw [Parser.bind_of_ok (show Parser.position scope s = .ok _ s from rfl),
    Parser.bind_of_ok (Parser.advance_run hne)]
  exact importRest_keeps h hfrom himport rfl (h.advance hs hne)

/-! ### The scan for imports -/

/-- Where a unit cannot be skipped, the bracket to be closed is reported, or the semicolon. -/
theorem keeps_skipUnitToken {closers : List Kind} (heof : .eof ∉ closers) :
    Keeps Inv known (skipUnitToken closers) := by
  intro scope s _ hs
  cases hafter : (ScanState.mk closers false).after? (scope.lexemes.kindAt s.position) with
  | some state =>
    rw [skipUnitToken_run hafter]
    refine h.advance hs fun hk => ?_
    rw [hk] at hafter
    cases hafter
  | none =>
    rw [skipUnitToken_stops hafter]
    split
    · exact hs
    · next hopen =>
      refine h.miss hs fun hk => ?_
      rcases after?_eq_none hafter with he | ⟨hclose, hhead⟩
      · rw [he] at hk
        cases closers with
        | nil => cases hk
        | cons closer closers => exact heof (hk ▸ List.mem_cons_self)
      · cases closers with
        | nil => exact hopen ⟨rfl, hclose⟩
        | cons closer closers => exact hhead (congrArg some hk.symm)

/-- A unit is skipped token by token. -/
theorem keeps_skipUnit : Keeps Inv known skipUnit := by
  show Keeps Inv known (Parser.iterate skipStep ([], true) >>= fun _ => pure ())
  refine .bind (.iterateWhere (P := fun progress => .eof ∉ progress.1) (fun progress heof => ?_) ?_
    (by simp)) fun _ => .pure ()
  · exact .ite (fun _ => (keeps_skipUnitToken h heof).map) fun _ => .pure none
  · intro scope s t progress next heof hrun
    obtain ⟨-, state, hafter, rfl, -⟩ := skipStep_eq_ok hrun
    exact ScanState.eof_not_mem_of_after? hafter heof

/-- An import is read, or a unit is skipped. -/
theorem keeps_scanStep (hfrom : KeptWithoutFrom Inv) : Keeps Inv known scanStep :=
  h.keeps_check.bind fun _ => .ite (fun _ => .pure none) fun _ => .kind fun _ =>
    .ite (fun _ => (Keeps.finish (importDirective_keeps h hfrom)).bind fun _ => .pure _)
      fun _ => (keeps_skipUnit h).bind fun _ => .pure _

/-- The scan is a loop of these. -/
theorem keeps_importPaths (hfrom : KeptWithoutFrom Inv) : Keeps Inv known importPaths := by
  rw [importPaths_eq]
  exact (Keeps.collect (keeps_scanStep h hfrom)).bind fun _ => .pure _

/-! ### Pragmas -/

/-- The tokens of a pragma are passed one by one. -/
theorem pragmaRest_keeps {start : Nat} {name : String} :
    Keeps Inv known (pragmaRest start name) := by
  unfold pragmaRest
  split
  · exact h.keeps_expectIdent.bind fun _ => h.keeps_expect.bind fun _ => .extentFrom fun _ => .pure _
  · have hfeature : Keeps Inv [] feature :=
      .text fun _ => h.keeps_eat.bind fun _ => .ite (fun _ => .pure _) fun _ => keeps_expectString h
    exact .bind (.weaken hfeature) fun _ => h.keeps_expect.bind fun _ => .extentFrom fun _ => .pure _
  · have hskip : Keeps Inv [] skipToSemicolon :=
      .bind (.iterate (fun _ => .kind fun _ => .ite (fun _ => .pure none) fun _ =>
        h.keeps_advance.bind fun _ => .pure _) ()) fun _ => .pure ()
    exact .position fun _ => .bind (.weaken hskip) fun _ => .extentFrom fun _ =>
      h.keeps_expect.bind fun _ => .extentFrom fun _ => .pure _

/-- A pragma has a name first. -/
theorem pragmaDirective_keeps : pragmaDirective.Keeps Inv known := by
  rw [pragmaDirective_eq]
  exact .within <| h.keeps_opening <| .ofParser <| .position fun _ =>
    h.keeps_advance.bind fun _ => h.keeps_expectIdent.bind fun _ => pragmaRest_keeps h

end Forward

/-! ### Whole inputs -/

section Whole

variable {Inv : Lexemes → ParseState → Prop} (h : Invariant Inv) {known : List Kind}
  {inner : Inner} (hi : inner.Built)

include h hi

/-- Units are read one after the other. -/
theorem keeps_units (hfrom : KeptWithoutFrom Inv) : Keeps Inv known (units inner) := by
  have hunit : (sourceUnit inner).Keeps Inv [] := by
    rw [sourceUnit_eq]
    exact h.keeps_ruleNamed <| h.keeps_orElse (pragmaDirective_keeps h.toStepInvariant) <|
      h.keeps_orElse (.map (importDirective_keeps h.toStepInvariant hfrom)) <|
      Phrase.Built.keeps h (declarations_built hi (a := {}))
  rw [units_eq]
  exact .collect <| h.keeps_check.bind fun _ => .ite (fun _ => .pure none) fun _ =>
    (Keeps.finish hunit).map

/-- An expression is read up to the end of the input. -/
theorem keeps_wholeExpression : Keeps Inv known (wholeExpression inner) := by
  have hexpression : Keeps Inv [] inner.expression := Phrase.Built.keeps h (hi.expression {})
  exact .bind (.weaken hexpression) fun _ => h.keeps_expect.bind fun _ => .pure _

/-- So is a statement. -/
theorem keeps_wholeStatement : Keeps Inv known (wholeStatement inner) := by
  have hstatement : inner.statement.Keeps Inv [] := Phrase.Built.keeps h (hi.statement {})
  exact .bind (.weaken (.finish hstatement)) fun _ => h.keeps_expect.bind fun _ => .pure _

end Whole

end Grammar

end SolidityParser
