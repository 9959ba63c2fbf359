import SolidityParser.Proofs.Complete.Whole
import SolidityParser.Proofs.Grammar.Entry
import SolidityParser.Proofs.Sound.Member

/-!
# What a whole source reads

Each unit of a source that is read stands in the input with all that is below it, one right after
the other up to the end (`Lexemes.IsSource`, `parseUnits_isSource`).
-/

namespace SolidityParser

open Lexemes (Lays)

/-- The units of a source stand in a row from the start of the input to its end, and each is the
first way to read what it is written as. -/
structure Lexemes.IsSource (lexemes : Lexemes) (repairs : Repairs)
    (units : List (SourceUnit .parsed)) (j : Nat) : Prop where
  /-- They stand in a row. -/
  row : lexemes.Spells 0 (Symbol.row (units.map (·.place))) j
  /-- There the input ends. -/
  ends : lexemes.kindAt j = .eof
  /-- Each part of each unit stands where it is written. -/
  stands : ∀ u ∈ units, (Part.unit u).All (lexemes.Supports repairs)
  /-- There is no earlier way to read a unit. -/
  chosen : ∀ u ∈ units, lexemes.ChosenUnit u

/-- A unit that may be a member of a contract stands where the member does. -/
theorem Lexemes.Lays.unit {lexemes : Lexemes} {repairs : Repairs} {i j : Nat}
    {unit : SourceUnit .parsed} {member : ContractPart .parsed}
    (h : lexemes.Lays repairs i (.member member) j) (hmember : unit.member? = some member) :
    lexemes.Lays repairs i (.unit unit) j := by
  have hplace : (Part.unit unit).place = (Part.member member).place :=
    (SourceUnit.place_of_member? hmember).symm
  have hfields := SourceUnit.fields_of_member? hmember
  have htight : (Part.unit unit).Tight := by
    have htight : ∀ field ∈ (Part.member member).fields, ∀ e, .expression e ∈ field → e.IsWhole :=
      h.stands.here.tight
    rwa [hfields] at htight
  refine ⟨hplace.trans h.place, Part.all_iff.mpr ⟨?_, fun field hfield child hchild =>
    h.stands.below (hfields ▸ hfield) hchild⟩⟩
  cases h.stands.here with
  | phrase holds =>
    obtain ⟨-, symbols, hphrased, hspells⟩ := holds
    exact .phrase ⟨htight, symbols, .unit hmember hphrased, hplace ▸ hspells⟩
  | composed _ _ composed spells =>
    refine .composed htight (.of_none ⟨rfl, rfl, rfl, ?_⟩) (.unit hmember composed)
      (hplace ▸ spells)
    cases unit <;> first | rfl | cases hmember
  | recovered recovered => cases recovered

namespace Grammar

variable {inner : Inner} {scope : Scope} {i j k lo : Nat}

/-! ### Contracts -/

/-- The sort of a contract is spelled by its keywords. -/
theorem contractKind_spells {kind : ContractKind} (h : contractKind.Gives scope i kind j) :
    scope.lexemes.Spells i [.token kind.kind] j := by
  rcases h.eatIf (by decide) with ⟨hk, h⟩ | ⟨-, h⟩
  · obtain ⟨rfl, rfl⟩ := h.pure
    exact ⟨⟨by decide, hk⟩, rfl⟩
  rcases h.eatIf (by decide) with ⟨hk, h⟩ | ⟨-, h⟩
  · obtain ⟨rfl, rfl⟩ := h.pure
    exact ⟨⟨by decide, hk⟩, rfl⟩
  rcases h.eatIf (by decide) with ⟨hk, h⟩ | ⟨-, h⟩
  · obtain ⟨rfl, rfl⟩ := h.pure
    exact ⟨⟨by decide, hk⟩, rfl⟩
  · exact h.fail.elim

/-- Bases are spelled after `is`, or there are none. -/
theorem bases_spells (hi : inner.Sound) (hw : scope.lexemes.WellSpelled)
    {values : List (Invocation Extent)} (h : (bases inner).Gives scope i values j) :
    scope.lexemes.Spells i (Symbol.bases values) j ∧
      ∀ v ∈ values, (Part.invocation v : Part .parsed).All scope.lexemes.Holds := by
  rcases h.eatIf (by decide) with ⟨hk, h⟩ | ⟨-, h⟩
  · have hseparated := h.separated
    have hspells : scope.lexemes.Spells (i + 1)
        (Symbol.separated (values.map fun v => [.part v.place])) j :=
      hseparated.spells fun _ _ _ h => (invocation_isPhrase hi hw h).spells rfl
    refine ⟨?_, hseparated.forall fun _ _ _ h => (invocation_isPhrase hi hw h).holds⟩
    rw [Symbol.bases, if_neg hseparated.ne_nil]
    exact ⟨⟨by decide, hk⟩, hspells⟩
  · obtain ⟨rfl, rfl⟩ := h.pure
    exact ⟨rfl, by simp⟩

section Nested

variable (hs : inner.statement.ReadsStatements { scope with inBody := true } lo)
  (hi : inner.Sound) (hw : scope.lexemes.WellSpelled) (hb : inner.Built) {depth : Nat}
  (hc : inner.Complete depth)

include hs hi hw hb hc

/-- The members of a contract stand one right after the other, up to the closing brace. -/
theorem contractParts_spells (hlo : lo ≤ i) (hd : scope.lexemes.size < i + depth)
    {body : List (ContractPart .parsed)} (h : Collected scope (nextPart? inner) i body j) :
    scope.lexemes.Spells i (Symbol.row (body.map (·.place)) ++ [.token .rbrace]) j ∧
      ∀ m ∈ body, (Part.member m).All (scope.lexemes.Supports (.ofTolerance scope.tolerant)) ∧
        scope.lexemes.ChosenMember m := by
  induction h with
  | nil last =>
    rcases last.eatIf (by decide) with ⟨hk, h⟩ | ⟨-, h⟩
    · obtain ⟨-, rfl⟩ := h.pure
      exact ⟨⟨⟨by decide, hk⟩, rfl⟩, by simp⟩
    · obtain ⟨_, -, hnone⟩ := h.map
      cases hnone
  | cons first _ ih =>
    rcases first.eatIf (by decide) with ⟨-, h⟩ | ⟨-, h⟩
    · cases h.pure.1
    · obtain ⟨member, hmember, hsome⟩ := h.map
      cases hsome
      obtain ⟨hlays, hchosen⟩ :=
        contractPart_lays hs hi hw hb hc hd (by omega) hmember.finish
      have hlt := hlays.lt
      obtain ⟨hspells, hbody⟩ := ih (by omega) (by omega)
      exact ⟨hlays.spells hspells, List.forall_mem_cons.mpr ⟨⟨hlays.stands, hchosen⟩, hbody⟩⟩

/-- A contract is its sort, its name, its bases and its members. -/
theorem contract_lays (hlo : lo ≤ i + 1) (hd : scope.lexemes.size < i + depth)
    {declaration : Contract .parsed} (h : (contract inner).Gives scope i declaration j) :
    scope.lexemes.Lays (.ofTolerance scope.tolerant) i (.unit (.contract declaration)) j := by
  rw [contract_eq] at h
  obtain ⟨isAbstract, k, habstract, h⟩ := h.oneOf.2.within.ofParser.position.bind
  obtain ⟨kind, l, hkind, h⟩ := h.bind
  obtain ⟨hname, h⟩ := h.expectIdent
  obtain ⟨values, m, hvalues, h⟩ := h.bind
  obtain ⟨hopen, h⟩ := h.expect (by decide)
  obtain ⟨body, n, hbody, h⟩ := h.bind
  obtain ⟨rfl, rfl⟩ := h.extentFrom.pure
  have habstract : scope.lexemes.Spells i (if isAbstract then [.token .kwAbstract] else []) k := by
    rw [← bind_pure (Parser.eat .kwAbstract)] at habstract
    rcases habstract.eat (by decide) with ⟨hk, h⟩ | ⟨-, h⟩
    · obtain ⟨rfl, rfl⟩ := h.pure
      exact ⟨⟨by decide, hk⟩, rfl⟩
    · obtain ⟨rfl, rfl⟩ := h.pure
      rfl
  have hkind := contractKind_spells hkind
  obtain ⟨hvalues, hkept⟩ := bases_spells hi hw hvalues
  have hle := habstract.inside.1
  have hle' := hkind.inside.1
  have hle'' := hvalues.inside.1
  obtain ⟨hbody, hmembers⟩ :=
    contractParts_spells hs hi hw hb hc (by omega) (by omega) hbody.collect
  have hhead : scope.lexemes.Spells l
      (.word .ident (scope.lexemes.textAt l) :: Symbol.bases values) m :=
    ⟨⟨by decide, hname, rfl⟩, hvalues⟩
  have htail : scope.lexemes.Spells m
      (.token .lbrace :: Symbol.row (body.map (·.place)) ++ [.token .rbrace]) j :=
    ⟨⟨by decide, hopen⟩, hbody⟩
  refine .of_composed rfl ?_ ?_ .contract ?_ ?_
  · simp [Part.Tight, Part.fields, Part.unitFields]
  · exact ⟨by simp [Part.choices, Part.branches], by simp [Part.branches],
      by simp [Part.initial?], fun m hm => (hmembers m hm).2⟩
  · simpa using habstract.append (hkind.append (hhead.append htail))
  · simpa [Part.fields, Part.unitFields] using
      ⟨fun v hv => (hkept v hv).mono fun _ => .phrase, fun m hm => (hmembers m hm).1⟩

/-! ### Units -/

/-- A unit of a source is read in the first of the ways in which it can be. -/
theorem sourceUnit_lays (hlo : lo ≤ i + 1) (hd : scope.lexemes.size < i + depth)
    {unit : SourceUnit .parsed} (h : (sourceUnit inner).Gives scope i unit j) :
    scope.lexemes.Lays (.ofTolerance scope.tolerant) i (.unit unit) j ∧
      scope.lexemes.ChosenUnit unit := by
  rcases h.of_named.elim with h | ⟨-, h⟩
  · have hphrase := pragmaDirective_isPhrase h
    refine ⟨hphrase.lays, ?_⟩
    cases unit with
    | constant declaration =>
      -- a constant begins with a type, and no type begins with this keyword
      obtain ⟨hk, -⟩ := keywordRule_gives h
      obtain ⟨symbols, hphrased, hspells⟩ := hphrase.written
      cases hphrased with
      | constant =>
        have htype := hphrase.right_below (List.mem_cons_self ..) (List.mem_cons_self ..)
          hspells.1.1
        have hbegins := htype.beginsType
        rw [hk] at hbegins
        cases hbegins
      | unit hmember => cases hmember
    | _ => trivial
  rcases h.elim with h | ⟨-, h⟩
  · obtain ⟨directive, hrule, rfl⟩ := h.of_map
    exact ⟨(importDirective_isPhrase hrule).lays, trivial⟩
  rcases h.elim with h | ⟨-, h⟩
  · obtain ⟨declaration, hrule, rfl⟩ := h.of_map
    exact ⟨contract_lays hs hi hw hb hc hlo hd hrule, trivial⟩
  rcases h.elim with h | ⟨hfunction, h⟩
  · obtain ⟨function, hrule, rfl⟩ := h.of_map
    exact ⟨(freeFunction_lays hs hi hw hlo hrule).unit rfl, trivial⟩
  rcases h.elim with h | ⟨-, h⟩
  · obtain ⟨definition, hrule, rfl⟩ := h.of_map
    exact ⟨(structDefinition_isPhrase hi hw hrule).lays.unit rfl, trivial⟩
  rcases h.elim with h | ⟨-, h⟩
  · obtain ⟨definition, hrule, rfl⟩ := h.of_map
    exact ⟨(enumDefinition_isPhrase hrule).lays.unit rfl, trivial⟩
  rcases h.elim with h | ⟨-, h⟩
  · obtain ⟨definition, hrule, rfl⟩ := h.of_map
    exact ⟨(eventDefinition_isPhrase hi hw hrule).lays.unit rfl, trivial⟩
  rcases h.elim with h | ⟨herror, h⟩
  · obtain ⟨definition, hrule, rfl⟩ := h.of_map
    exact ⟨(errorDefinition_isPhrase hi hw hrule).lays.unit rfl, trivial⟩
  rcases h.elim with h | ⟨-, h⟩
  · obtain ⟨directive, hrule, rfl⟩ := h.of_map
    exact ⟨(usingDirective_isPhrase hi hw hrule).lays.unit rfl, trivial⟩
  rcases h.elim with h | ⟨-, h⟩
  · obtain ⟨definition, hrule, rfl⟩ := h.of_map
    exact ⟨(valueTypeDefinition_isPhrase hrule).lays.unit rfl, trivial⟩
  rcases h.elim with h | ⟨-, h⟩
  · obtain ⟨declaration, hrule, rfl⟩ := h.of_map
    have hphrase := fileConstant_isPhrase hi hw hrule
    have hplace : declaration.place = ⟨i, j⟩ := hphrase.place
    refine ⟨hphrase.lays, ?_⟩
    rw [Lexemes.ChosenUnit, hplace]
    refine ⟨not_definesError hb herror.of_map, keywordRule_missed (fun start => ?_)
      hfunction.of_map (by decide)⟩
    exact .built <| .bind expectIdent_built fun _ => functionRest_built hb (a := {})
  · exact h.none.elim

/-- The units of a source stand one right after the other, up to the end. -/
theorem units_spells (hlo : lo ≤ i) (hd : scope.lexemes.size < i + depth)
    {units : List (SourceUnit .parsed)} (h : Collected scope (nextUnit? inner) i units j) :
    scope.lexemes.Spells i (Symbol.row (units.map (·.place))) j ∧
      scope.lexemes.kindAt j = .eof ∧
      ∀ u ∈ units, (Part.unit u).All (scope.lexemes.Supports (.ofTolerance scope.tolerant)) ∧
        scope.lexemes.ChosenUnit u := by
  induction h with
  | nil last =>
    rcases last.check with ⟨hk, h⟩ | ⟨-, h⟩
    · obtain ⟨-, rfl⟩ := h.pure
      exact ⟨rfl, hk, by simp⟩
    · obtain ⟨_, -, hnone⟩ := h.map
      cases hnone
  | cons first _ ih =>
    rcases first.check with ⟨-, h⟩ | ⟨-, h⟩
    · cases h.pure.1
    · obtain ⟨unit, hunit, hsome⟩ := h.map
      cases hsome
      obtain ⟨hlays, hchosen⟩ :=
        sourceUnit_lays hs hi hw hb hc (by omega) hd hunit.finish
      have hlt := hlays.lt
      obtain ⟨hspells, heof, hunits⟩ := ih (by omega) (by omega)
      exact ⟨hlays.spells hspells, heof,
        List.forall_mem_cons.mpr ⟨⟨hlays.stands, hchosen⟩, hunits⟩⟩

end Nested

/-- What the input as a whole parses to as a source stands in it, up to its end. -/
theorem parseUnits_isSource {lexemes : Lexemes} (hw : lexemes.WellSpelled) {tolerant : Bool}
    {units : List (SourceUnit .parsed)} (h : parseUnits lexemes tolerant = .ok units) :
    ∃ j, lexemes.IsSource (.ofTolerance tolerant) units j := by
  unfold parseUnits run at h
  split at h
  · next value t hrun =>
    cases h
    rw [units_eq] at hrun
    have hs : (Inner.ofLexemes lexemes).statement.ReadsStatements
        { lexemes, tolerant, inBody := true } 0 :=
      Inner.readsStatements_upTo hw (by dsimp only; omega)
    obtain ⟨hrow, hends, hunits⟩ := units_spells hs (Inner.sound_upTo _) hw (Inner.built_upTo _)
      (Inner.complete_upTo _) (Nat.le_refl 0) (by dsimp only; omega)
      (Parser.Gives.of_run hrun).collect
    exact ⟨t.position, hrow, hends, fun u hu => (hunits u hu).1, fun u hu => (hunits u hu).2⟩
  · cases h

end Grammar

/-- What a source that is not too long parses to is what its words parse to, placed in the
source. -/
theorem Source.parse_eq_ok_iff {source : String} {tolerant : Bool} {program : Program} :
    parse source tolerant = .ok program ↔
      WithinLimit source ∧
        ∃ units, Grammar.parseUnits (lex source).tokens.lexemes tolerant = .ok units ∧
          program = (layout source).program units :=
  read_eq_ok_iff

end SolidityParser
