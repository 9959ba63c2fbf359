import SolidityParser.Proofs.Complete.Member
import SolidityParser.Proofs.Sound.Unit

/-!
# Sources are read

The rule for units reads each that stands in the input and is the first way to read what it is
written as. So an input is read as a source if and only if units stand in it from its start to its
end (`parseUnits_eq_ok_iff`): which trees an input has does not depend on how the grammar goes about
reading them. Where broken statements are skipped, a source without one is read as well, also if the
next member cuts some of its blocks short (`parseUnits_of_isSource`).
-/

namespace SolidityParser

open Lexemes (Lays)
open SolidityParser.Parser (Reads Gathers)

namespace Lexemes.Lays

variable {lexemes : Lexemes} {repairs : Repairs} {i j : Nat}

/-- A member of a contract begins with a token that follows none. -/
theorem member_begins {member : ContractPart .parsed}
    (h : lexemes.Lays repairs i (.member member) j) : Kind.ends (lexemes.kindAt i) = false := by
  cases h.stands.here with
  | phrase holds =>
    obtain ⟨-, symbols, hphrased, -⟩ := holds
    exact (h.isPhrase hphrased.isPhrasal).begins
  | composed _ _ composed spells =>
    rw [h.place] at spells
    cases composed with
    | receive =>
      rw [spells.1.2.1]
      rfl
    | fallback hword =>
      rcases hword with rfl | rfl
      · rw [spells.1.2]
        rfl
      · rw [spells.1.2.1]
        rfl
    | _ =>
      rw [spells.1.2]
      rfl
  | recovered recovered => cases recovered

/-- A unit that may be a member of a contract stands there as one. -/
theorem member {unit : SourceUnit .parsed} {member : ContractPart .parsed}
    (h : lexemes.Lays repairs i (.unit unit) j) (hmember : unit.member? = some member) :
    lexemes.Lays repairs i (.member member) j := by
  have hplace : (Part.member member).place = (Part.unit unit).place :=
    SourceUnit.place_of_member? hmember
  have hfields := SourceUnit.fields_of_member? hmember
  have htight : (Part.member member).Tight := by
    have htight : ∀ field ∈ (Part.unit unit).fields, ∀ e, .expression e ∈ field → e.IsWhole :=
      h.stands.here.tight
    rwa [← hfields] at htight
  refine ⟨hplace.trans h.place, Part.all_iff.mpr ⟨?_, fun field hfield child hchild =>
    h.stands.below (hfields ▸ hfield) hchild⟩⟩
  cases h.stands.here with
  | phrase holds =>
    obtain ⟨-, symbols, hphrased, hspells⟩ := holds
    cases hphrased with
    | unit hmember' hphrased =>
      obtain rfl : member = _ := Option.some.inj (hmember.symm.trans hmember')
      exact .phrase ⟨htight, symbols, hphrased, hplace ▸ hspells⟩
    | _ => cases hmember
  | composed _ _ composed spells =>
    cases composed with
    | unit hmember' composed =>
      obtain rfl : member = _ := Option.some.inj (hmember.symm.trans hmember')
      exact .composed htight (.of_none ⟨rfl, rfl, rfl, rfl⟩) composed (hplace ▸ spells)
    | contract => cases hmember
  | recovered recovered => cases recovered

end Lexemes.Lays

/-- A constant begins with a type. -/
theorem Lexemes.IsPhrase.constant_begins {lexemes : Lexemes} {i j : Nat}
    {declaration : FileConstant Extent}
    (h : lexemes.IsPhrase i (.unit (.constant declaration)) j) :
    lexemes.kindAt i = .ident ∨ lexemes.kindAt i = .kwMapping ∨ lexemes.kindAt i = .kwFunction := by
  obtain ⟨symbols, hphrased, hspells⟩ := h.written
  cases hphrased with
  | @constant _ type =>
    have htype : lexemes.IsPhrase i (.typeName type) type.place.next :=
      h.right_below (List.mem_cons_self ..) (List.mem_cons_self ..) hspells.1.1
    have hbegins := htype.beginsType
    unfold Kind.beginsType at hbegins
    split at hbegins
    · next hk => exact .inl hk
    · next hk => exact .inr (.inl hk)
    · next hk => exact .inr (.inr hk)
    · cases hbegins
  | unit hmember => cases hmember

/-- A rule that is tried at certain tokens reads there. -/
theorem Rule.Reads.oneOf {α : Type} {scope : Scope} {i j : Nat} {v : α} {kinds : List Kind}
    {r : Rule α} (hk : kinds.contains (scope.lexemes.kindAt i) = true) (h : r.Reads scope i v j) :
    (Rule.oneOf kinds r).Reads scope i v j := by
  intro trail
  unfold Rule.oneOf
  rw [if_pos hk]
  exact h trail

/-- A rule that is tried at certain tokens misses at others. -/
theorem Rule.Misses.oneOf {α : Type} {scope : Scope} {i : Nat} {kinds : List Kind} {r : Rule α}
    (hk : kinds.contains (scope.lexemes.kindAt i) = false) : (Rule.oneOf kinds r).Misses scope i :=
  fun _ => ⟨_, _, _, if_neg (by rw [hk]; exact Bool.false_ne_true)⟩

namespace Grammar

variable {inner : Inner} {scope : Scope} {repairs : Repairs} {i j k depth : Nat}

/-! ### Contracts -/

/-- The keywords of a contract are read. -/
theorem contractKind_reads {kind : ContractKind} (h : scope.lexemes.kindAt i = kind.kind) :
    contractKind.Reads scope i kind (i + 1) := by
  cases kind with
  | contract => exact .eatIf (by decide) h .pure
  | interface => exact .eatElse (by rw [h]; decide) <| .eatIf (by decide) h .pure
  | library =>
    exact .eatElse (by rw [h]; decide) <| .eatElse (by rw [h]; decide) <|
      .eatIf (by decide) h .pure

/-- The bases of a contract are read up to its body. -/
theorem bases_reads (hc : inner.Complete depth) (hd : scope.lexemes.size < i + depth)
    {values : List (Invocation Extent)} (h : scope.lexemes.Spells i (Symbol.bases values) j)
    (hall : ∀ v ∈ values, ∀ n, v.place.first = n →
      scope.lexemes.IsPhrase n (.invocation v) v.place.next)
    (hj : scope.lexemes.kindAt j = .lbrace) : (bases inner).Reads scope i values j := by
  unfold Symbol.bases at h
  split at h
  · next hnone =>
    obtain rfl : i = j := h
    rw [hnone]
    exact .eatElse (by rw [hj]; decide) .pure
  · next hsome =>
    obtain ⟨⟨-, his⟩, hseparated⟩ := h
    refine .eatIf (by decide) his (.separated hsome hseparated (by rw [hj]; decide) ?_)
    intro v hv n m hn hitem hend
    obtain ⟨⟨hfirst, -⟩, rfl⟩ := hitem
    refine invocation_reads hc (by omega) (hall v hv n hfirst) ?_ ?_ <;>
      rcases hend with hk | rfl <;> first
        | (rw [hk]; decide)
        | (rw [hj]; decide)

section Nested

variable (hi : inner.Sound) (hw : scope.lexemes.WellSpelled) (hc : inner.Complete depth)
  (hends : inner.statement.EndsAtMember)
  (ha : Scope.Admits { scope with inBody := true } repairs)
  (hs : inner.statement.TakesStatements { scope with inBody := true } repairs (i + 1))
  (hd : scope.lexemes.size < i + depth)

include hi hw hc hends ha hs hd

/-- The members of a contract are read one after the other. -/
theorem contractParts_gathers {body : List (ContractPart .parsed)} (hle : i ≤ k)
    (hspells : scope.lexemes.Spells k (Symbol.row (body.map (·.place)) ++ [.token .rbrace]) j)
    (hbody : ∀ m ∈ body, scope.lexemes.ChosenMember m ∧ ∀ n, m.place.first = n →
      scope.lexemes.Lays repairs n (.member m) m.place.next) :
    Gathers scope (nextPart? inner) k body j := by
  induction body generalizing k with
  | nil =>
    obtain ⟨⟨-, hclose⟩, rfl⟩ := hspells
    exact .nil (.eatIf (by decide) hclose .pure)
  | cons m body ih =>
    obtain ⟨⟨hfirst, hcovers⟩, hrest⟩ := hspells
    obtain ⟨⟨hchosen, hlays⟩, hbody⟩ := List.forall_mem_cons.mp hbody
    replace hlays := hlays k hfirst
    have hlt := hlays.lt
    have hread :=
      contractPart_reads_chosen hi hw hc hends ha (hs.mono (by omega)) (by omega) hlays hchosen
    refine .cons (.eatElse ?_ (.map (.finish hread))) hlt (ih (by omega) hrest hbody) ?_
    · intro hk
      have hbegins := hlays.member_begins
      rw [hk] at hbegins
      cases hbegins
    · have hinside := hcovers.inside (m.place.next - 1) (by dsimp only at hfirst ⊢; omega)
        (by dsimp only; omega)
      have := Lexemes.lt_size_of_kindAt hinside
      omega

/-- A contract is read, member by member. -/
theorem contract_reads_whole {declaration : Contract .parsed}
    (h : scope.lexemes.Lays repairs i (.unit (.contract declaration)) j) :
    (contract inner).Reads scope i declaration j := by
  obtain ⟨symbols, hcomposed, hdecided, hspells⟩ := h.composed id nofun
  cases hcomposed with
  | unit hmember => cases hmember
  | @contract place name kind isAbstract values body =>
    obtain rfl : place = ⟨i, j⟩ := h.place
    simp only [List.append_assoc, List.cons_append] at hspells
    obtain ⟨k, habstract, ⟨hne, hkind⟩, ⟨-, hname, rfl⟩, hrest⟩ :=
      Lexemes.spells_append.mp hspells
    obtain ⟨l, hvalues, ⟨-, hopen⟩, hmembers⟩ := Lexemes.spells_append.mp hrest
    have hle := habstract.inside.1
    have hle' := hvalues.inside.1
    have hbegins : contractKeywords.contains (scope.lexemes.kindAt i) = true ∧
        (Parser.eat .kwAbstract).Reads scope i isAbstract k := by
      cases isAbstract with
      | false =>
        obtain rfl : i = k := habstract
        refine ⟨?_, .eat_not ?_⟩ <;> rw [hkind] <;> cases kind <;> first | rfl | decide
      | true =>
        obtain ⟨⟨-, hk⟩, rfl⟩ := habstract
        exact ⟨by rw [hk]; rfl, .eat (by decide) hk⟩
    have hread : (bases inner).Reads scope (k + 1 + 1) values l :=
      bases_reads hc (by omega) hvalues (fun v hv n hfirst =>
        (h.right_below (List.mem_cons_self ..) (List.mem_map_of_mem hv) hfirst).isPhrase trivial)
        hopen
    have hgathers : Gathers scope (nextPart? inner) (l + 1) body j :=
      contractParts_gathers hi hw hc hends ha hs hd (by omega) hmembers fun m hm =>
        ⟨hdecided.members m hm, fun n hfirst =>
          h.right_below (List.mem_cons_of_mem _ (List.mem_cons_self ..)) (List.mem_map_of_mem hm)
            hfirst⟩
    rw [contract_eq]
    exact .oneOf hbegins.1 <| .within <| .ofParser <| .bind .position <| .bind hbegins.2 <|
      .bind (contractKind_reads hkind) <| .bind (.expectIdent hname) <| .bind hread <|
      .bind (.expect (by decide) hopen) <| .bind (.collect hgathers) <| .bind .extentFrom .pure

/-! ### Units -/

omit hi hw hc hends ha hs hd in
/-- Contracts begin with one of four keywords. -/
theorem contract_misses {scope : Scope} {i : Nat}
    (h : contractKeywords.contains (scope.lexemes.kindAt i) = false) :
    (contract inner).Misses scope i := by
  rw [contract_eq]
  exact .oneOf h

/-- The rules for units that the first two tokens decide. -/
def unitRules (inner : Inner) : List (Guarded (SourceUnit .parsed)) :=
  [.keyword .kwPragma pragmaDirective keywordRule_misses,
    (Guarded.keyword .kwImport importDirective keywordRule_misses).map .importDirective,
    Guarded.map .contract ⟨fun lexemes index => contractKeywords.contains (lexemes.kindAt index),
      contract inner, contract_misses⟩,
    (Guarded.keyword .kwFunction (freeFunction inner) keywordRule_misses).map .function,
    (Guarded.struct inner).map .struct, Guarded.enumeration.map .enumeration,
    (Guarded.event inner).map .event, (Guarded.error inner).map .error,
    (Guarded.usingDirective inner).map .usingDirective, Guarded.valueType.map .valueType]

omit hi hw hc hends ha hs hd in
/-- The rules for units are tried in order, and a constant last. -/
theorem sourceUnit_eq_unitRules :
    sourceUnit inner = Rule.named .sourceUnit (Rule.firstOf
      ((unitRules inner).map (·.rule) ++ [(fileConstant inner).map SourceUnit.constant])) := rfl

omit hi hw hc hends ha hs hd in
/-- No two of them apply at the same token. -/
theorem unitRules_exclude : (unitRules inner).Pairwise Guarded.Excludes := by
  simp +contextual [unitRules, Guarded.Excludes, Guarded.event, Guarded.error, Guarded.struct,
    Guarded.enumeration, Guarded.usingDirective, Guarded.valueType, Guarded.keyword, Guarded.word,
    Guarded.map, contractKeywords, Lexemes.isWordAt, or_imp]

omit hi hw hc hends ha hs hd in
/-- What one of the rules reads is a unit. -/
theorem sourceUnit_reads_of {u : SourceUnit .parsed} (n : Fin 10)
    (h : ((unitRules inner).get n).rule.Reads scope i u j) :
    (sourceUnit inner).Reads scope i u j := by
  rw [sourceUnit_eq_unitRules]
  exact .named (Guarded.reads unitRules_exclude (List.get_mem (unitRules inner) n) h)

/-- A unit is read if it is the first way to read what it is written as. -/
theorem sourceUnit_reads_chosen {u : SourceUnit .parsed} (h : scope.lexemes.Lays repairs i (.unit u) j)
    (hchosen : scope.lexemes.ChosenUnit u) : (sourceUnit inner).Reads scope i u j := by
  cases u with
  | pragma directive =>
    exact sourceUnit_reads_of 0 (pragmaDirective_reads trivial (h.isPhrase trivial))
  | coderPragma directive =>
    exact sourceUnit_reads_of 0 (pragmaDirective_reads trivial (h.isPhrase trivial))
  | experimentalPragma directive =>
    exact sourceUnit_reads_of 0 (pragmaDirective_reads trivial (h.isPhrase trivial))
  | importDirective directive =>
    exact sourceUnit_reads_of 1 (.map (importDirective_reads (h.isPhrase trivial)))
  | contract declaration =>
    exact sourceUnit_reads_of 2 (.map (contract_reads_whole hi hw hc hends ha hs hd h))
  | function function =>
    exact sourceUnit_reads_of 3 (.map (function_reads hc hends ha hs hd (h.member rfl)).2)
  | struct definition =>
    exact sourceUnit_reads_of 4
      (.map (structDefinition_reads hc hd ((h.member rfl).isPhrase trivial)))
  | enumeration definition =>
    exact sourceUnit_reads_of 5 (.map (enumDefinition_reads ((h.member rfl).isPhrase trivial)))
  | event definition =>
    exact sourceUnit_reads_of 6
      (.map (eventDefinition_reads hc hd ((h.member rfl).isPhrase trivial)))
  | error definition =>
    exact sourceUnit_reads_of 7
      (.map (errorDefinition_reads hc hd ((h.member rfl).isPhrase trivial)))
  | usingDirective directive =>
    exact sourceUnit_reads_of 8
      (.map (usingDirective_reads hc hd ((h.member rfl).isPhrase trivial)))
  | valueType definition =>
    exact sourceUnit_reads_of 9
      (.map (valueTypeDefinition_reads ((h.member rfl).isPhrase trivial)))
  | constant declaration =>
    have hphrase := h.isPhrase trivial
    have hread := Rule.Reads.map (f := SourceUnit.constant (F := .parsed))
      (fileConstant_reads hc hd hphrase)
    obtain rfl : declaration.place.first = i := congrArg Extent.first h.place
    rw [sourceUnit_eq_unitRules]
    refine .named <| Guarded.reads_rest ?_ (.first hread)
    obtain ⟨herror, hfunction⟩ := hchosen
    simp only [Lexemes.DefinesError, not_and] at herror
    rcases hphrase.constant_begins with hk | hk | hk
    · simpa [unitRules, Guarded.event, Guarded.error, Guarded.struct, Guarded.enumeration,
        Guarded.usingDirective, Guarded.valueType, Guarded.keyword, Guarded.word, Guarded.map,
        contractKeywords, hk] using herror
    · simp [unitRules, Guarded.event, Guarded.error, Guarded.struct, Guarded.enumeration,
        Guarded.usingDirective, Guarded.valueType, Guarded.keyword, Guarded.word, Guarded.map,
        contractKeywords, Lexemes.isWordAt, hk]
    · exact absurd hk hfunction

end Nested

/-! ### Sources -/

/-- The units of a source are read one after the other. -/
theorem units_gathers (hw : scope.lexemes.WellSpelled)
    (ha : Scope.Admits { scope with inBody := true } repairs) {units : List (SourceUnit .parsed)}
    (hspells : scope.lexemes.Spells i (Symbol.row (units.map (·.place))) j)
    (hends : scope.lexemes.kindAt j = .eof)
    (hunits : ∀ u ∈ units, scope.lexemes.ChosenUnit u ∧
      (Part.unit u).All (scope.lexemes.Supports repairs)) :
    Gathers scope (nextUnit? (Inner.ofLexemes scope.lexemes)) i units j := by
  induction units generalizing i with
  | nil =>
    obtain rfl : i = j := hspells
    exact .nil (.bind (.check hends) .pure)
  | cons u units ih =>
    obtain ⟨⟨hfirst, hcovers⟩, hrest⟩ := hspells
    obtain ⟨⟨hchosen, hstands⟩, hunits⟩ := List.forall_mem_cons.mp hunits
    have hlays : scope.lexemes.Lays repairs i (.unit u) u.place.next :=
      ⟨by rw [← hfirst]; rfl, hstands⟩
    have hlt := hlays.lt
    have hne : scope.lexemes.kindAt i ≠ .eof :=
      hcovers.inside i (Nat.le_of_eq hfirst) hlt
    have hs : (Inner.ofLexemes scope.lexemes).statement.TakesStatements
        { scope with inBody := true } repairs (i + 1) :=
      @Inner.takesStatements_upTo { scope with inBody := true } repairs hw ha _ _
        (by dsimp only; omega)
    have hread := sourceUnit_reads_chosen (Inner.sound_upTo _) hw (Inner.complete_upTo _)
      (Inner.built_upTo _).ends ha hs (by omega) hlays hchosen
    refine .cons (.bind (.check_not hne) (.map (.finish hread))) hlt (ih hrest hunits) ?_
    have hinside := hcovers.inside (u.place.next - 1) (by dsimp only at hfirst ⊢; omega)
      (by dsimp only; omega)
    have := Lexemes.lt_size_of_kindAt hinside
    omega

/-- A source that stands in the input is parsed, if its blocks are cut short only where that is
tolerated. -/
theorem parseUnits_of_isSource {lexemes : Lexemes} (hw : lexemes.WellSpelled) {tolerant : Bool}
    (ha : Scope.Admits { lexemes, tolerant, inBody := true } repairs)
    {units : List (SourceUnit .parsed)} (h : lexemes.IsSource repairs units j) :
    parseUnits lexemes tolerant = .ok units := by
  have hgathers : Gathers { lexemes, tolerant } (nextUnit? (Inner.ofLexemes lexemes)) 0 units j :=
    units_gathers hw ha h.row h.ends fun u hu => ⟨h.chosen u hu, h.stands u hu⟩
  obtain ⟨trail, hrun⟩ := Reads.collect hgathers {}
  unfold parseUnits run
  rw [units_eq, hrun]

/-- An input parses to units if and only if they stand in it, from its start to its end. -/
theorem parseUnits_eq_ok_iff {lexemes : Lexemes} (hw : lexemes.WellSpelled)
    {units : List (SourceUnit .parsed)} :
    parseUnits lexemes false = .ok units ↔ ∃ j, lexemes.IsSource .none units j := by
  constructor
  · exact parseUnits_isSource hw
  · rintro ⟨j, h⟩
    exact parseUnits_of_isSource hw ⟨by decide, by intro h; cases h⟩ h

end Grammar

end SolidityParser
