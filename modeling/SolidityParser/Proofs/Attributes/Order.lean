import Mathlib
import SolidityParser.Proofs.Attributes.Signature
import SolidityParser.Proofs.Remainder

/-!
# Attributes in any order

**Theorem** (`Source.parse_functions_reordered`): functions whose words differ in the order of their
attributes only are the same up to their places, if the last attribute of each sort is the same in
both and the modifiers come in the same order. All functions have words of that form
(`Source.exists_functionWords`), and the last attributes are the same if no two of one sort differ
(`Specifier.Reorders.of_agree`).

That the last one counts cannot be left out: `public private` and `private public` are not the same
(`Source.parse_functions_last_counts`).

Both functions are made of the words of the first but for the attributes, since an input is one
function at the most (`Lexemes.Lays.function_unique`); and what specifiers say together does not
depend on their order (`Specifier.Reorders.ofItems_eq`).
-/

namespace SolidityParser

/-! ### Specifiers in another order -/

namespace Specifier

variable {specifiers others : List Specifier} {sort : AttributeSort}

/-- The last specifier of a sort. -/
def last? (specifiers : List Specifier) (sort : AttributeSort) : Option Specifier :=
  (specifiers.filter (·.sort = sort)).getLast?

/-- The specifiers of one list are those of another in another order, which keeps the modifiers in
theirs, and leaves those of each other sort last that are. -/
structure Reorders (specifiers others : List Specifier) : Prop where
  /-- They are the same. -/
  perm : specifiers.Perm others
  /-- The modifiers come in the same order. -/
  modifiers : specifiers.filter (·.sort = .modifier) = others.filter (·.sort = .modifier)
  /-- The last of each other sort is the same. -/
  last : ∀ sort ≠ .modifier, last? specifiers sort = last? others sort

/-- The last specifier of a sort is one of them, and of that sort. -/
theorem mem_of_last? {s : Specifier} (h : last? specifiers sort = some s) :
    s ∈ specifiers ∧ s.sort = sort := by
  simpa using List.mem_filter.mp (List.mem_of_getLast? h)

/-- In another order there is a last one of a sort exactly if there is one here. -/
theorem last?_eq_none (h : specifiers.Perm others) :
    last? specifiers sort = none ↔ last? others sort = none := by
  rw [last?, last?, List.getLast?_eq_none_iff, List.getLast?_eq_none_iff]
  exact ⟨fun hnil => (hnil ▸ h.filter _).symm.eq_nil, fun hnil => (hnil ▸ h.filter _).eq_nil⟩

/-- Where no two specifiers of one sort differ, but for modifiers, the order of these is all that
has to be kept. -/
theorem Reorders.of_agree (hperm : specifiers.Perm others)
    (hmodifiers : specifiers.filter (·.sort = .modifier) = others.filter (·.sort = .modifier))
    (hagree : ∀ s ∈ specifiers, ∀ t ∈ specifiers, s.sort = t.sort → s.sort ≠ .modifier → s = t) :
    Reorders specifiers others := by
  refine ⟨hperm, hmodifiers, fun sort hsort => ?_⟩
  cases hs : last? specifiers sort with
  | none => exact ((last?_eq_none hperm).mp hs).symm
  | some s =>
    cases ht : last? others sort with
    | none =>
      rw [(last?_eq_none hperm).mpr ht] at hs
      cases hs
    | some t =>
      obtain ⟨hmem, rfl⟩ := mem_of_last? hs
      obtain ⟨hmem', hsame⟩ := mem_of_last? ht
      exact congrArg some (hagree s hmem t (hperm.mem_iff.mpr hmem') hsame.symm hsort)

/-- What specifiers say together does not depend on their order. -/
theorem Reorders.ofItems_eq (h : Reorders specifiers others) {said : Specifier → Attribute}
    (hsaid : ∀ s ∈ specifiers, (said s).sort? = some s.sort) :
    FunctionAttributes.ofItems (specifiers.map said) =
      FunctionAttributes.ofItems (others.map said) := by
  have hfilter (sort : AttributeSort) {list : List Specifier} (hlist : list ⊆ specifiers) :
      (list.map said).filter (·.sort? = some sort) = (list.filter (·.sort = sort)).map said := by
    rw [List.filter_map]
    refine congrArg _ (List.filter_congr fun s hs => ?_)
    simp [hsaid s (hlist hs)]
  refine FunctionAttributes.ofItems_congr (fun sort hsort => ?_) ?_
  · have hlast := h.last sort hsort
    unfold last? at hlast
    unfold Attribute.last?
    rw [hfilter sort (List.Subset.refl _), hfilter sort h.perm.symm.subset, List.getLast?_map,
      List.getLast?_map, hlast]
  · rw [hfilter _ (List.Subset.refl _), hfilter _ h.perm.symm.subset, h.modifiers]

end Specifier

/-! ### Functions that stand in an input -/

namespace Lexemes

variable {lexemes other : Lexemes} {i j j' : Nat} {f g : FunctionDeclaration .parsed}
  {written : FunctionWords} {specifiers others : List Specifier}

/-- A function stands with what it says after its name. -/
theorem Lays.signature (h : lexemes.Lays .none i (.member (.function f)) j) :
    lexemes.kindAt i = .kwFunction ∧
      (lexemes.kindAt (i + 1) = .ident ∧ lexemes.textAt (i + 1) = f.name) ∧
      ∃ items, f.attributes = FunctionAttributes.ofItems items ∧
        lexemes.IsSignature .none (i + 2) f.parameters items f.returns f.body j := by
  obtain ⟨symbols, hcomposed, -, hspells⟩ := h.composed id nofun
  cases hcomposed with
  | function hplain hitems =>
    obtain ⟨⟨-, hk⟩, ⟨-, hname⟩, hsignature⟩ := hspells
    exact ⟨hk, hname, _, rfl, .of_supports hsignature hplain hitems
      fun _ hfield _ => h.stands.below hfield⟩

/-- Its words are those of a function. -/
theorem Lays.exists_functionWords (hspelled : lexemes.Spelled)
    (h : lexemes.Lays .none i (.member (.function f)) j) :
    ∃ (written : FunctionWords) (specifiers : List Specifier), written.name = f.name ∧
      lexemes.HasRow i (written.wordsWith specifiers) j := by
  obtain ⟨hk, hname, items, -, hsignature⟩ := h.signature
  obtain ⟨written, specifiers, hwritten, hrow⟩ := hsignature.exists_words hspelled f.name
  exact ⟨written, specifiers, hwritten, .of hspelled (by decide) ⟨by decide, hk⟩
    ⟨hwritten ▸ hname, hrow⟩⟩

/-- An input is one function at the most. -/
theorem Lays.function_unique (hw : lexemes.WellSpelled)
    (hf : lexemes.Lays .none 0 (.member (.function f)) j)
    (hg : lexemes.Lays .none 0 (.member (.function g)) j) (hend : lexemes.kindAt j = .eof) :
    f = g := by
  have hparse {d : FunctionDeclaration .parsed}
      (hd : lexemes.Lays .none 0 (.member (.function d)) j) :
      Grammar.parseUnits lexemes false = .ok [.function d] := by
    have hunit : lexemes.Lays .none 0 (.unit (.function d)) j := hd.unit rfl
    refine (Grammar.parseUnits_eq_ok_iff hw).mpr ⟨j, hunit.spells rfl, hend, ?_, ?_⟩
    · simpa using hunit.stands
    · simp [ChosenUnit]
  have hequal := (hparse hf).symm.trans (hparse hg)
  simpa using hequal

/-- Functions that differ in the order of their attributes only are the same, but for places. -/
theorem Lays.forget_eq (hw : lexemes.WellSpelled) (hw' : other.WellSpelled)
    (hf : lexemes.Lays .none 0 (.member (.function f)) j)
    (hg : other.Lays .none 0 (.member (.function g)) j') (hend : lexemes.kindAt j = .eof)
    (hend' : other.kindAt j' = .eof) (hrow : lexemes.HasRow 0 (written.wordsWith specifiers) j)
    (hrow' : other.HasRow 0 (written.wordsWith others) j')
    (hreorders : Specifier.Reorders specifiers others) :
    f.relocate (.forget .parsed) = g.relocate (.forget .parsed) := by
  obtain ⟨-, hname, items, -, hsignature⟩ := hf.signature
  obtain ⟨said, hsaid, hmoved⟩ := hsignature.exists_moved hrow.2.2
  have hspelled : f.name = written.name := hname.2.symm.trans hrow.2.1.2
  -- in any input, the function is made of the same, but for the attributes
  have hforget {any : Lexemes} {k : Nat} {d : FunctionDeclaration .parsed} {list : List Specifier}
      (hw : any.WellSpelled) (hd : any.Lays .none 0 (.member (.function d)) k)
      (hend : any.kindAt k = .eof) (hrow : any.HasRow 0 (written.wordsWith list) k)
      (hlist : list ⊆ specifiers) :
      d.relocate (.forget .parsed) = { f.relocate (.forget .parsed) with
        attributes := (FunctionAttributes.ofItems (list.map said)).relocate (fun _ => ()) } := by
    obtain ⟨hk, hname', -⟩ := hd.signature
    obtain ⟨p, q, items', hitems', hsignature'⟩ := hmoved hlist hrow.2.2 (by rw [hend]; rfl)
    have hspelled' : d.name = f.name := (hname'.2.symm.trans hrow.2.1.2).trans hspelled.symm
    rw [hd.function_unique hw (hsignature'.function_lays hk hname') hend]
    have hparameter (m : Nat → Nat) (v : Parameter Extent) :
        (v.relocate (Extent.move m)).relocate (Relocation.forget .parsed).place =
          v.relocate (Relocation.forget .parsed).place :=
      Part.parameter.inj (Part.relocate_relocate (.move m) (.forget .parsed)
        (.parameter v : Part .parsed))
    have hlist : Parameter.relocateList (Relocation.forget .parsed).place =
        List.map (·.relocate (Relocation.forget .parsed).place) :=
      funext (Parameter.relocateList_eq _)
    have hblock (m : Nat → Nat) (v : Block .parsed) :
        (v.relocate (.move m)).relocate (.forget .parsed) = v.relocate (.forget .parsed) :=
      Part.block.inj (Part.relocate_relocate (.move m) (.forget .parsed) (.block v))
    simp only [FunctionDeclaration.relocate, FunctionDeclaration.mk.injEq, hspelled', hlist,
      hparameter, hblock, List.map_map, Option.map_map, Function.comp_def, true_and, and_true]
    exact FunctionAttributes.forget_ofItems hitems'
  rw [hforget hw hf hend hrow (List.Subset.refl _),
    hforget hw' hg hend' hrow' hreorders.perm.symm.subset,
    hreorders.ofItems_eq fun s hs => (hsaid s hs).sort]

end Lexemes

/-! ### Functions of a program -/

section Functions

variable {F G : Form}

/-- The function that a member of a contract is. -/
def ContractPart.function? : ContractPart F → Option (FunctionDeclaration F)
  | .function declaration => some declaration
  | _ => none

/-- The functions with a name in a unit. -/
def SourceUnit.functions : SourceUnit F → List (FunctionDeclaration F)
  | .function declaration => [declaration]
  | .contract declaration => declaration.body.filterMap (·.function?)
  | _ => []

/-- The functions with a name in a program. -/
def Program.functions (program : Program) : List (FunctionDeclaration .located) :=
  program.body.flatMap (·.functions)

/-- A unit that is moved has its functions moved. -/
theorem SourceUnit.functions_relocate (r : Relocation F G) (unit : SourceUnit F) :
    (unit.relocate r).functions = unit.functions.map (·.relocate r) := by
  cases unit with
  | contract declaration =>
    simp only [relocate, Contract.relocate, functions, List.filterMap_map, List.map_filterMap]
    refine List.filterMap_congr fun member _ => ?_
    cases member <;> rfl
  | _ => rfl

end Functions

/-- A function that stands in a unit is a member by itself. -/
theorem SourceUnit.all_of_mem_functions {lexemes : Lexemes} {repairs : Repairs}
    {unit : SourceUnit .parsed} (h : (Part.unit unit).All (lexemes.Supports repairs))
    {f : FunctionDeclaration .parsed} (hf : f ∈ unit.functions) :
    (Part.member (.function f)).All (lexemes.Supports repairs) := by
  cases unit with
  | function declaration =>
    obtain rfl := List.mem_singleton.mp hf
    have hlays : lexemes.Lays repairs f.place.first (.unit (.function f)) f.place.next := ⟨rfl, h⟩
    exact (hlays.member rfl).stands
  | contract declaration =>
    obtain ⟨member, hmember, hfunction⟩ := List.mem_filterMap.mp hf
    cases member <;> cases hfunction
    exact h.below (List.mem_cons_of_mem _ (List.mem_singleton_self _)) (List.mem_map_of_mem hmember)
  | _ => cases hf

namespace Source

variable {source source' : String} {program program' : Program}
  {f g : FunctionDeclaration .located}

/-- The text of a function is a function by itself, the same but for places. -/
theorem parse_function_slice (h : parse source = .ok program) (hf : f ∈ program.functions) :
    ∃ (d : FunctionDeclaration .parsed) (count : Nat),
      (lex (slice source f.place)).tokens.lexemes.Lays .none 0 (.member (.function d)) count ∧
      (lex (slice source f.place)).tokens.lexemes.kindAt count = .eof ∧
      d.relocate (.forget .parsed) = f.relocate (.forget .located) := by
  obtain ⟨-, units, hunits, rfl⟩ := parse_eq_ok_iff.mp h
  obtain ⟨j, hsource⟩ := (Grammar.parseUnits_eq_ok_iff (lex_wellSpelled source)).mp hunits
  obtain ⟨_, hunit, hf⟩ := List.mem_flatMap.mp hf
  obtain ⟨u, hu, rfl⟩ := List.mem_map.mp hunit
  rw [SourceUnit.functions_relocate] at hf
  obtain ⟨d, hd, rfl⟩ := List.mem_map.mp hf
  have hall := SourceUnit.all_of_mem_functions (hsource.stands u hu) hd
  obtain ⟨before, count, -, hlength, hembeds, hend⟩ := exists_embeds hall.here.covers
  have hlays := hembeds.lays_back hend hlength hall id
  have hforget := Part.relocate_relocate (.move (· - d.place.first)) (.forget .parsed)
    (.member (.function d))
  have hforget' := Part.relocate_relocate (layout source).relocation (.forget .located)
    (.member (.function d))
  refine ⟨d.relocate (.move (· - d.place.first)), count, hlays, hend, ?_⟩
  injection hforget.trans hforget'.symm with hmember
  injection hmember

/-- The words of each function are those of its name, its parameters, its attributes and a rest. -/
theorem exists_functionWords (h : parse source = .ok program) (hf : f ∈ program.functions) :
    ∃ (written : FunctionWords) (specifiers : List Specifier), written.name = f.name ∧
      (lex (slice source f.place)).tokens.lexemes = .ofWords (written.wordsWith specifiers) := by
  obtain ⟨d, count, hd, hend, hforget⟩ := parse_function_slice h hf
  have hname : d.name = f.name := congrArg FunctionDeclaration.name hforget
  obtain ⟨written, specifiers, hwritten, hrow⟩ := hd.exists_functionWords (lex_spelled _)
  have hinside := hd.covers.inside
  rw [hd.place] at hinside
  exact ⟨written, specifiers, hwritten.trans hname,
    hrow.eq_ofWords (hrow.ne_eof hinside) hend⟩

/-- Functions whose words differ in the order of their attributes only are the same, but for places
and for what their bodies leave unread, if the last attribute of each sort is the same and the
modifiers come in the same order. -/
theorem parse_functions_reordered (h : parse source = .ok program)
    (h' : parse source' = .ok program') (hf : f ∈ program.functions) (hg : g ∈ program'.functions)
    {written : FunctionWords} {specifiers others : List Specifier}
    (hwords : (lex (slice source f.place)).tokens.lexemes = .ofWords (written.wordsWith specifiers))
    (hwords' : (lex (slice source' g.place)).tokens.lexemes = .ofWords (written.wordsWith others))
    (hreorders : Specifier.Reorders specifiers others) :
    f.relocate (.forget .located) = g.relocate (.forget .located) ∧
      (f.body.map (·.relocate .unplace) = g.body.map (·.relocate .unplace) →
        f.relocate .unplace = g.relocate .unplace) := by
  obtain ⟨d, count, hd, hend, hforget⟩ := parse_function_slice h hf
  obtain ⟨e, count', he, hend', hforget'⟩ := parse_function_slice h' hg
  have hrow {text : String} {words : List Lexeme} {part : Part .parsed} {count : Nat}
      (hwords : (lex text).tokens.lexemes = .ofWords words)
      (hlays : (lex text).tokens.lexemes.Lays .none 0 part count)
      (hend : (lex text).tokens.lexemes.kindAt count = .eof) :
      (lex text).tokens.lexemes.HasRow 0 words count := by
    have hcovers := hlays.covers
    rw [hlays.place] at hcovers
    obtain rfl := hcovers.eq_length hwords hend
    rw [hwords]
    exact (Lexemes.hasRow_ofWords words).1
  have hequal : f.relocate (.forget .located) = g.relocate (.forget .located) := by
    rw [← hforget, ← hforget']
    exact hd.forget_eq (lex_wellSpelled _) (lex_wellSpelled _) he hend hend'
      (hrow hwords hd hend) (hrow hwords' he hend') hreorders
  refine ⟨hequal, fun hbody => ?_⟩
  -- only bodies hold more than words and places
  injection hequal with _ hname hparameters hreturns hattributes _
  simp only [FunctionDeclaration.relocate, FunctionDeclaration.mk.injEq]
  exact ⟨trivial, hname, hparameters, hreturns, hattributes, hbody⟩

/-! ### Functions that are declared only -/

/-- A function without parameters, results and a body. -/
def declaredOnly (length : Nat) (attributes : FunctionAttributes Span) :
    FunctionDeclaration .located :=
  ⟨⟨0, length⟩, "f", [], none, attributes, none⟩

/-- A program that is one such function. -/
def programOf (length : Nat) (attributes : FunctionAttributes Span) : Program :=
  ⟨⟨0, length⟩, [.function (declaredOnly length attributes)]⟩

/-- What the words of such a function are, but for its attributes. -/
def declaredWords : FunctionWords where
  name := "f"
  parameters := ⟨[], .nil⟩
  rest := [.of .semicolon]
  stops := ⟨_, _, rfl, by decide⟩

/-- Attributes with two modifiers, of which the first has an argument. -/
def modified (first argument second : Span) : FunctionAttributes Span where
  mutability := some .view
  modifiers := [⟨first, "m", some [.identifier argument "a"]⟩, ⟨second, "n", none⟩]
  isVirtual := true

/-- A function with two modifiers among its other specifiers. -/
theorem parse_modified :
    parse "function f() pure virtual m(a) view n;" =
      .ok (programOf 38 (modified ⟨26, 30⟩ ⟨28, 29⟩ ⟨36, 37⟩)) := by
  rw [parse, read_ofList_of_le (by decide)]
  cbv

/-- The same function with its specifiers in another order. -/
theorem parse_modifiedFirst :
    parse "function f() m(a) pure n view virtual;" =
      .ok (programOf 38 (modified ⟨13, 17⟩ ⟨15, 16⟩ ⟨23, 24⟩)) := by
  rw [parse, read_ofList_of_le (by decide)]
  cbv

/-- A modifier with the argument `a`. -/
def called : Specifier :=
  .modifier "m" [] (some ⟨[⟨.ident, "a"⟩], .other rfl rfl .nil⟩)

/-- Two functions with the same attributes in another order, of which one sort comes twice. -/
theorem parse_functions_reordered_twice :
    let f := declaredOnly 38 (modified ⟨26, 30⟩ ⟨28, 29⟩ ⟨36, 37⟩)
    let g := declaredOnly 38 (modified ⟨13, 17⟩ ⟨15, 16⟩ ⟨23, 24⟩)
    Specifier.Reorders
        [.mutability .pure, .isVirtual, called, .mutability .view, .modifier "n" [] none]
        [called, .mutability .pure, .modifier "n" [] none, .mutability .view, .isVirtual] ∧
      f.relocate (.forget .located) = g.relocate (.forget .located) ∧
      f.relocate .unplace = g.relocate .unplace := by
  intro f g
  have hreorders : Specifier.Reorders
      [.mutability .pure, .isVirtual, called, .mutability .view, .modifier "n" [] none]
      [called, .mutability .pure, .modifier "n" [] none, .mutability .view, .isVirtual] := by
    refine ⟨?_, rfl, fun sort _ => by cases sort <;> rfl⟩
    have hfront := @List.perm_middle _ called [.mutability .pure, .isVirtual]
      [.mutability .view, .modifier "n" [] none]
    exact hfront.trans (.cons _ (.cons _ (List.reverse_perm _).symm))
  have hwords : (lex (slice "function f() pure virtual m(a) view n;" f.place)).tokens.lexemes =
      .ofWords (declaredWords.wordsWith
        [.mutability .pure, .isVirtual, called, .mutability .view, .modifier "n" [] none]) := by
    rw [slice, lex_ofList]
    decide +kernel
  have hwords' : (lex (slice "function f() m(a) pure n view virtual;" g.place)).tokens.lexemes =
      .ofWords (declaredWords.wordsWith
        [called, .mutability .pure, .modifier "n" [] none, .mutability .view, .isVirtual]) := by
    rw [slice, lex_ofList]
    decide +kernel
  obtain ⟨hforget, hunplace⟩ := parse_functions_reordered parse_modified parse_modifiedFirst
    (List.mem_singleton_self f) (List.mem_singleton_self g) hwords hwords' hreorders
  exact ⟨hreorders, hforget, hunplace rfl⟩

/-- Of two words for its visibility the last one counts: here it is private. -/
theorem parse_publicPrivate :
    parse "function f() public private;" =
      .ok (programOf 28 { visibility := some .privateAccess }) := by
  rw [parse, read_ofList_of_le (by decide)]
  cbv

/-- Here it is public. -/
theorem parse_privatePublic :
    parse "function f() private public;" =
      .ok (programOf 28 { visibility := some .publicAccess }) := by
  rw [parse, read_ofList_of_le (by decide)]
  cbv

/-- Of two attributes of one sort, the last one counts, so that their order matters. -/
theorem parse_functions_last_counts :
    ¬ ∀ source source' program program', parse source = .ok program →
      parse source' = .ok program' → ∀ f ∈ program.functions, ∀ g ∈ program'.functions,
      ∀ (written : FunctionWords) (specifiers others : List Specifier),
        (lex (slice source f.place)).tokens.lexemes = .ofWords (written.wordsWith specifiers) →
        (lex (slice source' g.place)).tokens.lexemes = .ofWords (written.wordsWith others) →
        specifiers.Perm others →
        specifiers.filter (·.sort = .modifier) = others.filter (·.sort = .modifier) →
        f.relocate (.forget .located) = g.relocate (.forget .located) := by
  intro h
  have hequal := h _ _ _ _ parse_publicPrivate parse_privatePublic _ (List.mem_singleton_self _) _
    (List.mem_singleton_self _) declaredWords [.visibility .publicAccess, .visibility .privateAccess]
    [.visibility .privateAccess, .visibility .publicAccess] (by rw [slice, lex_ofList]; decide +kernel)
    (by rw [slice, lex_ofList]; decide +kernel) (.swap ..) rfl
  have hvisibility := congrArg (·.attributes.visibility) hequal
  cases hvisibility

end Source

end SolidityParser
