import SolidityParser.Grammar.Unit
import SolidityParser.Proofs.Sound.TypeName

/-!
# What the rules for declarations read

Each rule for a declaration without statements in it reads a phrase: a variable of a contract, an
event, a struct, a pragma and so on. Attributes are read one after the other, and what is kept of
them is what `FunctionAttributes.ofItems` and `VariableAttributes.ofItems` keep.
-/

namespace SolidityParser

/-- What the attributes of a function keep is written where it stands. -/
structure Lexemes.HoldsAttributes (lexemes : Lexemes) (attributes : FunctionAttributes Extent) :
    Prop where
  /-- The modifiers are. -/
  modifiers : ∀ v ∈ attributes.modifiers, (Part.invocation v : Part .parsed).All lexemes.Holds
  /-- The bases are. -/
  overrides : ∀ p ∈ attributes.overrides.getD [], (Part.path p : Part .parsed).All lexemes.Holds

namespace Grammar

open SolidityParser.Symbol (series)

variable {inner : Inner} {scope : Scope} {i j k : Nat}

/-! ### Rules that a keyword decides -/

/-- A rule that a keyword decides is run where the keyword stands. -/
theorem keywordRule_gives {α : Type} {keyword : Kind} {construct : Construct} {p : Parser α} {v : α}
    (h : (keywordRule keyword construct p).Gives scope i v j) :
    scope.lexemes.kindAt i = keyword ∧ p.Gives scope i v j :=
  h.within.opening.imp_right fun h => h.ofParser

/-- A rule that a word decides is run where the word stands, with the token after it that makes it
more than a name. -/
theorem wordRule_gives {α : Type} {word : String} {next : Kind} {construct : Construct}
    {p : Parser α} {v : α} (h : (wordRule word next construct p).Gives scope i v j) :
    (scope.lexemes.kindAt i = .ident ∧ scope.lexemes.textAt i = word) ∧
      scope.lexemes.kindAt (i + 1) = next ∧ p.Gives scope i v j := by
  obtain ⟨htest, h⟩ := h.provided
  obtain ⟨hword, hnext⟩ := Bool.and_eq_true_iff.mp htest
  exact ⟨⟨Lexemes.kindAt_of_isWordAt hword, Lexemes.textAt_of_isWordAt hword⟩,
    beq_iff_eq.mp hnext, h.within.ofParser⟩

/-! ### Words and names -/

/-- A word that may be missing is spelled if it was found. -/
theorem eatWord_spells {word : String} {found : Bool}
    (h : (Parser.eatWord word).Gives scope i found j) :
    scope.lexemes.Spells i (if found then [.word .ident word] else []) j := by
  rw [← bind_pure (Parser.eatWord word)] at h
  rcases h.eatWord with ⟨hword, h⟩ | ⟨-, h⟩
  · obtain ⟨rfl, rfl⟩ := h.pure
    exact ⟨⟨by decide, Lexemes.kindAt_of_isWordAt hword, Lexemes.textAt_of_isWordAt hword⟩, rfl⟩
  · obtain ⟨rfl, rfl⟩ := h.pure
    rfl

/-- A name is a phrase of one token. -/
theorem expectIdent_isPhrase {name : Identifier Extent}
    (h : Parser.expectIdent.Gives scope i name j) :
    scope.lexemes.IsPhrase i (.identifier name) j := by
  rw [← bind_pure Parser.expectIdent] at h
  obtain ⟨hk, h⟩ := h.expectIdent
  obtain ⟨rfl, rfl⟩ := h.pure
  exact .of_written rfl (by simp [Part.Tight, Part.fields]) .identifier
    ⟨⟨by decide, hk, rfl⟩, rfl⟩ (by simp [Part.fields])

/-! ### Paths -/

/-- A path takes every point, each of which needs a name after it. -/
theorem namePath_spells {path : NamePath Extent} (h : namePath.Gives scope i path j) :
    ∃ written : WrittenPath, path = written.path ∧ written.place = ⟨i, j⟩ ∧
      scope.lexemes.Spells i (Symbol.names written.first written.more) j := by
  obtain ⟨hk, h⟩ := h.expectIdent
  obtain ⟨path, k, hpath, h⟩ := h.bind
  obtain ⟨rfl, rfl⟩ := h.extentFrom.pure
  obtain ⟨k, ⟨more, rfl, hspells⟩, hlast⟩ := hpath.iterate
    (P := fun path k => ∃ more : List String, path = dotted (scope.lexemes.textAt i) more ∧
      scope.lexemes.Spells (i + 1) (more.flatMap fun name => [.token .dot, .word .ident name]) k)
    ⟨[], rfl, rfl⟩ (by
      rintro path k _ l ⟨more, rfl, hspells⟩ h
      rcases h.kindIf with ⟨hdot, h⟩ | ⟨-, h⟩
      · obtain ⟨hident, h⟩ := (h.advance (by rw [hdot]; decide)).expectIdent
        obtain ⟨⟨⟩, rfl⟩ := h.pure
        refine ⟨more ++ [scope.lexemes.textAt (k + 1)], by simp [dotted], ?_⟩
        rw [List.flatMap_append]
        exact hspells.append ⟨⟨by decide, hdot⟩, ⟨by decide, hident, rfl⟩, rfl⟩
      · cases h.pure.1)
  rcases hlast.kindIf with ⟨hdot, h⟩ | ⟨-, h⟩
  · cases (h.advance (by rw [hdot]; decide)).expectIdent.2.pure.1
  · obtain ⟨-, rfl⟩ := h.pure
    exact ⟨⟨⟨i, j⟩, scope.lexemes.textAt i, more⟩, rfl, rfl, ⟨by decide, hk, rfl⟩, hspells⟩

/-- A path that is written by its names is a phrase. -/
theorem path_isPhrase {written : WrittenPath} (hplace : written.place = ⟨i, j⟩)
    (h : scope.lexemes.Spells i (Symbol.names written.first written.more) j) :
    scope.lexemes.IsPhrase i (.path written.path) j :=
  .of_written hplace (by simp [Part.Tight, Part.fields]) .path h (by simp [Part.fields])

/-- A path in the place of a smaller construct. -/
theorem namePath_symbol {path : NamePath Extent} (h : namePath.Gives scope i path j) :
    ∃ written : WrittenPath, path = written.path ∧ scope.lexemes.Spells i [written.symbol] j := by
  obtain ⟨written, rfl, hplace, hspells⟩ := namePath_spells h
  refine ⟨written, rfl, Lexemes.spells_path_iff.mpr ?_⟩
  rw [hplace]
  exact ⟨rfl, hspells, rfl⟩

/-- The bases after `override` are spelled as a list in parentheses, or there is no list. -/
theorem overrideList_spells {bases : List (NamePath Extent)}
    (h : overrideList.Gives scope i bases j) :
    ∃ listed : Option (List WrittenPath), bases = Attribute.bases listed ∧
      scope.lexemes.Spells i (Attribute.baseSymbols listed) j ∧
      ∀ p ∈ bases, (Part.path p : Part .parsed).All scope.lexemes.Holds := by
  rcases h.eatIf (by decide) with ⟨hopen, h⟩ | ⟨-, h⟩
  · have hall : ∀ p ∈ bases, (Part.path p : Part .parsed).All scope.lexemes.Holds := by
      refine h.series_forall (by decide) fun i path j h => ?_
      obtain ⟨written, rfl, hplace, hspells⟩ := namePath_spells h
      exact (path_isPhrase hplace hspells).holds
    obtain ⟨listed, rfl, hspells⟩ := h.series_exists_spells (by decide)
      fun _ _ _ h => namePath_symbol h
    exact ⟨some listed, rfl, ⟨⟨by decide, hopen⟩, hspells⟩, hall⟩
  · obtain ⟨rfl, rfl⟩ := h.pure
    exact ⟨none, rfl, rfl, by simp⟩

/-! ### Attributes that list bases -/

/-- Attributes of modifiers are read one after the other. -/
theorem modifierAttributes_spells {isVirtual : Bool} {overrides : Option (List (NamePath Extent))}
    (h : modifierAttributes.Gives scope i (isVirtual, overrides) j) :
    ∃ items : List Attribute, (∀ item ∈ items, item.IsOfModifier) ∧
      isVirtual = (FunctionAttributes.ofItems items).isVirtual ∧
      overrides = (FunctionAttributes.ofItems items).overrides ∧
      scope.lexemes.Spells i (Symbol.attributes items) j ∧
      ∀ p ∈ overrides.getD [], (Part.path p : Part .parsed).All scope.lexemes.Holds := by
  obtain ⟨k, ⟨items, hitems, hv, ho, hspells, hall⟩, hlast⟩ := h.iterate
    (P := fun kept k => ∃ items : List Attribute, (∀ item ∈ items, item.IsOfModifier) ∧
      kept.1 = (FunctionAttributes.ofItems items).isVirtual ∧
      kept.2 = (FunctionAttributes.ofItems items).overrides ∧
      scope.lexemes.Spells i (Symbol.attributes items) k ∧
      ∀ p ∈ kept.2.getD [], (Part.path p : Part .parsed).All scope.lexemes.Holds)
    ⟨[], by simp, rfl, rfl, rfl, by simp⟩ (by
      rintro ⟨isVirtual, overrides⟩ k _ l ⟨items, hitems, rfl, rfl, hspells, hall⟩ h
      rcases h.eatIf (by decide) with ⟨hk, h⟩ | ⟨-, h⟩
      · obtain ⟨⟨⟩, rfl⟩ := h.pure
        refine ⟨items ++ [.isVirtual], ?_, by simp [FunctionAttributes.ofItems,
          FunctionAttributes.set], by simp [FunctionAttributes.ofItems, FunctionAttributes.set], ?_,
          hall⟩
        · simpa [or_imp, forall_and, Attribute.IsOfModifier] using hitems
        · rw [Symbol.attributes, List.flatMap_append]
          exact hspells.append ⟨⟨by decide, hk⟩, rfl⟩
      rcases h.eatIf (by decide) with ⟨hk, h⟩ | ⟨-, h⟩
      · obtain ⟨bases, m, hbases, h⟩ := h.bind
        obtain ⟨⟨⟩, rfl⟩ := h.pure
        obtain ⟨listed, rfl, hspells', hall⟩ := overrideList_spells hbases
        refine ⟨items ++ [.overrides listed], ?_, by simp [FunctionAttributes.ofItems,
          FunctionAttributes.set], by simp [FunctionAttributes.ofItems, FunctionAttributes.set], ?_,
          hall⟩
        · simpa [or_imp, forall_and, Attribute.IsOfModifier] using hitems
        · have hone : scope.lexemes.Spells k (Attribute.overrides listed).symbols l :=
            ⟨⟨by decide, hk⟩, hspells'⟩
          simpa [Symbol.attributes] using hspells.append hone
      · cases h.pure.1)
  rcases hlast.eatIf (by decide) with ⟨-, h⟩ | ⟨-, h⟩
  · cases h.pure.1
  rcases h.eatIf (by decide) with ⟨-, h⟩ | ⟨-, h⟩
  · obtain ⟨_, _, -, h⟩ := h.bind
    cases h.pure.1
  · obtain ⟨-, rfl⟩ := h.pure
    exact ⟨items, hitems, hv, ho, hspells, hall⟩

/-- One round of attributes spells the attribute it takes, and the attributes so far with it are
those of a longer list. -/
theorem variableAttribute?_spells {attributes : VariableAttributes}
    {next : Option VariableAttributes}
    (h : (variableAttribute? attributes).Gives scope i next j)
    (hattributes : ∀ p ∈ attributes.overrides.getD [],
      (Part.path p : Part .parsed).All scope.lexemes.Holds) :
    next = none ∧ i = j ∨ ∃ item : Attribute, item.IsOfVariable ∧
      next = some (attributes.set item) ∧ scope.lexemes.Spells i item.symbols j ∧
      ∀ p ∈ (attributes.set item).overrides.getD [],
        (Part.path p : Part .parsed).All scope.lexemes.Holds := by
  obtain ⟨visibility, k, hvisibility, h⟩ := h.bind
  obtain ⟨hv, rfl⟩ := visibility?_gives hvisibility
  cases visibility with
  | some found =>
    obtain ⟨rfl, rfl⟩ := h.pure
    have hk := Visibility.ofKind?_eq_some.mp hv.symm
    exact .inr ⟨.visibility found, trivial, rfl, ⟨⟨by cases found <;> decide, hk⟩, rfl⟩,
      hattributes⟩
  | none =>
  rcases h.eatIf (by decide) with ⟨hk, h⟩ | ⟨-, h⟩
  · obtain ⟨rfl, rfl⟩ := h.pure
    exact .inr ⟨.isConstant, trivial, rfl, ⟨⟨by decide, hk⟩, rfl⟩, hattributes⟩
  rcases h.eatIf (by decide) with ⟨hk, h⟩ | ⟨-, h⟩
  · obtain ⟨rfl, rfl⟩ := h.pure
    exact .inr ⟨.isImmutable, trivial, rfl, ⟨⟨by decide, hk⟩, rfl⟩, hattributes⟩
  rcases h.eatIf (by decide) with ⟨hk, h⟩ | ⟨-, h⟩
  · obtain ⟨bases, k, hbases, h⟩ := h.bind
    obtain ⟨rfl, rfl⟩ := h.pure
    obtain ⟨listed, rfl, hspells, hall⟩ := overrideList_spells hbases
    exact .inr ⟨.overrides listed, trivial, rfl, ⟨⟨by decide, hk⟩, hspells⟩, hall⟩
  · obtain ⟨rfl, rfl⟩ := h.pure
    exact .inl ⟨rfl, rfl⟩

/-- Attributes of variables are read one after the other. -/
theorem variableAttributes_spells {attributes : VariableAttributes}
    (h : (Parser.iterate variableAttribute? {}).Gives scope i attributes j) :
    ∃ items : List Attribute, (∀ item ∈ items, item.IsOfVariable) ∧
      attributes = VariableAttributes.ofItems items ∧
      scope.lexemes.Spells i (Symbol.attributes items) j ∧
      ∀ p ∈ attributes.overrides.getD [],
        (Part.path p : Part .parsed).All scope.lexemes.Holds := by
  obtain ⟨k, ⟨items, hitems, rfl, hspells, hall⟩, hlast⟩ := h.iterate
    (P := fun attributes k => ∃ items : List Attribute, (∀ item ∈ items, item.IsOfVariable) ∧
      attributes = VariableAttributes.ofItems items ∧
      scope.lexemes.Spells i (Symbol.attributes items) k ∧
      ∀ p ∈ attributes.overrides.getD [],
        (Part.path p : Part .parsed).All scope.lexemes.Holds)
    ⟨[], by simp, rfl, rfl, by simp⟩ (by
      rintro _ k _ l ⟨items, hitems, rfl, hspells, hall⟩ h
      rcases variableAttribute?_spells h hall with ⟨hnone, -⟩ | ⟨item, hitem, hnext, hmore, hall⟩
      · cases hnone
      · cases hnext
        refine ⟨items ++ [item], ?_, by simp [VariableAttributes.ofItems], ?_, hall⟩
        · simpa [or_imp, forall_and] using ⟨hitems, hitem⟩
        · simpa [Symbol.attributes] using hspells.append hmore)
  rcases variableAttribute?_spells hlast hall with ⟨-, rfl⟩ | ⟨_, -, hsome, -⟩
  · exact ⟨items, hitems, rfl, hspells, hall⟩
  · cases hsome

section Nested

variable (hi : inner.Sound) (hw : scope.lexemes.WellSpelled)

include hi hw

/-! ### Invocations -/

/-- Arguments are spelled as a list in parentheses, or there are none. -/
theorem arguments?_spells {given : Option (List (Expression Extent))}
    (h : (arguments? inner).Gives scope i given j) :
    scope.lexemes.Spells i (Symbol.arguments given) j ∧
      ∀ e ∈ given.getD [], (Part.expression e).All scope.lexemes.Holds ∧ e.IsWhole := by
  rcases h.eatIf (by decide) with ⟨hopen, h⟩ | ⟨-, h⟩
  · obtain ⟨values, hvalues, rfl⟩ := h.map
    have hspells := hvalues.within.series_spells (by decide) fun _ _ _ h =>
      expression_spells hi hw h
    exact ⟨⟨⟨by decide, hopen⟩, hspells⟩, hvalues.within.series_forall (by decide) fun _ _ _ h =>
      ⟨(hi.expression hw h).phrase.holds, (hi.expression hw h).level_le⟩⟩
  · obtain ⟨rfl, rfl⟩ := h.pure
    exact ⟨rfl, by simp⟩

/-- An invocation is a path and its arguments. -/
theorem invocation_isPhrase {value : Invocation Extent}
    (h : (invocation inner).Gives scope i value j) :
    scope.lexemes.IsPhrase i (.invocation value) j := by
  obtain ⟨path, k, hpath, h⟩ := h.bind
  obtain ⟨given, l, hgiven, h⟩ := h.bind
  obtain ⟨rfl, rfl⟩ := h.extentFrom.pure
  obtain ⟨written, rfl, hplace, hspells⟩ := namePath_spells hpath
  obtain ⟨hspells', hall⟩ := arguments?_spells hi hw hgiven
  refine .of_written ?_ ?_ .invocation (hspells.append hspells') ?_
  · simp [Part.place, WrittenPath.path, hplace]
  · simpa [Part.Tight, Part.fields] using fun e he => (hall e he).2
  · simpa [Part.fields] using fun e he => (hall e he).1

/-! ### Attributes of functions -/

/-- One round of the attributes of a function spells one of them, whichever sort it is of. -/
theorem functionAttribute?_spells {attributes : FunctionAttributes Extent}
    {next : Option (FunctionAttributes Extent)}
    (h : (functionAttribute? inner attributes).Gives scope i next j)
    (hattributes : scope.lexemes.HoldsAttributes attributes) :
    next = none ∧ i = j ∨ ∃ item : Attribute, item.IsOfFunction ∧
      next = some (attributes.set item) ∧ scope.lexemes.Spells i item.symbols j ∧
      scope.lexemes.HoldsAttributes (attributes.set item) := by
  obtain ⟨visibility, k, hvisibility, h⟩ := h.bind
  obtain ⟨hv, rfl⟩ := visibility?_gives hvisibility
  cases visibility with
  | some found =>
    obtain ⟨rfl, rfl⟩ := h.pure
    have hk := Visibility.ofKind?_eq_some.mp hv.symm
    exact .inr ⟨.visibility found, trivial, rfl, ⟨⟨by cases found <;> decide, hk⟩, rfl⟩,
      hattributes.modifiers, hattributes.overrides⟩
  | none =>
  obtain ⟨mutability, l, hmutability, h⟩ := h.bind
  obtain ⟨hm, rfl⟩ := mutability?_gives hmutability
  cases mutability with
  | some found =>
    obtain ⟨rfl, rfl⟩ := h.pure
    have hk := StateMutability.ofKind?_eq_some.mp hm.symm
    exact .inr ⟨.mutability found, trivial, rfl, ⟨⟨by cases found <;> decide, hk⟩, rfl⟩,
      hattributes.modifiers, hattributes.overrides⟩
  | none =>
  rcases h.eatIf (by decide) with ⟨hk, h⟩ | ⟨-, h⟩
  · obtain ⟨rfl, rfl⟩ := h.pure
    exact .inr ⟨.isVirtual, trivial, rfl, ⟨⟨by decide, hk⟩, rfl⟩, hattributes.modifiers,
      hattributes.overrides⟩
  rcases h.eatIf (by decide) with ⟨hk, h⟩ | ⟨-, h⟩
  · obtain ⟨bases, k, hbases, h⟩ := h.bind
    obtain ⟨rfl, rfl⟩ := h.pure
    obtain ⟨listed, rfl, hspells, hall⟩ := overrideList_spells hbases
    exact .inr ⟨.overrides listed, trivial, rfl, ⟨⟨by decide, hk⟩, hspells⟩,
      hattributes.modifiers, hall⟩
  rcases h.kindIf with ⟨-, h⟩ | ⟨-, h⟩
  · obtain ⟨modifier, k, hmodifier, h⟩ := h.bind
    obtain ⟨rfl, rfl⟩ := h.pure
    have hphrase := invocation_isPhrase hi hw hmodifier
    refine .inr ⟨.modifier modifier, trivial, rfl, hphrase.spells rfl, ?_, hattributes.overrides⟩
    intro v hv
    rcases List.mem_append.mp hv with hv | hv
    · exact hattributes.modifiers v hv
    · obtain rfl := List.mem_singleton.mp hv
      exact hphrase.holds
  · obtain ⟨rfl, rfl⟩ := h.pure
    exact .inl ⟨rfl, rfl⟩

/-- The attributes of a function are those of a list that is spelled, of which the last of each sort
counts. -/
theorem functionAttributes_spells {attributes : FunctionAttributes Extent}
    (h : (functionAttributes inner).Gives scope i attributes j) :
    ∃ items : List Attribute, (∀ item ∈ items, item.IsOfFunction) ∧
      attributes = FunctionAttributes.ofItems items ∧
      scope.lexemes.Spells i (Symbol.attributes items) j ∧
      scope.lexemes.HoldsAttributes attributes := by
  obtain ⟨k, ⟨items, hitems, rfl, hspells, hall⟩, hlast⟩ := h.iterate
    (P := fun attributes k => ∃ items : List Attribute, (∀ item ∈ items, item.IsOfFunction) ∧
      attributes = FunctionAttributes.ofItems items ∧
      scope.lexemes.Spells i (Symbol.attributes items) k ∧
      scope.lexemes.HoldsAttributes attributes)
    ⟨[], by simp, rfl, rfl, by simp, by simp⟩ (by
      rintro _ k _ l ⟨items, hitems, rfl, hspells, hall⟩ h
      rcases functionAttribute?_spells hi hw h hall with
        ⟨hnone, -⟩ | ⟨item, hitem, hnext, hmore, hall⟩
      · cases hnone
      · cases hnext
        refine ⟨items ++ [item], ?_, by simp [FunctionAttributes.ofItems], ?_, hall⟩
        · simpa [or_imp, forall_and] using ⟨hitems, hitem⟩
        · simpa [Symbol.attributes] using hspells.append hmore)
  rcases functionAttribute?_spells hi hw hlast hall with ⟨-, rfl⟩ | ⟨_, -, hsome, -⟩
  · exact ⟨items, hitems, rfl, hspells, hall⟩
  · cases hsome

/-! ### Members of contracts -/

/-- A value after an equals sign is spelled, or there is none. -/
theorem initialValue?_spells {value : Option (Expression Extent)}
    (h : (initialValue? inner).Gives scope i value j) :
    scope.lexemes.Spells i (Symbol.initialValue value) j ∧
      ∀ e ∈ value, (Part.expression e).All scope.lexemes.Holds ∧ e.IsWhole := by
  rcases h.eatIf (by decide) with ⟨hk, h⟩ | ⟨-, h⟩
  · obtain ⟨e, hvalue, rfl⟩ := h.map
    have hread := hi.expression hw hvalue
    refine ⟨⟨⟨by decide, hk⟩, hread.phrase.spells rfl⟩, ?_⟩
    rintro _ ⟨⟩
    exact ⟨hread.phrase.holds, hread.level_le⟩
  · obtain ⟨rfl, rfl⟩ := h.pure
    exact ⟨rfl, by simp⟩

/-- A state variable is its type, its attributes, its name and its value. -/
theorem stateVariable_isPhrase {declaration : StateVariable Extent}
    (h : (stateVariable inner).Gives scope i declaration j) :
    scope.lexemes.IsPhrase i (.member (.stateVariable declaration)) j := by
  obtain ⟨type, k, htype, h⟩ := h.attempt.ofParser.within.position.bind
  obtain ⟨attributes, l, hattributes, h⟩ := h.bind
  obtain ⟨hk, h⟩ := h.expectIdent
  obtain ⟨value, m, hvalue, h⟩ := h.bind
  obtain ⟨hsemi, h⟩ := h.expect (by decide)
  obtain ⟨rfl, rfl⟩ := h.extentFrom.pure
  have hw' : ({ scope with speculative := true } : Scope).lexemes.WellSpelled := hw
  have hphrase := (hi.typeName hw' htype.finish).1
  obtain ⟨items, hitems, rfl, hspells, hall⟩ := variableAttributes_spells hattributes
  obtain ⟨hspells', hvalue⟩ := initialValue?_spells hi hw' hvalue
  refine .of_written rfl ?_ (.stateVariable hitems) ?_ ?_
  · simpa [Part.Tight, Part.fields, Part.memberFields, Part.overridesField] using
      fun e he => (hvalue e he).2
  · have hname : scope.lexemes.Spells l
        (.word .ident (scope.lexemes.textAt l) :: Symbol.initialValue value) m :=
      ⟨⟨by decide, hk, rfl⟩, hspells'⟩
    have hend : scope.lexemes.Spells m [.token .semicolon] (m + 1) := ⟨⟨by decide, hsemi⟩, rfl⟩
    simpa [Part.place] using (hphrase.spells hspells).append (hname.append hend)
  · simpa [Part.fields, Part.memberFields, Part.overridesField] using
      ⟨hphrase.holds, hall, fun e he => (hvalue e he).1⟩

/-- An event may have parameters that are indexed, and may be anonymous. -/
theorem eventDefinition_isPhrase {definition : EventDefinition Extent}
    (h : (eventDefinition inner).Gives scope i definition j) :
    scope.lexemes.IsPhrase i (.member (.event definition)) j := by
  obtain ⟨hk, h⟩ := keywordRule_gives h
  obtain ⟨hname, h⟩ := (h.position.advance (by rw [hk]; decide)).expectIdent
  obtain ⟨parameters, k, hparameters, h⟩ := h.bind
  obtain ⟨isAnonymous, l, hanonymous, h⟩ := h.bind
  obtain ⟨hsemi, h⟩ := h.expect (by decide)
  obtain ⟨rfl, rfl⟩ := h.extentFrom.pure
  obtain ⟨hspells, hall⟩ := parameters_spells (hi.typeName hw) hparameters
  refine .of_written rfl (by simp [Part.Tight, Part.fields, Part.memberFields]) .event ?_ ?_
  · have hevent : scope.lexemes.Spells i
        [.token .kwEvent, .word .ident (scope.lexemes.textAt (i + 1))] (i + 2) :=
      ⟨⟨by decide, hk⟩, ⟨by decide, hname, rfl⟩, rfl⟩
    have hend : scope.lexemes.Spells l [.token .semicolon] (l + 1) := ⟨⟨by decide, hsemi⟩, rfl⟩
    exact ((hevent.append hspells).append (eatWord_spells hanonymous)).append hend
  · simpa [Part.fields, Part.memberFields] using fun p hp => (hall p hp).1

/-- An error has parameters that are not. -/
theorem errorDefinition_isPhrase {definition : ErrorDefinition Extent}
    (h : (errorDefinition inner).Gives scope i definition j) :
    scope.lexemes.IsPhrase i (.member (.error definition)) j := by
  obtain ⟨⟨hk, hword⟩, -, h⟩ := wordRule_gives h
  obtain ⟨hname, h⟩ := (h.position.advance (by rw [hk]; decide)).expectIdent
  obtain ⟨parameters, k, hparameters, h⟩ := h.bind
  obtain ⟨hsemi, h⟩ := h.expect (by decide)
  obtain ⟨rfl, rfl⟩ := h.extentFrom.pure
  obtain ⟨hspells, hall⟩ := parameters_spells (hi.typeName hw) hparameters
  refine .of_written rfl (by simp [Part.Tight, Part.fields, Part.memberFields])
    (.error fun p hp => (hall p hp).2 rfl) ?_ ?_
  · have herror : scope.lexemes.Spells i
        [.word .ident "error", .word .ident (scope.lexemes.textAt (i + 1))] (i + 2) :=
      ⟨⟨by decide, hk, hword⟩, ⟨by decide, hname, rfl⟩, rfl⟩
    exact (herror.append hspells).append ⟨⟨by decide, hsemi⟩, rfl⟩
  · simpa [Part.fields, Part.memberFields] using fun p hp => (hall p hp).1

/-- The members of a struct, each with a semicolon after it, and the closing brace. -/
theorem structMembers_spells {members : List (VariableDeclaration Extent)}
    (h : Collected scope (structMember? inner) i members j) :
    scope.lexemes.Spells i
        (members.flatMap (fun m => [.part m.place, .token .semicolon]) ++ [.token .rbrace]) j ∧
      ∀ m ∈ members, (Part.declared m).All scope.lexemes.Holds := by
  induction h with
  | nil last =>
    rcases last.eatIf (by decide) with ⟨hk, h⟩ | ⟨-, h⟩
    · obtain ⟨-, rfl⟩ := h.pure
      exact ⟨⟨⟨by decide, hk⟩, rfl⟩, by simp⟩
    · obtain ⟨_, _, -, h⟩ := h.bind
      cases (h.expect (by decide)).2.pure.1
  | cons first _ ih =>
    obtain ⟨hspells, hall⟩ := ih
    rcases first.eatIf (by decide) with ⟨-, h⟩ | ⟨-, h⟩
    · cases h.pure.1
    · obtain ⟨member, k, hmember, h⟩ := h.bind
      obtain ⟨hsemi, h⟩ := h.expect (by decide)
      obtain ⟨⟨⟩, rfl⟩ := h.pure
      have hphrase := variableDeclaration_isPhrase hi hw hmember
      exact ⟨hphrase.spells ⟨⟨by decide, hsemi⟩, hspells⟩,
        List.forall_mem_cons.mpr ⟨hphrase.holds, hall⟩⟩

/-- A structure has members in braces, each with a semicolon of its own. -/
theorem structDefinition_isPhrase {definition : StructDefinition Extent}
    (h : (structDefinition inner).Gives scope i definition j) :
    scope.lexemes.IsPhrase i (.member (.struct definition)) j := by
  obtain ⟨hk, h⟩ := keywordRule_gives h
  obtain ⟨hname, h⟩ := (h.position.advance (by rw [hk]; decide)).expectIdent
  obtain ⟨hopen, h⟩ := h.expect (by decide)
  obtain ⟨members, k, hmembers, h⟩ := h.bind
  obtain ⟨rfl, rfl⟩ := h.extentFrom.pure
  obtain ⟨hspells, hall⟩ := structMembers_spells hi hw hmembers.collect
  refine .of_written rfl (by simp [Part.Tight, Part.fields, Part.memberFields]) .struct
    ⟨⟨by decide, hk⟩, ⟨by decide, hname, rfl⟩, ⟨by decide, hopen⟩, hspells⟩ ?_
  simpa [Part.fields, Part.memberFields] using hall

end Nested

/-- An enumeration has names with commas between them. -/
theorem enumDefinition_isPhrase {definition : EnumDefinition Extent}
    (h : enumDefinition.Gives scope i definition j) :
    scope.lexemes.IsPhrase i (.member (.enumeration definition)) j := by
  obtain ⟨hk, h⟩ := keywordRule_gives h
  obtain ⟨hname, h⟩ := (h.position.advance (by rw [hk]; decide)).expectIdent
  obtain ⟨hopen, h⟩ := h.expect (by decide)
  obtain ⟨members, k, hmembers, h⟩ := h.bind
  obtain ⟨rfl, rfl⟩ := h.extentFrom.pure
  have hspells : scope.lexemes.Spells (i + 3)
      (series .rbrace (members.map fun m => [.part m.place])) j :=
    hmembers.series_spells (by decide) fun _ _ _ h => (expectIdent_isPhrase h).spells rfl
  have hall : ∀ m ∈ members, (Part.identifier m : Part .parsed).All scope.lexemes.Holds :=
    hmembers.series_forall (by decide) fun _ _ _ h => (expectIdent_isPhrase h).holds
  refine .of_written rfl (by simp [Part.Tight, Part.fields, Part.memberFields]) .enumeration
    ⟨⟨by decide, hk⟩, ⟨by decide, hname, rfl⟩, ⟨by decide, hopen⟩, hspells⟩ ?_
  simpa [Part.fields, Part.memberFields] using hall

/-! ### Directives -/

/-- What is attached is a library, or functions in braces. -/
theorem attachedFunctions_spells {library : Option String} {functions : List String}
    (h : attachedFunctions.Gives scope i (library, functions) j) :
    (∃ first more, library = some (dotted first more) ∧ functions = [] ∧
        scope.lexemes.Spells i (Symbol.names first more) j) ∨
      ∃ listed : List WrittenPath, library = none ∧ functions = listed.map (·.path.path) ∧
        scope.lexemes.Spells i
          (.token .lbrace :: series .rbrace (listed.map fun f => [f.symbol])) j := by
  rcases h.eatIf (by decide) with ⟨hopen, h⟩ | ⟨-, h⟩
  · obtain ⟨paths, k, hpaths, h⟩ := h.bind
    obtain ⟨⟨⟩, rfl⟩ := h.pure
    obtain ⟨listed, rfl, hspells⟩ := hpaths.series_exists_spells (by decide)
      fun _ _ _ h => namePath_symbol h
    exact .inr ⟨listed, rfl, by simp [Function.comp_def], ⟨by decide, hopen⟩, hspells⟩
  · obtain ⟨path, k, hpath, h⟩ := h.bind
    obtain ⟨⟨⟩, rfl⟩ := h.pure
    obtain ⟨written, rfl, -, hspells⟩ := namePath_spells hpath
    exact .inl ⟨written.first, written.more, rfl, rfl, hspells⟩

/-- An elementary type is one word, and `payable` may follow `address`. -/
theorem elementaryType_isPhrase {base : Identifier Extent} {payable : Bool}
    (h : elementaryType.Gives scope i (base, payable) j) :
    scope.lexemes.IsPhrase i (.typeName (.elementary base.place base.name payable)) j := by
  replace h := h.position.text.kind
  split at h
  · next hname =>
    obtain ⟨hk, helementary⟩ := hname
    obtain ⟨payable, k, hpayable, h⟩ := (h.advance (by rw [hk]; decide)).bind
    obtain ⟨⟨⟩, rfl⟩ := h.extentFrom.pure
    exact elementary_isPhrase hk helementary hpayable
  · obtain ⟨_, _, -, h⟩ := h.bind
    exact h.fail.elim

/-- A value type is a name for an elementary type. -/
theorem valueTypeDefinition_isPhrase {definition : ValueTypeDefinition Extent}
    (h : valueTypeDefinition.Gives scope i definition j) :
    scope.lexemes.IsPhrase i (.member (.valueType definition)) j := by
  obtain ⟨hk, h⟩ := keywordRule_gives h.provided.2
  obtain ⟨hname, h⟩ := (h.position.advance (by rw [hk]; decide)).expectIdent
  obtain ⟨his, h⟩ := h.expect (by decide)
  obtain ⟨⟨base, payable⟩, k, hbase, h⟩ := h.bind
  obtain ⟨hsemi, h⟩ := h.expect (by decide)
  obtain ⟨rfl, rfl⟩ := h.extentFrom.pure
  have hphrase := elementaryType_isPhrase hbase
  refine .of_written rfl (by simp [Part.Tight, Part.fields, Part.memberFields, Part.baseField])
    .valueType ⟨⟨by decide, hk⟩, ⟨by decide, hname, rfl⟩, ⟨by decide, his⟩,
      hphrase.spells ⟨⟨by decide, hsemi⟩, rfl⟩⟩ ?_
  simpa [Part.fields, Part.memberFields, Part.baseField] using hphrase.holds

section Nested

variable (hi : inner.Sound) (hw : scope.lexemes.WellSpelled)

include hi hw

/-- What functions are attached to is a type or every type, for the file or everywhere. -/
theorem attachment_spells {target : Option (TypeName Extent)} {isGlobal : Bool}
    (hfor : scope.lexemes.kindAt i = .kwFor)
    (htarget : (attachedType inner).Gives scope (i + 1) target j)
    (hglobal : (Parser.eatWord "global").Gives scope j isGlobal k)
    (hsemi : scope.lexemes.kindAt k = .semicolon) :
    scope.lexemes.Spells i (Symbol.attachment target isGlobal) (k + 1) ∧
      ∀ type ∈ target, (Part.typeName type).All scope.lexemes.Holds := by
  have hend : scope.lexemes.Spells k [.token .semicolon] (k + 1) := ⟨⟨by decide, hsemi⟩, rfl⟩
  have hrest := (eatWord_spells hglobal).append hend
  rcases htarget.eatIf (by decide) with ⟨hstar, h⟩ | ⟨-, h⟩
  · obtain ⟨rfl, rfl⟩ := h.pure
    exact ⟨⟨⟨by decide, hfor⟩, ⟨by decide, hstar⟩, hrest⟩, by simp⟩
  · obtain ⟨type, htype, rfl⟩ := h.map
    have hphrase := (hi.typeName hw htype.finish).1
    refine ⟨⟨⟨by decide, hfor⟩, hphrase.spells hrest⟩, ?_⟩
    rintro _ ⟨⟩
    exact hphrase.holds

/-- A directive attaches functions to a type. -/
theorem usingDirective_isPhrase {directive : UsingDirective Extent}
    (h : (usingDirective inner).Gives scope i directive j) :
    scope.lexemes.IsPhrase i (.member (.usingDirective directive)) j := by
  obtain ⟨hk, h⟩ := keywordRule_gives h
  obtain ⟨⟨library, functions⟩, k, hfunctions, h⟩ :=
    (h.position.advance (by rw [hk]; decide)).bind
  obtain ⟨hfor, h⟩ := h.expect (by decide)
  obtain ⟨target, l, htarget, h⟩ := h.bind
  obtain ⟨isGlobal, m, hglobal, h⟩ := h.bind
  obtain ⟨hsemi, h⟩ := h.expect (by decide)
  obtain ⟨rfl, rfl⟩ := h.extentFrom.pure
  obtain ⟨hspells, hall⟩ := attachment_spells hi hw hfor htarget hglobal hsemi
  have hbelow : ∀ field ∈ Part.memberFields (F := .parsed)
      (.usingDirective ⟨⟨i, m + 1⟩, library, functions, target, isGlobal⟩),
      ∀ child ∈ field, child.All scope.lexemes.Holds := by
    simpa [Part.memberFields] using hall
  rcases attachedFunctions_spells hfunctions with
    ⟨first, more, rfl, rfl, hspells'⟩ | ⟨listed, rfl, rfl, hspells'⟩
  · exact .of_written rfl (by simp [Part.Tight, Part.fields, Part.memberFields]) .usingLibrary
      ⟨⟨by decide, hk⟩, hspells'.append hspells⟩ hbelow
  · refine .of_written rfl (by simp [Part.Tight, Part.fields, Part.memberFields]) .usingFunctions
      ⟨⟨by decide, hk⟩, hspells'.append hspells⟩ hbelow

end Nested

/-! ### Units of a source -/

/-- A string is spelled by its text, and its value is what the text stands for. -/
theorem expectString_spells {value : String} (h : expectString.Gives scope i value j) :
    ∃ text, value = Quoted.valueOf text ∧ scope.lexemes.Spells i [.word .string text] j := by
  obtain ⟨hk, h⟩ := h.text.expect (by decide)
  obtain ⟨rfl, rfl⟩ := h.pure
  exact ⟨scope.lexemes.textAt i, rfl, ⟨by decide, hk, rfl⟩, rfl⟩

/-- A pragma that is kept as a passage takes the tokens up to a semicolon. -/
theorem skipToSemicolon_spells (h : skipToSemicolon.Gives scope i () j) :
    ∃ kinds : List Kind, (∀ k ∈ kinds, k ≠ .semicolon) ∧
      scope.lexemes.Spells i (kinds.map .token) j := by
  obtain ⟨_, k, h, hdone⟩ := h.bind
  obtain ⟨-, rfl⟩ := hdone.pure
  obtain ⟨k, ⟨kinds, hkinds, hspells⟩, hlast⟩ := h.iterate
    (P := fun _ k => ∃ kinds : List Kind, (∀ k ∈ kinds, k ≠ .semicolon) ∧
      scope.lexemes.Spells i (kinds.map .token) k)
    ⟨[], by simp, rfl⟩ (by
      rintro _ k _ l ⟨kinds, hkinds, hspells⟩ h
      replace h := h.kind
      split at h
      · cases h.pure.1
      · next hk =>
        obtain ⟨hsemi, heof⟩ := not_or.mp hk
        obtain ⟨-, rfl⟩ := (h.advance heof).pure
        refine ⟨kinds ++ [scope.lexemes.kindAt k], ?_, ?_⟩
        · simpa [or_imp, forall_and] using ⟨hkinds, hsemi⟩
        · rw [List.map_append]
          exact hspells.append ⟨⟨heof, rfl⟩, rfl⟩)
  replace hlast := hlast.kind
  split at hlast
  · obtain ⟨-, rfl⟩ := hlast.pure
    exact ⟨kinds, hkinds, hspells⟩
  · next hk =>
    cases (hlast.advance (not_or.mp hk).2).pure.1

/-- A pragma takes every token up to its semicolon, whatever these are. -/
theorem pragmaDirective_isPhrase {unit : SourceUnit .parsed}
    (h : pragmaDirective.Gives scope i unit j) : scope.lexemes.IsPhrase i (.unit unit) j := by
  obtain ⟨hk, h⟩ := keywordRule_gives h
  obtain ⟨hname, h⟩ := (h.position.advance (by rw [hk]; decide)).expectIdent
  dsimp only at h
  split at h
  · next hword =>
    obtain ⟨version, k, hversion, h⟩ := h.bind
    obtain ⟨hsemi, h⟩ := h.expect (by decide)
    obtain ⟨rfl, rfl⟩ := h.extentFrom.pure
    have hphrase := expectIdent_isPhrase hversion
    refine .of_written rfl (by simp [Part.Tight, Part.fields, Part.unitFields]) .coderPragma
      ⟨⟨by decide, hk⟩, ⟨by decide, hname, hword⟩, hphrase.spells ⟨⟨by decide, hsemi⟩, rfl⟩⟩ ?_
    simpa [Part.fields, Part.unitFields] using hphrase.holds
  · next hword =>
    obtain ⟨feature, k, hfeature, h⟩ := h.bind
    obtain ⟨hsemi, h⟩ := h.expect (by decide)
    obtain ⟨rfl, rfl⟩ := h.extentFrom.pure
    rcases hfeature.text.eatIf (by decide) with ⟨hident, h⟩ | ⟨-, h⟩
    · obtain ⟨rfl, rfl⟩ := h.pure
      exact .of_written rfl (by simp [Part.Tight, Part.fields, Part.unitFields]) .experimentalName
        ⟨⟨by decide, hk⟩, ⟨by decide, hname, hword⟩, ⟨by decide, hident, rfl⟩,
          ⟨by decide, hsemi⟩, rfl⟩ (by simp [Part.fields, Part.unitFields])
    · obtain ⟨raw, rfl, hspells⟩ := expectString_spells h
      have hend : scope.lexemes.Spells k [.token .semicolon] (k + 1) := ⟨⟨by decide, hsemi⟩, rfl⟩
      exact .of_written rfl (by simp [Part.Tight, Part.fields, Part.unitFields])
        .experimentalString
        ⟨⟨by decide, hk⟩, ⟨by decide, hname, hword⟩, hspells.append hend⟩
        (by simp [Part.fields, Part.unitFields])
  · next hcoder hexperimental =>
    obtain ⟨_, k, hvalue, h⟩ := h.position.bind
    obtain ⟨hsemi, h⟩ := h.extentFrom.expect (by decide)
    obtain ⟨rfl, rfl⟩ := h.extentFrom.pure
    obtain ⟨kinds, hkinds, hspells⟩ := skipToSemicolon_spells hvalue
    exact .of_written rfl (by simp [Part.Tight, Part.fields, Part.unitFields])
      (.pragma ⟨hcoder, hexperimental⟩ hkinds)
      ⟨⟨by decide, hk⟩, ⟨by decide, hname, rfl⟩, rfl,
        hspells.append ⟨rfl, ⟨by decide, hsemi⟩, rfl⟩⟩
      (by simp [Part.fields, Part.unitFields])

/-! ### Imports -/

/-- A new name comes after `as`. -/
theorem newName?_spells {newName : Option String} (h : newName?.Gives scope i newName j) :
    scope.lexemes.Spells i (Symbol.newName newName) j := by
  rcases h.eatIf (by decide) with ⟨hk, h⟩ | ⟨-, h⟩
  · obtain ⟨hname, h⟩ := h.expectIdent
    obtain ⟨rfl, rfl⟩ := h.pure
    exact ⟨⟨by decide, hk⟩, ⟨by decide, hname, rfl⟩, rfl⟩
  · obtain ⟨rfl, rfl⟩ := h.pure
    rfl

/-- An imported symbol is its name and a new one, if it gets one. -/
theorem importSymbol_spells {symbol : ImportSymbol Extent} (h : importSymbol.Gives scope i symbol j) :
    symbol.place = ⟨i, j⟩ ∧ scope.lexemes.Spells i
      (.word .ident symbol.name :: Symbol.newName symbol.newName) j := by
  obtain ⟨hk, h⟩ := h.expectIdent
  obtain ⟨newName, k, hnew, h⟩ := h.bind
  obtain ⟨rfl, rfl⟩ := h.extentFrom.pure
  exact ⟨rfl, ⟨by decide, hk, rfl⟩, newName?_spells hnew⟩

/-- Hence it is a phrase. -/
theorem importSymbol_isPhrase {symbol : ImportSymbol Extent}
    (h : importSymbol.Gives scope i symbol j) :
    scope.lexemes.IsPhrase i (.importSymbol symbol) j := by
  obtain ⟨hplace, hspells⟩ := importSymbol_spells h
  exact .of_written hplace (by simp [Part.Tight, Part.fields]) .importSymbol hspells
    (by simp [Part.fields])

/-- What an import takes its names from, after them. -/
theorem origin_spells {path : String} (hfrom : scope.lexemes.isWordAt i "from" = true)
    (hpath : expectString.Gives scope (i + 1) path j)
    (hsemi : scope.lexemes.kindAt j = .semicolon) :
    ∃ raw, path = Quoted.valueOf raw ∧ scope.lexemes.Spells i (Symbol.origin raw) (j + 1) := by
  obtain ⟨raw, rfl, hspells⟩ := expectString_spells hpath
  have hend : scope.lexemes.Spells j [.token .semicolon] (j + 1) := ⟨⟨by decide, hsemi⟩, rfl⟩
  exact ⟨raw, rfl, ⟨by decide, Lexemes.kindAt_of_isWordAt hfrom,
    Lexemes.textAt_of_isWordAt hfrom⟩, hspells.append hend⟩

/-- What an import takes is all of its source under one name, or is listed between braces. -/
theorem importedNames_gives {names : Option String × Option (List (ImportSymbol Extent))}
    (h : importedNames.Gives scope i names j) :
    (∃ newName, names = (some newName, none) ∧
      scope.lexemes.Spells i [.token .star, .token .kwAs, .word .ident newName] j) ∨
    ∃ symbols, names = (none, some symbols) ∧ scope.lexemes.kindAt i = .lbrace ∧
      (Parser.series .rbrace importSymbol).Gives scope (i + 1) symbols j := by
  rcases h.eatIf (by decide) with ⟨hstar, h⟩ | ⟨-, h⟩
  · obtain ⟨has, h⟩ := h.expect (by decide)
    obtain ⟨hname, h⟩ := h.expectIdent
    obtain ⟨rfl, rfl⟩ := h.pure
    exact .inl ⟨_, rfl, ⟨by decide, hstar⟩, ⟨by decide, has⟩, ⟨by decide, hname, rfl⟩, rfl⟩
  rcases h.eatIf (by decide) with ⟨hopen, h⟩ | ⟨-, h⟩
  · obtain ⟨symbols, m, hsymbols, h⟩ := h.bind
    obtain ⟨rfl, rfl⟩ := h.pure
    exact .inr ⟨symbols, rfl, hopen, hsymbols⟩
  · exact h.fail.elim

/-- An import says what is imported and where from, in one of its forms. -/
theorem importDirective_isPhrase {directive : ImportDirective Extent}
    (h : importDirective.Gives scope i directive j) :
    scope.lexemes.IsPhrase i (.unit (.importDirective directive)) j := by
  obtain ⟨hk, h⟩ := keywordRule_gives h
  rcases (h.position.advance (by rw [hk]; decide)).check with ⟨hstring, h⟩ | ⟨-, h⟩
  · obtain ⟨path, k, hpath, h⟩ := h.bind
    obtain ⟨newName, l, hnew, h⟩ := h.bind
    obtain ⟨hsemi, h⟩ := h.expect (by decide)
    obtain ⟨rfl, rfl⟩ := h.extentFrom.pure
    obtain ⟨raw, rfl, hspells⟩ := expectString_spells hpath
    refine .of_written rfl (by simp [Part.Tight, Part.fields, Part.unitFields]) .importFile ?_
      (by simp [Part.fields, Part.unitFields])
    have hend : scope.lexemes.Spells l [.token .semicolon] (l + 1) := ⟨⟨by decide, hsemi⟩, rfl⟩
    have himport : scope.lexemes.Spells i [.token .kwImport, .word .string raw] k :=
      ⟨⟨by decide, hk⟩, hspells⟩
    exact (himport.append (newName?_spells hnew)).append hend
  · obtain ⟨⟨newName, symbols⟩, k, hnames, h⟩ := h.bind
    obtain ⟨hfrom, h⟩ := h.expectWord
    obtain ⟨path, l, hpath, h⟩ := h.bind
    obtain ⟨hsemi, h⟩ := h.expect (by decide)
    obtain ⟨rfl, rfl⟩ := h.extentFrom.pure
    obtain ⟨raw, rfl, hspells⟩ := origin_spells hfrom hpath hsemi
    rcases importedNames_gives hnames with ⟨_, ⟨⟩, hall⟩ | ⟨symbols, ⟨⟩, hopen, hsymbols⟩
    · have hkeyword : scope.lexemes.Spells i [.token .kwImport] (i + 1) := ⟨⟨by decide, hk⟩, rfl⟩
      exact .of_written rfl (by simp [Part.Tight, Part.fields, Part.unitFields]) .importAll
        ((hkeyword.append hall).append hspells) (by simp [Part.fields, Part.unitFields])
    · have hlist : scope.lexemes.Spells (i + 2)
          (series .rbrace (symbols.map fun symbol => [.part symbol.place])) k :=
        hsymbols.series_spells (by decide) fun _ _ _ h => (importSymbol_isPhrase h).spells rfl
      have hall : ∀ symbol ∈ symbols,
          (Part.importSymbol symbol : Part .parsed).All scope.lexemes.Holds :=
        hsymbols.series_forall (by decide) fun _ _ _ h => (importSymbol_isPhrase h).holds
      refine .of_written rfl (by simp [Part.Tight, Part.fields, Part.unitFields]) .importNames
        ⟨⟨by decide, hk⟩, ⟨by decide, hopen⟩, hlist.append hspells⟩ ?_
      simpa [Part.fields, Part.unitFields] using hall

/-! ### Constants -/

/-- A constant outside contracts has a type, a name and a value. -/
theorem fileConstant_isPhrase (hi : inner.Sound) (hw : scope.lexemes.WellSpelled)
    {declaration : FileConstant Extent} (h : (fileConstant inner).Gives scope i declaration j) :
    scope.lexemes.IsPhrase i (.unit (.constant declaration)) j := by
  obtain ⟨type, k, htype, h⟩ := h.attempt.ofParser.position.bind
  obtain ⟨hconstant, h⟩ := h.expect (by decide)
  obtain ⟨hname, h⟩ := h.expectIdent
  obtain ⟨heq, h⟩ := h.expect (by decide)
  obtain ⟨value, l, hvalue, h⟩ := h.bind
  obtain ⟨hsemi, h⟩ := h.expect (by decide)
  obtain ⟨rfl, rfl⟩ := h.extentFrom.pure
  have hw' : ({ scope with speculative := true } : Scope).lexemes.WellSpelled := hw
  have hphrase := (hi.typeName hw' htype.finish).1
  have hread := hi.expression hw' hvalue
  refine .of_written rfl ?_ .constant (hphrase.spells ⟨⟨by decide, hconstant⟩,
    ⟨by decide, hname, rfl⟩, ⟨by decide, heq⟩, hread.phrase.spells ⟨⟨by decide, hsemi⟩, rfl⟩⟩) ?_
  · simpa [Part.Tight, Part.fields, Part.unitFields, Expression.IsWhole] using hread.level_le
  · simpa [Part.fields, Part.unitFields] using ⟨hphrase.holds, hread.phrase.holds⟩

end Grammar

end SolidityParser
