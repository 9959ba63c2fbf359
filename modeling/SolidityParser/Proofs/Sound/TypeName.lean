import SolidityParser.Grammar.Entry
import SolidityParser.Proofs.Sound.Expression

/-!
# What the rules for types and declarations read

Each rule for the name of a type, for a parameter or for a declaration of variables reads a phrase.
With those for expressions this makes the rules of every depth sound (`Inner.sound_upTo`).
-/

namespace SolidityParser

/-- A rule reads types, and none that a bracket would make an array of. -/
def Rule.ReadsTypes (scope : Scope) (rule : Rule (TypeName Extent)) : Prop :=
  ∀ {i type j}, rule.Gives scope i type j →
    scope.lexemes.IsPhrase i (.typeName type) j ∧ scope.lexemes.kindAt j ≠ .lbracket

namespace Grammar

open Lexemes (IsPhrase)

variable {inner : Inner} {scope : Scope} {i j k : Nat}

/-! ### Attributes -/

/-- A storage location is spelled, or there is none. -/
theorem location?_spells {location : Option StorageLocation}
    (h : location?.Gives scope i location j) :
    scope.lexemes.Spells i (Symbol.location location) j := by
  rcases h.eatIf (by decide) with ⟨hk, h⟩ | ⟨-, h⟩
  · obtain ⟨rfl, rfl⟩ := h.pure
    exact ⟨⟨by decide, hk⟩, rfl⟩
  rcases h.eatIf (by decide) with ⟨hk, h⟩ | ⟨-, h⟩
  · obtain ⟨rfl, rfl⟩ := h.pure
    exact ⟨⟨by decide, hk⟩, rfl⟩
  rcases h.eatIf (by decide) with ⟨hk, h⟩ | ⟨-, h⟩
  · obtain ⟨rfl, rfl⟩ := h.pure
    exact ⟨⟨by decide, hk⟩, rfl⟩
  · obtain ⟨rfl, rfl⟩ := h.pure
    rfl

/-- So is a name that may be missing. -/
theorem eatIdent_spells {name : Option String} (h : Parser.eatIdent.Gives scope i name j) :
    scope.lexemes.Spells i (Symbol.name name) j := by
  rw [← bind_pure Parser.eatIdent] at h
  rcases h.eatIdent with ⟨hk, h⟩ | ⟨-, h⟩
  · obtain ⟨rfl, rfl⟩ := h.pure
    exact ⟨⟨by decide, hk, rfl⟩, rfl⟩
  · obtain ⟨rfl, rfl⟩ := h.pure
    rfl

/-! ### Parameters -/

section Parameters

variable {typeName : Rule (TypeName Extent)} {allowIndexed : Bool}
  (htype : typeName.ReadsTypes scope)

include htype

/-- A parameter is a type, with a location and a name or without; it is indexed only where that is
allowed. -/
theorem parameter_isPhrase {parameter : Parameter Extent}
    (h : (Grammar.parameter typeName allowIndexed).Gives scope i parameter j) :
    scope.lexemes.IsPhrase i (.parameter parameter) j ∧
      (allowIndexed = false → parameter.isIndexed = false) := by
  obtain ⟨type, k, hname, h⟩ := h.named.position.bind
  obtain ⟨hphrase, -⟩ := htype hname.finish
  obtain ⟨location, l, hlocation, h⟩ := h.bind
  -- whether it is indexed is asked only where that is allowed
  have hindexed : ∃ indexed m,
      scope.lexemes.Spells l (if indexed then [.token .kwIndexed] else []) m ∧
      (allowIndexed = false → indexed = false) ∧ Parser.Gives scope m (do
        let name ← Parser.eatIdent
        return .mk (← Parser.extentFrom i) type location name indexed) parameter j := by
    cases allowIndexed with
    | false => exact ⟨false, l, rfl, fun _ => rfl, h⟩
    | true =>
      rcases h.eat (by decide) with ⟨hk, h⟩ | ⟨-, h⟩
      · exact ⟨true, l + 1, ⟨⟨by decide, hk⟩, rfl⟩, fun h => h, h⟩
      · exact ⟨false, l, rfl, fun _ => rfl, h⟩
  obtain ⟨indexed, m, hspells, hallowed, h⟩ := hindexed
  obtain ⟨name, n, hname, h⟩ := h.bind
  obtain ⟨rfl, rfl⟩ := h.extentFrom.pure
  refine ⟨.of_written rfl (by simp [Part.Tight, Part.fields]) .parameter ?_ ?_, hallowed⟩
  · exact ((hphrase.spells (location?_spells hlocation)).append hspells).append
      (eatIdent_spells hname)
  · simpa [Part.fields] using hphrase.holds

/-- Parameters are spelled in parentheses. -/
theorem parameters_spells {parameters : List (Parameter Extent)}
    (h : (Grammar.parameters typeName allowIndexed).Gives scope i parameters j) :
    scope.lexemes.Spells i (Symbol.parameters parameters) j ∧
      ∀ p ∈ parameters, (Part.parameter p).All scope.lexemes.Holds ∧
        (allowIndexed = false → p.isIndexed = false) := by
  obtain ⟨hk, h⟩ := h.expect (by decide)
  exact ⟨⟨⟨by decide, hk⟩, h.within.series_spells (by decide) fun _ _ _ h =>
      (parameter_isPhrase htype h).1.spells rfl⟩,
    h.within.series_forall (by decide) fun _ _ _ h =>
      (parameter_isPhrase htype h).imp_left IsPhrase.holds⟩

/-- Results are spelled after their keyword, or there is none. -/
theorem returns?_spells {returns : Option (List (Parameter Extent))}
    (h : (returns? typeName).Gives scope i returns j) :
    scope.lexemes.Spells i (Symbol.returns returns) j ∧
      ∀ p ∈ returns.getD [], (Part.parameter p).All scope.lexemes.Holds ∧
        p.isIndexed = false := by
  rcases h.eatIf (by decide) with ⟨hk, h⟩ | ⟨hk, h⟩
  · obtain ⟨parameters, k, hparameters, h⟩ := h.bind
    obtain ⟨rfl, rfl⟩ := h.pure
    obtain ⟨hspells, hall⟩ := parameters_spells htype hparameters
    exact ⟨⟨⟨by decide, hk⟩, hspells⟩, fun p hp => (hall p hp).imp_right fun h => h rfl⟩
  · obtain ⟨rfl, rfl⟩ := h.pure
    exact ⟨⟨by rwa [Lexemes.ahead_kind (by decide)], rfl⟩, by simp⟩

end Parameters

/-! ### Types -/

/-- A path takes every point with a name after it. -/
theorem pathTail_spells {first path : String} (h : (pathTail first).Gives scope i path j) :
    ∃ more : List String, path = more.foldl (fun path name => path ++ "." ++ name) first ∧
      scope.lexemes.Spells i
        (more.flatMap (fun name => [.token .dot, .word .ident name]) ++ [.no .step]) j := by
  obtain ⟨k, ⟨more, rfl, hspells⟩, hlast⟩ := h.iterate
    (P := fun path k => ∃ more : List String,
      path = more.foldl (fun path name => path ++ "." ++ name) first ∧
      scope.lexemes.Spells i (more.flatMap fun name => [.token .dot, .word .ident name]) k)
    ⟨[], rfl, rfl⟩ (by
      rintro path k _ l ⟨more, rfl, hspells⟩ h
      replace h := h.kind.kindAhead
      split at h
      · next hk =>
        obtain ⟨⟨⟩, rfl⟩ :=
          ((h.advance (by rw [hk.1]; decide)).text.advance (by rw [hk.2]; decide)).pure
        refine ⟨more ++ [scope.lexemes.textAt (k + 1)], by simp, ?_⟩
        rw [List.flatMap_append]
        exact hspells.append ⟨⟨by decide, hk.1⟩, ⟨by decide, hk.2, rfl⟩, rfl⟩
      · cases h.pure.1)
  replace hlast := hlast.kind.kindAhead
  split at hlast
  · next hk =>
    cases ((hlast.advance (by rw [hk.1]; decide)).text.advance (by rw [hk.2]; decide)).pure.1
  · next hk =>
    obtain ⟨-, rfl⟩ := hlast.pure
    exact ⟨more, rfl, hspells.append ⟨by rwa [Lexemes.ahead_step], rfl⟩⟩

/-- The name of a built-in type, with `payable` after `address` if it stands there. -/
theorem elementary_isPhrase {payable : Bool} (hk : scope.lexemes.kindAt i = .ident)
    (helementary : isElementary (scope.lexemes.textAt i) = true)
    (h : (payableAfter (scope.lexemes.textAt i)).Gives scope (i + 1) payable j) :
    scope.lexemes.IsPhrase i
      (.typeName (.elementary ⟨i, j⟩ (scope.lexemes.textAt i) payable)) j := by
  have hplain (hspells : scope.lexemes.Spells (i + 1)
      (if scope.lexemes.textAt i = "address" then [.no (.kinds [.kwPayable])] else []) j) :
      scope.lexemes.IsPhrase i
        (.typeName (.elementary ⟨i, j⟩ (scope.lexemes.textAt i) false)) j :=
    .of_written rfl (by simp [Part.Tight, Part.fields, Part.typeFields])
      (.elementary helementary) ⟨⟨by decide, hk, rfl⟩, hspells⟩
      (by simp [Part.fields, Part.typeFields])
  unfold payableAfter at h
  split at h
  · next haddress =>
    rw [if_pos haddress] at hplain
    rw [← bind_pure (Parser.eat .kwPayable)] at h
    rcases h.eat (by decide) with ⟨hk', h⟩ | ⟨hk', h⟩
    · obtain ⟨rfl, rfl⟩ := h.pure
      rw [haddress]
      exact .of_written rfl (by simp [Part.Tight, Part.fields, Part.typeFields])
        .payableAddress ⟨⟨by decide, hk, haddress⟩, ⟨by decide, hk'⟩, rfl⟩
        (by simp [Part.fields, Part.typeFields])
    · obtain ⟨rfl, rfl⟩ := h.pure
      exact hplain ⟨by rwa [Lexemes.ahead_kind (by decide)], rfl⟩
  · next haddress =>
    rw [if_neg haddress] at hplain
    obtain ⟨rfl, rfl⟩ := h.pure
    exact hplain rfl

/-- A type that is named is a word or a path. -/
theorem namedType_isPhrase {type : TypeName Extent} (h : namedType.Gives scope i type j) :
    scope.lexemes.IsPhrase i (.typeName type) j := by
  obtain ⟨hk, h⟩ := h.opening
  replace h := h.taking (by rw [hk]; decide)
  split at h
  · next helementary =>
    obtain ⟨payable, k, hpayable, h⟩ := h.bind
    obtain ⟨rfl, rfl⟩ := h.extentFrom.pure
    exact elementary_isPhrase hk helementary hpayable
  · next helementary =>
    obtain ⟨path, k, hpath, h⟩ := h.bind
    obtain ⟨rfl, rfl⟩ := h.extentFrom.pure
    obtain ⟨more, rfl, hspells⟩ := pathTail_spells hpath
    exact .of_written rfl (by simp [Part.Tight, Part.fields, Part.typeFields])
      (.userDefined (by simpa using helementary)) ⟨⟨by decide, hk, rfl⟩, hspells⟩
      (by simp [Part.fields, Part.typeFields])

section Nested

variable (hi : inner.Sound) (hw : scope.lexemes.WellSpelled)

include hi hw

/-- A mapping has two types, each of which may have a name. -/
theorem mappingType_isPhrase {type : TypeName Extent}
    (h : (mappingType inner).Gives scope i type j) :
    scope.lexemes.IsPhrase i (.typeName type) j := by
  obtain ⟨hk, h⟩ := h.opening
  obtain ⟨hopen, h⟩ := (h.taking (by rw [hk]; decide)).expect (by decide)
  obtain ⟨key, _, hkey, h⟩ := h.bind
  obtain ⟨keyName, _, hkeyName, h⟩ := h.bind
  obtain ⟨harrow, h⟩ := h.expect (by decide)
  obtain ⟨value, _, hvalue, h⟩ := h.bind
  obtain ⟨valueName, _, hvalueName, h⟩ := h.bind
  obtain ⟨hclose, h⟩ := h.expect (by decide)
  obtain ⟨rfl, rfl⟩ := h.extentFrom.pure
  have hphrase := (hi.typeName hw hkey.finish).1
  have hphrase' := (hi.typeName hw hvalue.finish).1
  refine .of_written rfl (by simp [Part.Tight, Part.fields, Part.typeFields]) .mapping ?_ ?_
  · have hfrom : scope.lexemes.Spells i
        (.token .kwMapping :: .token .lparen :: .part key.place :: Symbol.name keyName) _ :=
      ⟨⟨by decide, hk⟩, ⟨by decide, hopen⟩, hphrase.spells (eatIdent_spells hkeyName)⟩
    have hto : scope.lexemes.Spells _
        (.token .fatArrow :: .part value.place :: Symbol.name valueName) _ :=
      ⟨⟨by decide, harrow⟩, hphrase'.spells (eatIdent_spells hvalueName)⟩
    exact (hfrom.append hto).append ⟨⟨by decide, hclose⟩, rfl⟩
  · simpa [Part.fields, Part.typeFields] using ⟨hphrase.holds, hphrase'.holds⟩

end Nested

/-! ### Types of functions -/

/-- A visibility is that of the next token, if it is of one. -/
theorem visibility?_gives {visibility : Option Visibility}
    (h : visibility?.Gives scope i visibility j) :
    visibility = Visibility.ofKind? (scope.lexemes.kindAt i) ∧
      j = if visibility.isSome then i + 1 else i := by
  replace h := h.kind
  cases hk : Visibility.ofKind? (scope.lexemes.kindAt i) with
  | none =>
    simp only [hk] at h
    obtain ⟨rfl, rfl⟩ := h.pure
    exact ⟨rfl, rfl⟩
  | some found =>
    simp only [hk] at h
    have hne : scope.lexemes.kindAt i ≠ .eof := by
      intro heof
      rw [heof] at hk
      cases hk
    obtain ⟨rfl, rfl⟩ := (h.advance hne).pure
    exact ⟨rfl, rfl⟩

/-- So is a mutability. -/
theorem mutability?_gives {mutability : Option StateMutability}
    (h : mutability?.Gives scope i mutability j) :
    mutability = StateMutability.ofKind? (scope.lexemes.kindAt i) ∧
      j = if mutability.isSome then i + 1 else i := by
  replace h := h.kind
  cases hk : StateMutability.ofKind? (scope.lexemes.kindAt i) with
  | none =>
    simp only [hk] at h
    obtain ⟨rfl, rfl⟩ := h.pure
    exact ⟨rfl, rfl⟩
  | some found =>
    simp only [hk] at h
    have hne : scope.lexemes.kindAt i ≠ .eof := by
      intro heof
      rw [heof] at hk
      cases hk
    obtain ⟨rfl, rfl⟩ := (h.advance hne).pure
    exact ⟨rfl, rfl⟩

/-- A round reads an attribute, and there is none where it reads nothing. -/
theorem typeAttribute_gives {attributes : Option Visibility × Option StateMutability}
    {next : Option (Option Visibility × Option StateMutability)}
    (h : Parser.Gives scope i (do
      if let some found ← visibility? then return some (some found, attributes.2)
      if let some found ← mutability? then return some (attributes.1, some found)
      return none) next j) :
    (scope.lexemes.kindAt i).isTypeAttribute = true ∧
        next = some (attributesAfter attributes (scope.lexemes.kindAt i)) ∧ j = i + 1 ∨
      (scope.lexemes.kindAt i).isTypeAttribute = false ∧ next = none ∧ j = i := by
  unfold Kind.isTypeAttribute attributesAfter
  obtain ⟨visibility, k, hvisibility, h⟩ := h.bind
  obtain ⟨hv, rfl⟩ := visibility?_gives hvisibility
  cases visibility with
  | some found =>
    obtain ⟨rfl, rfl⟩ := h.pure
    exact .inl ⟨by simp [← hv], by simp [← hv], rfl⟩
  | none =>
    obtain ⟨mutability, l, hmutability, h⟩ := h.bind
    obtain ⟨hm, rfl⟩ := mutability?_gives hmutability
    change mutability = StateMutability.ofKind? (scope.lexemes.kindAt i) at hm
    cases mutability with
    | some found =>
      obtain ⟨rfl, rfl⟩ := h.pure
      exact .inl ⟨by simp [← hm], by simp [← hm, ← hv], rfl⟩
    | none =>
      obtain ⟨rfl, rfl⟩ := h.pure
      exact .inr ⟨by simp [← hm, ← hv], rfl, rfl⟩

/-- Attributes are read up to a token that is none. -/
theorem functionTypeAttributes_spells {attributes : Option Visibility × Option StateMutability}
    (h : functionTypeAttributes.Gives scope i attributes j) :
    ∃ kinds : List Kind, (∀ k ∈ kinds, k.isTypeAttribute = true) ∧
      attributes = kinds.foldl attributesAfter (none, none) ∧
      scope.lexemes.Spells i
        (kinds.map .token ++ [.no [fun lexeme => lexeme.kind.isTypeAttribute]]) j := by
  have hne {k : Kind} (hk : k.isTypeAttribute = true) : k ≠ .eof := by
    rintro rfl
    cases hk
  obtain ⟨k, ⟨kinds, hall, hattributes, hspells⟩, hlast⟩ := h.iterate
    (P := fun attributes k => ∃ kinds : List Kind, (∀ k ∈ kinds, k.isTypeAttribute = true) ∧
      attributes = kinds.foldl attributesAfter (none, none) ∧
      scope.lexemes.Spells i (kinds.map .token) k)
    ⟨[], by simp, rfl, rfl⟩ (by
      rintro attributes k _ l ⟨kinds, hall, rfl, hspells⟩ h
      rcases typeAttribute_gives h with ⟨hk, hnext, rfl⟩ | ⟨-, hnext, -⟩
      · cases hnext
        refine ⟨kinds ++ [scope.lexemes.kindAt k], ?_, by simp, ?_⟩
        · simpa [or_imp, forall_and] using ⟨hall, hk⟩
        · rw [List.map_append]
          exact hspells.append ⟨⟨hne hk, rfl⟩, rfl⟩
      · cases hnext)
  rcases typeAttribute_gives hlast with ⟨-, hnext, -⟩ | ⟨hk, -, rfl⟩
  · cases hnext
  · refine ⟨kinds, hall, hattributes, hspells.append ⟨fun hahead => ?_, rfl⟩⟩
    have : (scope.lexemes.kindAt j).isTypeAttribute = true := hahead.1
    rw [hk] at this
    cases this

section Nested

variable (hi : inner.Sound) (hw : scope.lexemes.WellSpelled)

include hi hw

/-- A function type is its parameters, its attributes and its results. -/
theorem functionType_isPhrase {type : TypeName Extent}
    (h : (functionType inner).Gives scope i type j) :
    scope.lexemes.IsPhrase i (.typeName type) j := by
  obtain ⟨hk, h⟩ := h.opening
  obtain ⟨given, k, hgiven, h⟩ := (h.taking (by rw [hk]; decide)).bind
  obtain ⟨⟨visibility, mutability⟩, l, hattributes, h⟩ := h.bind
  obtain ⟨returns, m, hreturns, h⟩ := h.bind
  obtain ⟨rfl, rfl⟩ := h.extentFrom.pure
  obtain ⟨hspells, hall⟩ := parameters_spells (hi.typeName hw) hgiven
  obtain ⟨kinds, hkinds, hattributes, hspells'⟩ := functionTypeAttributes_spells hattributes
  obtain ⟨hspells'', hall'⟩ := returns?_spells (hi.typeName hw) hreturns
  obtain ⟨rfl, rfl⟩ := Prod.ext_iff.mp hattributes
  refine .of_written rfl (by simp [Part.Tight, Part.fields, Part.typeFields])
    (.functionType hkinds ?_) ?_ ?_
  · intro p hp
    rcases List.mem_append.mp hp with hp | hp
    · exact (hall p hp).2 rfl
    · exact (hall' p hp).2
  · have hfrom : scope.lexemes.Spells i (.token .kwFunction :: Symbol.parameters given) k :=
      ⟨⟨by decide, hk⟩, hspells⟩
    simpa using hfrom.append (hspells'.append hspells'')
  · simpa [Part.fields, Part.typeFields] using
      ⟨fun p hp => (hall p hp).1, fun p hp => (hall' p hp).1⟩

/-- Brackets after a type make an array of it, and of that, as long as there are any. -/
theorem arraySuffixes_isPhrase {base type : TypeName Extent}
    (hbase : scope.lexemes.IsPhrase i (.typeName base) j)
    (h : (arraySuffixes inner i base).Gives scope j type k) :
    scope.lexemes.IsPhrase i (.typeName type) k ∧ scope.lexemes.kindAt k ≠ .lbracket := by
  obtain ⟨l, hphrase, hlast⟩ := h.decided.iterate
    (P := fun base k => scope.lexemes.IsPhrase i (.typeName base) k) hbase (by
      intro base k _ l hphrase h
      rcases h.kindIf with ⟨hk, h⟩ | ⟨-, h⟩
      · rcases (h.advance (by rw [hk]; decide)).eatIf (by decide) with ⟨hclose, h⟩ | ⟨-, h⟩
        · obtain ⟨⟨⟩, rfl⟩ := h.extentFrom.pure
          exact .of_written rfl (by simp [Part.Tight, Part.fields, Part.typeFields]) .arrayType
            (hphrase.spells ⟨⟨by decide, hk⟩, ⟨by decide, hclose⟩, rfl⟩)
            (by simpa [Part.fields, Part.typeFields] using hphrase.holds)
        · obtain ⟨length, m, hlength, h⟩ := h.bind
          obtain ⟨hclose, h⟩ := h.expect (by decide)
          obtain ⟨⟨⟩, rfl⟩ := h.extentFrom.pure
          have hread := hi.expression hw hlength
          refine .of_written rfl ?_ .arrayType (hphrase.spells ⟨⟨by decide, hk⟩,
            hread.phrase.spells ⟨⟨by decide, hclose⟩, rfl⟩⟩) ?_
          · simpa [Part.Tight, Part.fields, Part.typeFields, Expression.IsWhole]
              using hread.level_le
          · simpa [Part.fields, Part.typeFields] using ⟨hphrase.holds, hread.phrase.holds⟩
      · cases h.pure.1)
  rcases hlast.kindIf with ⟨hk, h⟩ | ⟨hk, h⟩
  · rcases (h.advance (by rw [hk]; decide)).eatIf (by decide) with ⟨-, h⟩ | ⟨-, h⟩
    · cases h.extentFrom.pure.1
    · obtain ⟨_, _, -, h⟩ := h.bind
      cases (h.expect (by decide)).2.extentFrom.pure.1
  · obtain ⟨-, rfl⟩ := h.pure
    exact ⟨hphrase, hk⟩

/-- What the rule for types gives is a type with all its brackets. -/
theorem typeName_readsTypes : (typeName inner).ReadsTypes scope := by
  intro i type j h
  obtain ⟨base, k, hbase, h⟩ := h.of_named.followedBy
  refine arraySuffixes_isPhrase hi hw ?_ h
  rcases hbase.elim with h | ⟨-, h⟩
  · exact namedType_isPhrase h
  rcases h.elim with h | ⟨-, h⟩
  · exact mappingType_isPhrase hi hw h
  rcases h.elim with h | ⟨-, h⟩
  · exact functionType_isPhrase hi hw h
  · exact h.none.elim

/-! ### Declarations of variables -/

/-- A declared variable is a type, a location or none, and a name. -/
theorem variableDeclaration_isPhrase {declared : VariableDeclaration Extent}
    (h : (variableDeclaration inner).Gives scope i declared j) :
    scope.lexemes.IsPhrase i (.declared declared) j := by
  obtain ⟨type, k, htype, h⟩ := h.position.bind
  obtain ⟨location, l, hlocation, h⟩ := h.bind
  obtain ⟨hk, h⟩ := h.expectIdent
  obtain ⟨rfl, rfl⟩ := h.extentFrom.pure
  have hphrase := (typeName_readsTypes hi hw htype.finish).1
  refine .of_written rfl (by simp [Part.Tight, Part.fields]) .declared ?_ ?_
  · have hfrom := hphrase.spells (location?_spells hlocation)
    exact hfrom.append ⟨⟨by decide, hk, rfl⟩, rfl⟩
  · simpa [Part.fields] using hphrase.holds

/-- A place in a list of variables may be left empty. -/
theorem variableSlot_spells {slot : Option (VariableDeclaration Extent)}
    (h : (variableSlot inner).Gives scope i slot j) :
    scope.lexemes.Spells i (Symbol.option (slot.map (·.place))) j ∧
      ∀ declared, slot = some declared → (Part.declared declared).All scope.lexemes.Holds := by
  replace h := h.kind
  split at h
  · obtain ⟨rfl, rfl⟩ := h.pure
    exact ⟨rfl, by simp⟩
  · obtain ⟨declared, k, hdeclared, h⟩ := h.bind
    obtain ⟨rfl, rfl⟩ := h.pure
    have hphrase := variableDeclaration_isPhrase hi hw hdeclared
    refine ⟨hphrase.spells rfl, ?_⟩
    rintro _ ⟨⟩
    exact hphrase.holds

/-- A declaration is one variable or a list of them, with a value or without. -/
theorem declarationStatement_isPhrase {statement : Statement .parsed}
    (h : (declarationStatement inner).Gives scope i statement j) :
    scope.lexemes.IsPhrase i (.statement statement) j := by
  rcases h.position.eat (by decide) with ⟨hopen, h⟩ | ⟨-, h⟩
  · obtain ⟨slots, k, hslots, h⟩ := h.bind
    obtain ⟨hclose, h⟩ := h.expect (by decide)
    obtain ⟨heq, h⟩ := h.expect (by decide)
    obtain ⟨value, l, hvalue, h⟩ := h.bind
    obtain ⟨hsemi, h⟩ := h.expect (by decide)
    obtain ⟨rfl, rfl⟩ := h.extentFrom.pure
    have hread := expression_isRead hi hw hvalue
    have hrow := hslots.separated
    have hspells := hrow.spells fun _ _ _ h => (variableSlot_spells hi hw h).1
    have hall := hrow.forall fun _ _ _ h => (variableSlot_spells hi hw h).2
    have hne : slots ≠ [] := by cases hrow <;> exact List.cons_ne_nil _ _
    refine .of_written rfl ?_ (.declarationList hne) ?_ ?_
    · simpa [Part.Tight, Part.fields, Part.statementFields, Expression.IsWhole]
        using hread.level_le
    · have hfrom : scope.lexemes.Spells i (.token .lparen ::
          Symbol.separated (slots.map fun v => Symbol.option (v.map (·.place)))) k :=
        ⟨⟨by decide, hopen⟩, hspells⟩
      exact hfrom.append ⟨⟨by decide, hclose⟩, ⟨by decide, heq⟩,
        hread.phrase.spells ⟨⟨by decide, hsemi⟩, rfl⟩⟩
    · simp only [Part.fields, Part.statementFields, List.forall_mem_cons, List.forall_mem_map,
        Part.forall_mem_reduceOption]
      simpa using ⟨fun slot hslot declared h => hall slot hslot declared h, hread.phrase.holds⟩
  · obtain ⟨declared, k, hdeclared, h⟩ := h.bind
    have hphrase := variableDeclaration_isPhrase hi hw hdeclared
    rcases h.eat (by decide) with ⟨heq, h⟩ | ⟨-, h⟩
    · obtain ⟨_, l, hvalue, h⟩ := h.bind
      obtain ⟨value, hgiven, rfl⟩ := hvalue.map
      obtain ⟨hsemi, h⟩ := h.expect (by decide)
      obtain ⟨rfl, rfl⟩ := h.extentFrom.pure
      have hread := expression_isRead hi hw hgiven
      refine .of_written rfl ?_ .declaration (hphrase.spells ⟨⟨by decide, heq⟩,
        hread.phrase.spells ⟨⟨by decide, hsemi⟩, rfl⟩⟩) ?_
      · simpa [Part.Tight, Part.fields, Part.statementFields, List.reduceOption,
          Expression.IsWhole] using hread.level_le
      · simpa [Part.fields, Part.statementFields, List.reduceOption] using
          ⟨hphrase.holds, hread.phrase.holds⟩
    · obtain ⟨hsemi, h⟩ := h.expect (by decide)
      obtain ⟨rfl, rfl⟩ := h.extentFrom.pure
      refine .of_written rfl ?_ .declaration (hphrase.spells ⟨⟨by decide, hsemi⟩, rfl⟩) ?_
      · simp [Part.Tight, Part.fields, Part.statementFields, List.reduceOption]
      · simpa [Part.fields, Part.statementFields, List.reduceOption] using hphrase.holds

end Nested

end Grammar

/-! ### Every depth -/

namespace Inner

/-- The rules for input nested at most so deeply read phrases. -/
theorem sound_upTo : (depth : Nat) → (upTo depth).Sound
  | 0 => {
    expression := fun _ h => h.fail.elim
    assignment := fun _ h => h.fail.elim
    power := fun _ h => h.fail.elim
    unary := fun _ h => h.fail.elim
    typeName := fun _ h => Rule.Gives.none h |>.elim }
  | depth + 1 => {
    expression := fun hw h => Grammar.expression_isRead (sound_upTo depth) hw h
    assignment := fun hw h => Grammar.assignment_isRead (sound_upTo depth) hw h
    power := fun hw h => Grammar.power_isRead (sound_upTo depth) hw h
    unary := fun hw h => Grammar.unary_isRead (sound_upTo depth) hw h
    typeName := fun hw h => Grammar.typeName_readsTypes (sound_upTo depth) hw h }

end Inner

end SolidityParser
