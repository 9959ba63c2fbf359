import SolidityParser.Proofs.Complete.Declaration
import SolidityParser.Proofs.Sound.Statement

/-!
# What the rules for members of contracts read

Each rule for a member reads one that stands in the input, with all the statements in its body, and
the choice among them the first that can be read (`contractPart_lays`).
-/

namespace SolidityParser

open Lexemes (Lays HoldsAttributes)

/-- What a function says after its name stands in the input, from one index up to another. -/
structure Lexemes.IsSignature (lexemes : Lexemes) (repairs : Repairs) (i : Nat)
    (parameters : List (Parameter Extent)) (items : List Attribute)
    (returns : Option (List (Parameter Extent))) (body : Option (Block .parsed)) (j : Nat) :
    Prop where
  /-- It is written there. -/
  spells : lexemes.Spells i
    (Symbol.signature parameters items returns ++ Symbol.body (body.map (·.place))) j
  /-- No parameter is indexed. -/
  plain : ∀ p ∈ parameters ++ returns.getD [], p.isIndexed = false
  /-- The attributes are those of a function. -/
  ofFunction : ∀ item ∈ items, item.IsOfFunction
  /-- The parameters stand there. -/
  given : ∀ p ∈ parameters ++ returns.getD [],
    (Part.parameter p : Part .parsed).All lexemes.Holds
  /-- So does what the attributes keep. -/
  attributes : lexemes.HoldsAttributes (FunctionAttributes.ofItems items)
  /-- So does the body. -/
  body : ∀ b ∈ body, (Part.block b).All (lexemes.Supports repairs)

/-- What the attributes keep, with no mention of fields. -/
theorem Lexemes.HoldsAttributes.supports {lexemes : Lexemes} {repairs : Repairs}
    {attributes : FunctionAttributes Extent} (h : lexemes.HoldsAttributes attributes) :
    ∀ field ∈ Part.attributeFields (F := .parsed) attributes, ∀ child ∈ field,
      child.All (lexemes.Supports repairs) := by
  simpa [Part.attributeFields, Part.overridesField] using
    ⟨fun v hv => (h.modifiers v hv).mono fun _ => .phrase,
      fun p hp => (h.overrides p hp).mono fun _ => .phrase⟩

namespace Grammar

variable {inner : Inner} {scope : Scope} {i j k lo : Nat}

/-! ### Bodies -/

section Bodies

variable (hs : inner.statement.ReadsStatements { scope with inBody := true } lo)

include hs

/-- The body of a function is a block. -/
theorem functionBody_lays (hlo : lo ≤ i + 1) {body : Block .parsed}
    (h : (functionBody inner).Gives scope i body j) :
    scope.lexemes.Lays (.ofTolerance scope.tolerant) i (.block body) j :=
  block_lays (hs.mono hlo) h.inBody

/-- A body is spelled, or a semicolon. -/
theorem bodyOrSemicolon_spells (hlo : lo ≤ i + 1) {body : Option (Block .parsed)}
    (h : (bodyOrSemicolon inner).Gives scope i body j) :
    scope.lexemes.Spells i (Symbol.body (body.map (·.place))) j ∧
      ∀ b ∈ body, (Part.block b).All (scope.lexemes.Supports (.ofTolerance scope.tolerant)) := by
  rcases h.eatIf (by decide) with ⟨hk, h⟩ | ⟨-, h⟩
  · obtain ⟨rfl, rfl⟩ := h.pure
    exact ⟨⟨⟨by decide, hk⟩, rfl⟩, by simp⟩
  · obtain ⟨b, hbody, rfl⟩ := h.map
    have hlays := functionBody_lays hs hlo hbody
    refine ⟨hlays.spells rfl, ?_⟩
    rintro _ ⟨⟩
    exact hlays.stands

variable (hi : inner.Sound) (hw : scope.lexemes.WellSpelled)

include hi hw

/-! ### Functions -/

/-- What is read in a row after the name of a function is a signature. -/
theorem signature_spells (hlo : lo ≤ i + 1) {given : List (Parameter Extent)} {l m : Nat}
    {attributes : FunctionAttributes Extent} {returns : Option (List (Parameter Extent))}
    {body : Option (Block .parsed)}
    (hgiven : (parameters inner.typeName).Gives scope i given k)
    (hattributes : (functionAttributes inner).Gives scope k attributes l)
    (hreturns : (returns? inner.typeName).Gives scope l returns m)
    (hbody : (bodyOrSemicolon inner).Gives scope m body j) :
    ∃ items, attributes = FunctionAttributes.ofItems items ∧
      scope.lexemes.IsSignature (.ofTolerance scope.tolerant) i given items returns body j := by
  obtain ⟨hspells, hgiven⟩ := parameters_spells (hi.typeName hw) hgiven
  obtain ⟨items, hitems, rfl, hspells', hkept⟩ := functionAttributes_spells hi hw hattributes
  obtain ⟨hspells'', hreturns⟩ := returns?_spells (hi.typeName hw) hreturns
  have hle := hspells.inside.1
  have hle' := hspells'.inside.1
  have hle'' := hspells''.inside.1
  obtain ⟨hend, hbody⟩ := bodyOrSemicolon_spells hs (by omega) hbody
  refine ⟨items, rfl, ((hspells.append hspells').append hspells'').append hend, ?_, hitems, ?_,
    hkept, hbody⟩
  · intro p hp
    rcases List.mem_append.mp hp with hp | hp
    · exact (hgiven p hp).2 rfl
    · exact (hreturns p hp).2
  · intro p hp
    rcases List.mem_append.mp hp with hp | hp
    · exact (hgiven p hp).1
    · exact (hreturns p hp).1

/-- What comes after the name of a function is one. -/
theorem functionRest_isSignature (hlo : lo ≤ i + 1) {start : Nat} {name : String}
    {function : FunctionDeclaration .parsed}
    (h : (functionRest inner start name).Gives scope i function j) :
    ∃ given items returns body,
      function = ⟨⟨start, j⟩, name, given, returns, FunctionAttributes.ofItems items, body⟩ ∧
      scope.lexemes.IsSignature (.ofTolerance scope.tolerant) i given items returns body j := by
  obtain ⟨given, k, hgiven, h⟩ := h.bind
  obtain ⟨attributes, l, hattributes, h⟩ := h.bind
  obtain ⟨returns, m, hreturns, h⟩ := h.bind
  obtain ⟨body, n, hbody, h⟩ := h.bind
  obtain ⟨rfl, rfl⟩ := h.extentFrom.pure
  obtain ⟨items, rfl, hsignature⟩ :=
    signature_spells hs hi hw hlo hgiven hattributes hreturns hbody
  exact ⟨given, items, returns, body, rfl, hsignature⟩

/-- So is what comes after the word of a fallback function. -/
theorem fallbackRest_isSignature (hlo : lo ≤ i + 1) {start : Nat}
    {function : FallbackFunction .parsed}
    (h : (fallbackRest inner start).Gives scope i function j) :
    ∃ given items returns body,
      function = ⟨⟨start, j⟩, given, returns, FunctionAttributes.ofItems items, body⟩ ∧
      scope.lexemes.IsSignature (.ofTolerance scope.tolerant) i given items returns body j := by
  obtain ⟨given, k, hgiven, h⟩ := h.bind
  obtain ⟨attributes, l, hattributes, h⟩ := h.bind
  obtain ⟨returns, m, hreturns, h⟩ := h.bind
  obtain ⟨body, n, hbody, h⟩ := h.bind
  obtain ⟨rfl, rfl⟩ := h.extentFrom.pure
  obtain ⟨items, rfl, hsignature⟩ :=
    signature_spells hs hi hw hlo hgiven hattributes hreturns hbody
  exact ⟨given, items, returns, body, rfl, hsignature⟩

end Bodies

end Grammar

namespace Lexemes.IsSignature

variable {lexemes : Lexemes} {repairs : Repairs} {i j : Nat} {parameters : List (Parameter Extent)}
  {items : List Attribute} {returns : Option (List (Parameter Extent))}
  {body : Option (Block .parsed)}

/-- Parameters, results, body and attributes, field by field. -/
theorem supports (h : lexemes.IsSignature repairs i parameters items returns body j) :
    ∀ field ∈ [parameters.map Part.parameter, Part.parametersField returns,
        body.toList.map Part.block] ++ Part.attributeFields (FunctionAttributes.ofItems items),
      ∀ child ∈ field, child.All (lexemes.Supports repairs) := by
  have hgiven := h.given
  simp only [List.mem_append, or_imp, forall_and] at hgiven
  have hfront : ∀ field ∈ [parameters.map Part.parameter, Part.parametersField returns,
      body.toList.map Part.block], ∀ child ∈ field, child.All (lexemes.Supports repairs) := by
    simpa [Part.parametersField] using
      ⟨fun p hp => (hgiven.1 p hp).mono fun _ => .phrase,
        fun p hp => (hgiven.2 p hp).mono fun _ => .phrase, h.body⟩
  intro field hfield
  rcases List.mem_append.mp hfield with hfield | hfield
  · exact hfront field hfield
  · exact h.attributes.supports field hfield

/-- A keyword, a name and a signature are a function. -/
theorem function_lays {name : String} (hk : lexemes.kindAt i = .kwFunction)
    (hname : lexemes.kindAt (i + 1) = .ident ∧ lexemes.textAt (i + 1) = name)
    (h : lexemes.IsSignature repairs (i + 2) parameters items returns body j) :
    lexemes.Lays repairs i (.member (.function
      ⟨⟨i, j⟩, name, parameters, returns, FunctionAttributes.ofItems items, body⟩)) j :=
  .of_composed rfl
    (by simp [Part.Tight, Part.fields, Part.memberFields, Part.functionFields, Part.parametersField,
      Part.attributeFields, Part.overridesField])
    (.of_none ⟨rfl, rfl, rfl, rfl⟩) (.function h.plain h.ofFunction)
    ⟨⟨by decide, hk⟩, ⟨by decide, hname⟩, h.spells⟩ h.supports

/-- A word and a signature are a fallback function. -/
theorem fallback_lays {word : Symbol}
    (hword : word = .token .kwFunction ∨ word = .word .ident "fallback")
    (hfirst : lexemes.Spells i [word] (i + 1))
    (h : lexemes.IsSignature repairs (i + 1) parameters items returns body j) :
    lexemes.Lays repairs i (.member (.fallback
      ⟨⟨i, j⟩, parameters, returns, FunctionAttributes.ofItems items, body⟩)) j :=
  .of_composed rfl
    (by simp [Part.Tight, Part.fields, Part.memberFields, Part.parametersField,
      Part.attributeFields, Part.overridesField])
    (.of_none ⟨rfl, rfl, rfl, rfl⟩) (.fallback hword h.plain h.ofFunction)
    (hfirst.append h.spells) h.supports

end Lexemes.IsSignature

namespace Grammar

variable {inner : Inner} {scope : Scope} {i j k lo : Nat}

/-! ### What a choice passes over -/

/-- A rule that a keyword decides misses only where there is no such keyword. -/
theorem keywordRule_missed {α : Type} {keyword : Kind} {construct : Construct}
    {f : Nat → Parser α} (hf : ∀ n, (f n).Steady 0)
    (h : (keywordRule keyword construct (do
      let start ← Parser.position
      Parser.advance
      f start)).Missed scope i) (hne : keyword ≠ .eof) : scope.lexemes.kindAt i ≠ keyword := by
  intro hk
  rcases h.within.opening with hmissed | hmissed
  · exact hmissed hk
  · exact hne (hk ▸ hmissed.not_keyword hf)

/-- A rule that a word decides misses only where the word does not stand before such a token. -/
theorem wordRule_missed {α : Type} {word : String} {next : Kind} {construct : Construct}
    {f : Nat → Parser α} (hf : ∀ n, (f n).Steady 0)
    (h : (wordRule word next construct (do
      let start ← Parser.position
      Parser.advance
      f start)).Missed scope i) :
    ¬ (scope.lexemes.isWordAt i word = true ∧ scope.lexemes.kindAt (i + 1) = next) := by
  rintro ⟨hword, hnext⟩
  rcases h.provided with htest | hmissed
  · rw [hword, hnext] at htest
    simp at htest
  · have heof := hmissed.within.not_keyword hf
    rw [Lexemes.kindAt_of_isWordAt hword] at heof
    cases heof

/-- No error is defined where the rule for that missed. -/
theorem not_definesError (hb : inner.Built) (h : (errorDefinition inner).Missed scope i) :
    ¬ scope.lexemes.DefinesError i :=
  wordRule_missed (fun _ => .built <| .bind expectIdent_built fun _ =>
    .bind (parameters_built hb.typeName) fun _ => .bind (.expect rfl) fun _ =>
    .extentFrom fun _ => .done) h

/-- No variable of a contract stands where the attempt at one missed. -/
theorem not_declaresState {depth : Nat} (hc : inner.Complete depth)
    (hd : scope.lexemes.size < i + depth) (h : (stateVariable inner).Missed scope i) :
    ¬ scope.lexemes.DeclaresState i :=
  fun ⟨_, _, hphrase⟩ => h.not_reads (stateVariable_reads hc hd hphrase)

/-! ### Members with bodies -/

section Bodies

variable (hs : inner.statement.ReadsStatements { scope with inBody := true } lo)
  (hi : inner.Sound) (hw : scope.lexemes.WellSpelled)

include hs hi hw

/-- A function without a name is a fallback function, unless a variable can be read. -/
theorem contractFunction_lays (hlo : lo ≤ i + 1) {member : ContractPart .parsed}
    (h : (contractFunction inner).Gives scope i member j)
    (hpassed : scope.lexemes.kindAt i = .kwFunction → scope.lexemes.kindAt (i + 1) = .lparen →
      ¬ scope.lexemes.DeclaresState i) :
    scope.lexemes.Lays (.ofTolerance scope.tolerant) i (.member member) j ∧
      scope.lexemes.ChosenMember member := by
  obtain ⟨hk, h⟩ := keywordRule_gives h
  rcases (h.position.advance (by rw [hk]; decide)).kindIf with ⟨hopen, h⟩ | ⟨-, h⟩
  · obtain ⟨function, k, hfunction, h⟩ := h.bind
    obtain ⟨rfl, rfl⟩ := h.pure
    obtain ⟨given, items, returns, body, rfl, hsignature⟩ :=
      fallbackRest_isSignature hs hi hw (by omega) hfunction
    exact ⟨hsignature.fallback_lays (.inl rfl) ⟨⟨by decide, hk⟩, rfl⟩,
      fun _ => hpassed hk hopen⟩
  · obtain ⟨hname, h⟩ := h.expectIdent
    obtain ⟨function, k, hfunction, h⟩ := h.bind
    obtain ⟨rfl, rfl⟩ := h.pure
    obtain ⟨given, items, returns, body, rfl, hsignature⟩ :=
      functionRest_isSignature hs hi hw (by omega) hfunction
    exact ⟨hsignature.function_lays hk ⟨hname, rfl⟩, trivial⟩

/-- A function outside contracts is a member in its own right. -/
theorem freeFunction_lays (hlo : lo ≤ i + 1) {function : FunctionDeclaration .parsed}
    (h : (freeFunction inner).Gives scope i function j) :
    scope.lexemes.Lays (.ofTolerance scope.tolerant) i (.member (.function function)) j := by
  obtain ⟨hk, h⟩ := keywordRule_gives h
  obtain ⟨hname, h⟩ := (h.position.advance (by rw [hk]; decide)).expectIdent
  obtain ⟨given, items, returns, body, rfl, hsignature⟩ :=
    functionRest_isSignature hs hi hw (by omega) h
  exact hsignature.function_lays hk ⟨hname, rfl⟩

/-- A fallback function of its own word is one. -/
theorem fallbackFunction_lays (hlo : lo ≤ i + 1) {function : FallbackFunction .parsed}
    (h : (fallbackFunction inner).Gives scope i function j) :
    scope.lexemes.Lays (.ofTolerance scope.tolerant) i (.member (.fallback function)) j ∧
      scope.lexemes.ChosenMember (.fallback function) := by
  obtain ⟨⟨hk, hword⟩, -, h⟩ := wordRule_gives h
  obtain ⟨given, items, returns, body, rfl, hsignature⟩ :=
    fallbackRest_isSignature hs hi hw (by omega) (h.position.advance (by rw [hk]; decide))
  refine ⟨hsignature.fallback_lays (.inr rfl) ⟨⟨by decide, hk, hword⟩, rfl⟩, fun hk' => ?_⟩
  rw [hk] at hk'
  cases hk'

/-- A constructor has no results, and has a body. -/
theorem constructorFunction_lays (hlo : lo ≤ i + 1) {function : Constructor .parsed}
    (h : (constructorFunction inner).Gives scope i function j) :
    scope.lexemes.Lays (.ofTolerance scope.tolerant) i (.member (.constructor function)) j := by
  obtain ⟨hk, h⟩ := keywordRule_gives h
  obtain ⟨given, k, hgiven, h⟩ := (h.position.advance (by rw [hk]; decide)).bind
  obtain ⟨attributes, l, hattributes, h⟩ := h.bind
  obtain ⟨body, m, hbody, h⟩ := h.bind
  obtain ⟨rfl, rfl⟩ := h.extentFrom.pure
  obtain ⟨hspells, hgiven⟩ := parameters_spells (hi.typeName hw) hgiven
  obtain ⟨items, hitems, rfl, hspells', hkept⟩ := functionAttributes_spells hi hw hattributes
  have hle := hspells.inside.1
  have hle' := hspells'.inside.1
  have hlays := functionBody_lays hs (by omega) hbody
  have hfront : scope.lexemes.Spells i (.token .kwConstructor :: Symbol.parameters given) k :=
    ⟨⟨by decide, hk⟩, hspells⟩
  refine .of_composed rfl (by simp [Part.Tight, Part.fields, Part.memberFields])
    (.of_none ⟨rfl, rfl, rfl, rfl⟩) (.constructor (fun p hp => (hgiven p hp).2 rfl) hitems)
    ((hfront.append hspells').append (hlays.spells rfl)) ?_
  simpa [Part.fields, Part.memberFields] using
    ⟨fun p hp => (hgiven p hp).1.mono fun _ => .phrase,
      fun v hv => (hkept.modifiers v hv).mono fun _ => .phrase, hlays.stands⟩

/-- A receiving function has neither parameters nor results. -/
theorem receiveFunction_lays (hlo : lo ≤ i + 1) {function : ReceiveFunction .parsed}
    (h : (receiveFunction inner).Gives scope i function j) :
    scope.lexemes.Lays (.ofTolerance scope.tolerant) i (.member (.receive function)) j := by
  obtain ⟨⟨hk, hword⟩, -, h⟩ := wordRule_gives h
  obtain ⟨hopen, h⟩ := (h.position.advance (by rw [hk]; decide)).expect (by decide)
  obtain ⟨hclose, h⟩ := h.expect (by decide)
  obtain ⟨attributes, l, hattributes, h⟩ := h.bind
  obtain ⟨body, m, hbody, h⟩ := h.bind
  obtain ⟨rfl, rfl⟩ := h.extentFrom.pure
  obtain ⟨items, hitems, rfl, hspells, hkept⟩ := functionAttributes_spells hi hw hattributes
  have hle := hspells.inside.1
  obtain ⟨hspells', hbody⟩ := bodyOrSemicolon_spells hs (by omega) hbody
  refine .of_composed rfl ?_ (.of_none ⟨rfl, rfl, rfl, rfl⟩) (.receive hitems)
    ⟨⟨by decide, hk, hword⟩, ⟨by decide, hopen⟩, ⟨by decide, hclose⟩, hspells.append hspells'⟩ ?_
  · simp [Part.Tight, Part.fields, Part.memberFields, Part.attributeFields, Part.overridesField]
  · refine List.forall_mem_cons.mpr ⟨?_, hkept.supports⟩
    simpa using hbody

/-- A modifier may have no parentheses. -/
theorem modifierDeclaration_lays (hlo : lo ≤ i + 1) {modifier : ModifierDeclaration .parsed}
    (h : (modifierDeclaration inner).Gives scope i modifier j) :
    scope.lexemes.Lays (.ofTolerance scope.tolerant) i (.member (.modifier modifier)) j := by
  obtain ⟨hk, h⟩ := keywordRule_gives h
  obtain ⟨hname, h⟩ := (h.position.advance (by rw [hk]; decide)).expectIdent
  obtain ⟨given, k, hgiven, h⟩ := h.bind
  obtain ⟨⟨isVirtual, overrides⟩, l, hattributes, h⟩ := h.bind
  obtain ⟨body, m, hbody, h⟩ := h.bind
  obtain ⟨rfl, rfl⟩ := h.extentFrom.pure
  obtain ⟨hspells, hgiven⟩ := parametersIfOpen_spells hi hw hgiven
  obtain ⟨items, hitems, rfl, rfl, hspells', hkept⟩ := modifierAttributes_spells hattributes
  have hle := hspells.inside.1
  have hle' := hspells'.inside.1
  obtain ⟨hspells'', hbody⟩ := bodyOrSemicolon_spells hs (by omega) hbody
  have hfront : scope.lexemes.Spells i
      (.token .kwModifier :: .word .ident (scope.lexemes.textAt (i + 1)) :: Symbol.given given) k :=
    ⟨⟨by decide, hk⟩, ⟨by decide, hname, rfl⟩, hspells⟩
  refine .of_composed rfl ?_ (.of_none ⟨rfl, rfl, rfl, rfl⟩)
    (.modifier (fun p hp => (hgiven p hp).2) hitems) ((hfront.append hspells').append hspells'') ?_
  · simp [Part.Tight, Part.fields, Part.memberFields, Part.parametersField, Part.overridesField]
  · simpa [Part.fields, Part.memberFields, Part.parametersField, Part.overridesField] using
      ⟨fun p hp => (hgiven p hp).1.mono fun _ => .phrase,
        fun p hp => (hkept p hp).mono fun _ => .phrase, hbody⟩

/-! ### Members -/

/-- A member of a contract is read in the first of the ways in which it can be. -/
theorem contractPart_lays (hb : inner.Built) {depth : Nat} (hc : inner.Complete depth)
    (hd : scope.lexemes.size < i + depth) (hlo : lo ≤ i + 1) {member : ContractPart .parsed}
    (h : (contractPart inner).Gives scope i member j) :
    scope.lexemes.Lays (.ofTolerance scope.tolerant) i (.member member) j ∧
      scope.lexemes.ChosenMember member := by
  rcases h.of_named.elim with h | ⟨hmissed, h⟩
  · obtain ⟨htest, h⟩ := h.provided
    obtain ⟨declaration, hrule, rfl⟩ := h.of_map
    have hphrase := stateVariable_isPhrase hi hw hrule
    refine ⟨hphrase.lays, ?_⟩
    have hplace : declaration.place = ⟨i, j⟩ := hphrase.place
    have hk : scope.lexemes.kindAt i = .kwFunction := by
      rw [Bool.and_eq_true, beq_iff_eq] at htest
      exact htest.1
    rintro ⟨hword, -⟩
    rw [hplace] at hword
    have := Lexemes.kindAt_of_isWordAt hword
    rw [hk] at this
    cases this
  rcases h.elim with h | ⟨-, h⟩
  · refine contractFunction_lays hs hi hw hlo h fun hk hopen => ?_
    rcases hmissed.provided with htest | hmissed
    · rw [hk, hopen] at htest
      cases htest
    · exact not_declaresState hc hd hmissed.of_map
  rcases h.elim with h | ⟨-, h⟩
  · obtain ⟨function, hrule, rfl⟩ := h.of_map
    exact ⟨constructorFunction_lays hs hi hw hlo hrule, trivial⟩
  rcases h.elim with h | ⟨-, h⟩
  · obtain ⟨function, hrule, rfl⟩ := h.of_map
    exact ⟨receiveFunction_lays hs hi hw hlo hrule, trivial⟩
  rcases h.elim with h | ⟨-, h⟩
  · obtain ⟨function, hrule, rfl⟩ := h.of_map
    exact fallbackFunction_lays hs hi hw hlo hrule
  rcases h.elim with h | ⟨-, h⟩
  · obtain ⟨modifier, hrule, rfl⟩ := h.of_map
    exact ⟨modifierDeclaration_lays hs hi hw hlo hrule, trivial⟩
  rcases h.elim with h | ⟨-, h⟩
  · obtain ⟨definition, hrule, rfl⟩ := h.of_map
    exact ⟨(eventDefinition_isPhrase hi hw hrule).lays, trivial⟩
  rcases h.elim with h | ⟨herror, h⟩
  · obtain ⟨definition, hrule, rfl⟩ := h.of_map
    exact ⟨(errorDefinition_isPhrase hi hw hrule).lays, trivial⟩
  rcases h.elim with h | ⟨-, h⟩
  · obtain ⟨definition, hrule, rfl⟩ := h.of_map
    exact ⟨(structDefinition_isPhrase hi hw hrule).lays, trivial⟩
  rcases h.elim with h | ⟨-, h⟩
  · obtain ⟨definition, hrule, rfl⟩ := h.of_map
    exact ⟨(enumDefinition_isPhrase hrule).lays, trivial⟩
  rcases h.elim with h | ⟨-, h⟩
  · obtain ⟨directive, hrule, rfl⟩ := h.of_map
    exact ⟨(usingDirective_isPhrase hi hw hrule).lays, trivial⟩
  rcases h.elim with h | ⟨-, h⟩
  · obtain ⟨definition, hrule, rfl⟩ := h.of_map
    exact ⟨(valueTypeDefinition_isPhrase hrule).lays, trivial⟩
  rcases h.elim with h | ⟨-, h⟩
  · obtain ⟨declaration, hrule, rfl⟩ := h.of_map
    have hphrase := stateVariable_isPhrase hi hw hrule
    have hplace : declaration.place = ⟨i, j⟩ := hphrase.place
    refine ⟨hphrase.lays, ?_⟩
    rw [Lexemes.ChosenMember, hplace]
    exact not_definesError hb herror.of_map
  · exact h.none.elim

end Bodies

end Grammar

end SolidityParser
