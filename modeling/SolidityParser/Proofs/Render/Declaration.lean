import SolidityParser.Proofs.Render.Told

/-!
# Declarations told by their JSON

Members of contracts, and units of a source, are of the sort that their type says. So every node is
told by its JSON and by what marks the nodes in it (`Part.told`), and with its units a program
(`Program.toJson_inj`).
-/

namespace SolidityParser

/-! ### Names, paths, imported names and versions

The JSON of a node without others in it tells all its fields.
-/

theorem Identifier.toJson_inj {v w : Identifier Span} (h : v.toJson = w.toJson) : v = w := by
  obtain ⟨place, name⟩ := v
  obtain ⟨place', name'⟩ := w
  simp [toJson] at h
  simp [h]

theorem NamePath.toJson_inj {v w : NamePath Span} (h : v.toJson = w.toJson) : v = w := by
  obtain ⟨place, names⟩ := v
  obtain ⟨place', names'⟩ := w
  simp [toJson] at h
  simp [h]

theorem ImportSymbol.toJson_inj {v w : ImportSymbol Span} (h : v.toJson = w.toJson) : v = w := by
  obtain ⟨place, name, newName⟩ := v
  obtain ⟨place', name', newName'⟩ := w
  simp [toJson] at h
  simp [h]

theorem VersionLiteral.toJson_inj {v w : VersionLiteral} (h : v.toJson = w.toJson) : v = w := by
  obtain ⟨operator, version, span⟩ := v
  obtain ⟨operator', version', span'⟩ := w
  simp [toJson] at h
  simp [h]

theorem EnumDefinition.toJson_inj {v w : EnumDefinition Span} (h : v.toJson = w.toJson) :
    v = w := by
  obtain ⟨place, name, members⟩ := v
  obtain ⟨place', name', members'⟩ := w
  simp [toJson] at h
  obtain ⟨rfl, rfl, hmembers⟩ := h
  rw [Json.map_inj hmembers fun v _ w _ => Identifier.toJson_inj]

theorem ValueTypeDefinition.toJson_inj {v w : ValueTypeDefinition Span}
    (h : v.toJson = w.toJson) : v = w := by
  obtain ⟨place, name, basePlace, baseName, payable⟩ := v
  obtain ⟨place', name', basePlace', baseName', payable'⟩ := w
  simp [toJson, TypeName.toJson] at h
  simp [h]

theorem overridesToJson_inj {o o' : Option (List (NamePath Span))}
    (h : overridesToJson o = overridesToJson o') : o = o' :=
  Json.ofList?_inj h fun _ _ => NamePath.toJson_inj

namespace Part

variable {named : Span → Prop}

/-! ### Parts shared by declarations

Where parts are told, so are the lists of them that declarations hold, and the declarations.
-/

/-- An invocation is told by its path and its arguments; its type is that of the attribute it is
in. -/
theorem told_invocation (v : Invocation Span)
    (below : ∀ field ∈ (invocation v : Part .located).fields, ∀ child ∈ field,
      child.Told named) : (invocation v).Told named := by
  intro type w hw heq
  have below' := (all_iff.mp hw).2
  obtain ⟨place, name, given⟩ := v
  obtain ⟨place', name', given'⟩ := w
  simp [Invocation.toJson] at heq
  obtain ⟨rfl, rfl, hgiven⟩ := heq
  simp [fields, Told] at below below'
  rw [Json.of?_inj (by simp) hgiven]
  rintro es rfl es' rfl h
  simp at below below' h
  exact Json.map_inj h fun v hv w hw => below v hv w (below' w hw)

/-- So are the modifiers of a function. -/
theorem told_modifiers {l l' : List (Invocation Span)}
    (heq : modifiersToJson l = modifiersToJson l')
    (below : ∀ m ∈ l, (invocation m).Told named)
    (below' : ∀ m ∈ l', (invocation m).All (Marked named)) : l = l' := by
  simp [modifiersToJson] at heq
  exact Json.map_inj heq fun v hv w hw => below v hv _ w (below' w hw)

/-- A function without a body is told from one with any. -/
theorem block_ne_null (b : Block .located) : b.toJson ≠ .null := by
  simp

/-- A function is told by its fields, of which some are in its attributes. -/
theorem told_function (v : FunctionDeclaration .located)
    (below : ∀ field ∈ functionFields v, ∀ child ∈ field, child.Told named)
    (w : FunctionDeclaration .located)
    (below' : ∀ field ∈ functionFields w, ∀ child ∈ field, child.All (Marked named))
    (heq : v.toJson = w.toJson) : v = w := by
  obtain ⟨place, name, parameters, returns, attributes, body⟩ := v
  obtain ⟨place', name', parameters', returns', attributes', body'⟩ := w
  obtain ⟨visibility, mutability, modifiers, isVirtual, overrides⟩ := attributes
  obtain ⟨visibility', mutability', modifiers', isVirtual', overrides'⟩ := attributes'
  simp [FunctionDeclaration.toJson, Visibility.optionToJson, StateMutability.optionToJson] at heq
  obtain ⟨rfl, rfl, hparameters, hreturns, rfl, rfl, hmodifiers, rfl, hoverrides, hbody⟩ := heq
  simp [functionFields, attributeFields, parametersField] at below below'
  obtain ⟨atParameters, atReturns, atBody, atModifiers, -⟩ := below
  obtain ⟨atParameters', atReturns', atBody', atModifiers', -⟩ := below'
  rw [Json.map_inj hparameters fun v hv w hw => atParameters v hv w (atParameters' w hw),
    told_parameters hreturns atReturns atReturns',
    told_modifiers hmodifiers atModifiers atModifiers', overridesToJson_inj hoverrides,
    Json.of?_inj block_ne_null hbody fun v hv w hw => atBody v hv w (atBody' w hw)]

/-- An event is told by its name and its parameters. -/
theorem told_event (v : EventDefinition Span)
    (below : ∀ p ∈ v.parameters, (parameter p).Told named) (w : EventDefinition Span)
    (below' : ∀ p ∈ w.parameters, (parameter p).All (Marked named))
    (heq : v.toJson = w.toJson) : v = w := by
  obtain ⟨place, name, parameters, isAnonymous⟩ := v
  obtain ⟨place', name', parameters', isAnonymous'⟩ := w
  simp [EventDefinition.toJson] at heq
  obtain ⟨rfl, rfl, hparameters, rfl⟩ := heq
  rw [Json.map_inj hparameters fun v hv w hw => below v hv w (below' w hw)]

/-- So is an error. -/
theorem told_error (v : ErrorDefinition Span)
    (below : ∀ p ∈ v.parameters, (parameter p).Told named) (w : ErrorDefinition Span)
    (below' : ∀ p ∈ w.parameters, (parameter p).All (Marked named))
    (heq : v.toJson = w.toJson) : v = w := by
  obtain ⟨place, name, parameters⟩ := v
  obtain ⟨place', name', parameters'⟩ := w
  simp [ErrorDefinition.toJson] at heq
  obtain ⟨rfl, rfl, hparameters⟩ := heq
  rw [Json.map_inj hparameters fun v hv w hw => below v hv w (below' w hw)]

/-- So is a structure with its members. -/
theorem told_struct (v : StructDefinition Span)
    (below : ∀ d ∈ v.members, (declared d).Told named) (w : StructDefinition Span)
    (below' : ∀ d ∈ w.members, (declared d).All (Marked named))
    (heq : v.toJson = w.toJson) : v = w := by
  obtain ⟨place, name, members⟩ := v
  obtain ⟨place', name', members'⟩ := w
  simp [StructDefinition.toJson] at heq
  obtain ⟨rfl, rfl, hmembers⟩ := heq
  rw [Json.map_inj hmembers fun v hv w hw => below v hv w (below' w hw)]

/-- So is a directive, by what it attaches and to which type. -/
theorem told_using (v : UsingDirective Span)
    (below : ∀ t ∈ v.target, (typeName t).Told named) (w : UsingDirective Span)
    (below' : ∀ t ∈ w.target, (typeName t).All (Marked named))
    (heq : v.toJson = w.toJson) : v = w := by
  obtain ⟨place, library, functions, target, isGlobal⟩ := v
  obtain ⟨place', library', functions', target', isGlobal'⟩ := w
  simp [UsingDirective.toJson] at heq
  obtain ⟨rfl, rfl, hfunctions, htarget, rfl⟩ := heq
  rw [Json.map_inj hfunctions (by simp),
    Json.of?_inj typeName_ne_null htarget fun v hv w hw => below v hv w (below' w hw)]

/-! ### Members and units -/

/-- Members of one type are of one sort. -/
theorem told_member (v : ContractPart .located)
    (below : ∀ field ∈ (member v).fields, ∀ child ∈ field, child.Told named) :
    (member v).Told named := by
  intro w hw heq
  have below' := (all_iff.mp hw).2
  have htype := congrArg Json.type? heq
  simp only [fields] at below below'
  cases v <;> cases w <;>
    simp [ContractPart.toJson, StateVariable.toJson, Constructor.toJson, ReceiveFunction.toJson,
      FallbackFunction.toJson, FunctionDeclaration.toJson, ModifierDeclaration.toJson,
      EventDefinition.toJson, ErrorDefinition.toJson, StructDefinition.toJson,
      EnumDefinition.toJson, UsingDirective.toJson, ValueTypeDefinition.toJson] at htype
  case stateVariable.stateVariable v w =>
    obtain ⟨place, type, name, visibility, isConstant, isImmutable, overrides, value⟩ := v
    obtain ⟨place', type', name', visibility', isConstant', isImmutable', overrides', value'⟩ := w
    simp [ContractPart.toJson, StateVariable.toJson, Visibility.optionToJson] at heq
    obtain ⟨rfl, atType, rfl, rfl, rfl, rfl, hoverrides, hvalue⟩ := heq
    simp [memberFields, Told] at below below'
    rw [below.1 _ below'.1 atType, overridesToJson_inj hoverrides,
      Json.of?_inj expression_ne_null hvalue
        fun v hv w hw => below.2.2 v hv w (below'.2.2 w hw)]
  case constructor.constructor v w =>
    obtain ⟨place, parameters, modifiers, visibility, mutability, body⟩ := v
    obtain ⟨place', parameters', modifiers', visibility', mutability', body'⟩ := w
    simp [ContractPart.toJson, Constructor.toJson, Visibility.optionToJson,
      StateMutability.optionToJson] at heq
    obtain ⟨rfl, hparameters, hmodifiers, rfl, rfl, hbody⟩ := heq
    simp [memberFields] at below below'
    obtain ⟨atParameters, atModifiers, atBody⟩ := below
    obtain ⟨atParameters', atModifiers', atBody'⟩ := below'
    rw [Json.map_inj hparameters fun v hv w hw => atParameters v hv w (atParameters' w hw),
      told_modifiers hmodifiers atModifiers atModifiers', atBody _ atBody' (by simp [hbody])]
  case receive.receive v w =>
    obtain ⟨place, ⟨visibility, mutability, modifiers, isVirtual, overrides⟩, body⟩ := v
    obtain ⟨place', ⟨visibility', mutability', modifiers', isVirtual', overrides'⟩, body'⟩ := w
    simp [ContractPart.toJson, ReceiveFunction.toJson, Visibility.optionToJson,
      StateMutability.optionToJson] at heq
    obtain ⟨rfl, hmodifiers, rfl, rfl, rfl, hoverrides, hbody⟩ := heq
    simp [memberFields, attributeFields] at below below'
    obtain ⟨atBody, atModifiers, -⟩ := below
    obtain ⟨atBody', atModifiers', -⟩ := below'
    rw [told_modifiers hmodifiers atModifiers atModifiers', overridesToJson_inj hoverrides,
      Json.of?_inj block_ne_null hbody fun v hv w hw => atBody v hv w (atBody' w hw)]
  case fallback.fallback v w =>
    obtain ⟨place, parameters, returns, attributes, body⟩ := v
    obtain ⟨place', parameters', returns', attributes', body'⟩ := w
    obtain ⟨visibility, mutability, modifiers, isVirtual, overrides⟩ := attributes
    obtain ⟨visibility', mutability', modifiers', isVirtual', overrides'⟩ := attributes'
    simp [ContractPart.toJson, FallbackFunction.toJson, Visibility.optionToJson,
      StateMutability.optionToJson] at heq
    obtain ⟨rfl, hparameters, hreturns, hmodifiers, rfl, rfl, rfl, hoverrides, hbody⟩ := heq
    simp [memberFields, attributeFields, parametersField] at below below'
    obtain ⟨atParameters, atReturns, atBody, atModifiers, -⟩ := below
    obtain ⟨atParameters', atReturns', atBody', atModifiers', -⟩ := below'
    rw [Json.map_inj hparameters fun v hv w hw => atParameters v hv w (atParameters' w hw),
      told_parameters hreturns atReturns atReturns',
      told_modifiers hmodifiers atModifiers atModifiers', overridesToJson_inj hoverrides,
      Json.of?_inj block_ne_null hbody fun v hv w hw => atBody v hv w (atBody' w hw)]
  case function.function v w => exact congrArg _ (told_function v below w below' heq)
  case modifier.modifier v w =>
    obtain ⟨place, name, parameters, isVirtual, overrides, body⟩ := v
    obtain ⟨place', name', parameters', isVirtual', overrides', body'⟩ := w
    simp [ContractPart.toJson, ModifierDeclaration.toJson] at heq
    obtain ⟨rfl, rfl, hparameters, rfl, hoverrides, hbody⟩ := heq
    simp [memberFields, parametersField] at below below'
    obtain ⟨atParameters, -, atBody⟩ := below
    obtain ⟨atParameters', -, atBody'⟩ := below'
    rw [told_parameters hparameters atParameters atParameters', overridesToJson_inj hoverrides,
      Json.of?_inj block_ne_null hbody fun v hv w hw => atBody v hv w (atBody' w hw)]
  case event.event v w =>
    simp [memberFields] at below below'
    exact congrArg _ (told_event v below w below' heq)
  case error.error v w =>
    simp [memberFields] at below below'
    exact congrArg _ (told_error v below w below' heq)
  case struct.struct v w =>
    simp [memberFields] at below below'
    exact congrArg _ (told_struct v below w below' heq)
  case enumeration.enumeration v w => exact congrArg _ (EnumDefinition.toJson_inj heq)
  case usingDirective.usingDirective v w =>
    simp [memberFields] at below below'
    exact congrArg _ (told_using v below w below' heq)
  case valueType.valueType v w => exact congrArg _ (ValueTypeDefinition.toJson_inj heq)

/-- Units of one type are of one sort. -/
theorem told_unit (v : SourceUnit .located)
    (below : ∀ field ∈ (unit v).fields, ∀ child ∈ field, child.Told named) :
    (unit v).Told named := by
  intro w hw heq
  have below' := (all_iff.mp hw).2
  have htype := congrArg Json.type? heq
  simp only [fields] at below below'
  cases v <;> cases w <;>
    simp [SourceUnit.toJson, Pragma.toJson, CoderPragma.toJson, ExperimentalPragma.toJson,
      ImportDirective.toJson, Contract.toJson, FunctionDeclaration.toJson, StructDefinition.toJson,
      EnumDefinition.toJson, ErrorDefinition.toJson, EventDefinition.toJson,
      UsingDirective.toJson, ValueTypeDefinition.toJson, FileConstant.toJson] at htype
  case pragma.pragma v w =>
    obtain ⟨place, name, text, first, last⟩ := v
    obtain ⟨place', name', text', first', last'⟩ := w
    simp [SourceUnit.toJson, Pragma.toJson] at heq
    obtain ⟨rfl, rfl, rfl, hfirst, hlast⟩ := heq
    rw [Json.of?_inj (by simp [VersionLiteral.toJson]) hfirst fun v _ w _ => VersionLiteral.toJson_inj,
      Json.of?_inj (by simp [VersionLiteral.toJson]) hlast fun v _ w _ => VersionLiteral.toJson_inj]
  case coderPragma.coderPragma v w =>
    obtain ⟨place, version⟩ := v
    obtain ⟨place', version'⟩ := w
    simp [SourceUnit.toJson, CoderPragma.toJson] at heq
    rw [heq.1, Identifier.toJson_inj heq.2]
  case experimentalPragma.experimentalPragma v w =>
    obtain ⟨place, feature⟩ := v
    obtain ⟨place', feature'⟩ := w
    simp [SourceUnit.toJson, ExperimentalPragma.toJson] at heq
    simp [heq]
  case importDirective.importDirective v w =>
    obtain ⟨place, names, newName, symbols⟩ := v
    obtain ⟨place', names', newName', symbols'⟩ := w
    simp [SourceUnit.toJson, ImportDirective.toJson] at heq
    obtain ⟨rfl, rfl, rfl, hsymbols⟩ := heq
    rw [Json.ofList?_inj hsymbols fun _ _ => ImportSymbol.toJson_inj]
  case contract.contract v w =>
    obtain ⟨place, name, kind, isAbstract, bases, body⟩ := v
    obtain ⟨place', name', kind', isAbstract', bases', body'⟩ := w
    simp [SourceUnit.toJson, Contract.toJson] at heq
    obtain ⟨rfl, rfl, rfl, rfl, hbases, hbody⟩ := heq
    simp [unitFields] at below below'
    rw [Json.map_inj hbases fun v hv w hw => below.1 v hv _ w (below'.1 w hw),
      Json.map_inj hbody fun v hv w hw => below.2 v hv w (below'.2 w hw)]
  case function.function v w => exact congrArg _ (told_function v below w below' heq)
  case struct.struct v w =>
    simp [unitFields] at below below'
    exact congrArg _ (told_struct v below w below' heq)
  case enumeration.enumeration v w => exact congrArg _ (EnumDefinition.toJson_inj heq)
  case error.error v w =>
    simp [unitFields] at below below'
    exact congrArg _ (told_error v below w below' heq)
  case event.event v w =>
    simp [unitFields] at below below'
    exact congrArg _ (told_event v below w below' heq)
  case usingDirective.usingDirective v w =>
    simp [unitFields] at below below'
    exact congrArg _ (told_using v below w below' heq)
  case valueType.valueType v w => exact congrArg _ (ValueTypeDefinition.toJson_inj heq)
  case constant.constant v w =>
    obtain ⟨place, type, name, value⟩ := v
    obtain ⟨place', type', name', value'⟩ := w
    simp [SourceUnit.toJson, FileConstant.toJson] at heq
    obtain ⟨rfl, atType, rfl, hvalue⟩ := heq
    simp [unitFields] at below below'
    rw [below.1 _ below'.1 atType, below.2 _ below'.2 hvalue]

/-- Every node is told by its JSON and by what marks the nodes in it. -/
theorem told (part : Part .located) (h : part.All (Marked named)) : part.Told named := by
  induction part using Part.induction with
  | step part ih =>
    have below : ∀ field ∈ part.fields, ∀ child ∈ field, child.Told named :=
      fun field hfield child hchild => ih field hfield child hchild (h.below hfield hchild)
    cases part with
    | identifier => exact fun _ => Identifier.toJson_inj
    | path => exact fun _ => NamePath.toJson_inj
    | importSymbol => exact fun _ => ImportSymbol.toJson_inj
    | expression v => exact told_expression v h.here below
    | namedArgument v => exact told_namedArgument v below
    | typeName v => exact told_typeName v below
    | parameter v => exact told_parameter v below
    | declared v => exact told_declared v below
    | statement v => exact told_statement v below
    | block v => exact told_block v below
    | clause v => exact told_clause v below
    | invocation v => exact told_invocation v below
    | member v => exact told_member v below
    | unit v => exact told_unit v below

end Part

/-- A program is told by its JSON and by what marks the nodes in it. -/
theorem Program.toJson_inj {named : Span → Prop} {p q : Program}
    (hp : ∀ u ∈ p.body, (Part.unit u).All (Part.Marked named))
    (hq : ∀ u ∈ q.body, (Part.unit u).All (Part.Marked named)) (h : p.toJson = q.toJson) :
    p = q := by
  obtain ⟨span, body⟩ := p
  obtain ⟨span', body'⟩ := q
  simp [toJson] at h
  obtain ⟨rfl, hbody⟩ := h
  rw [Json.map_inj hbody fun u hu v hv => Part.told (.unit u) (hp u hu) v (hq v hv)]

end SolidityParser
