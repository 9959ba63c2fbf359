import SolidityParser.Proofs.Render.Json
import SolidityParser.Proofs.Render.Nodes
import SolidityParser.Proofs.Spans

/-!
# The objects in the JSON of a tree

Every object in the JSON of a tree is a node of the tree (`Part.objects_perm`): the JSON of a part
holds the objects that the part is itself and those of the parts right below (`Part.json_objects`).
Each has the shape of a node, with the place of its node (`Part.rendered_isNode`), and no member
with the name of a mark.
-/

namespace SolidityParser

open Json (node of? ofText? ofList?)

namespace Json

variable {α : Type} {f : α → Json}

@[simp] theorem objects_null : null.objects = [] := rfl

@[simp] theorem objects_bool (b : Bool) : (bool b).objects = [] := rfl

@[simp] theorem objects_string (s : String) : (string s).objects = [] := rfl

@[simp] theorem objects_ofNat (n : Nat) : (ofNat n).objects = [] := rfl

@[simp] theorem objects_ofNumber (n : NumberValue) : (ofNumber n).objects = [] := by
  cases n with
  | integer => rfl
  | double value => cases value <;> rfl

@[simp] theorem objects_ofText? (o : Option String) : (ofText? o).objects = [] := by
  cases o <;> rfl

@[simp] theorem objects_array (items : List Json) :
    (array items).objects = items.flatMap objects := by
  rw [objects, objectsOfItems_eq]

/-- There are no objects in a list of texts. -/
theorem objects_texts (texts : List String) : (array (texts.map string)).objects = [] := by
  rw [objects_array, List.flatMap_map]
  exact List.flatMap_eq_nil_iff.mpr fun _ _ => rfl

@[simp] theorem objects_of? (o : Option α) :
    (of? f o).objects = o.toList.flatMap fun v => (f v).objects := by
  cases o <;> simp [of?]

@[simp] theorem objects_ofList? (o : Option (List α)) :
    (ofList? f o).objects = (o.getD []).flatMap fun v => (f v).objects := by
  cases o <;> simp [ofList?, List.flatMap_map]

/-- The objects in a node are the node and those in its fields. -/
@[simp] theorem objects_node (type : String) (span : Span) (fields : List (String × Json)) :
    (node type span fields).objects =
      node type span fields :: fields.flatMap fun field => field.2.objects := by
  simp [node, objects]

@[simp] theorem objects_payable (payable : Bool) :
    (if payable then string StateMutability.payable.text else null).objects = [] := by
  cases payable <;> rfl

end Json

@[simp] theorem Visibility.objects_optionToJson (visibility : Option Visibility) :
    (Visibility.optionToJson visibility).objects = [] :=
  Json.objects_ofText? _

@[simp] theorem StateMutability.objects_optionToJson (mutability : Option StateMutability) :
    (StateMutability.optionToJson mutability).objects = [] :=
  Json.objects_ofText? _

@[simp] theorem Parameter.objects_listOptionToJson (parameters : Option (List (Parameter Span))) :
    (Parameter.listOptionToJson parameters).objects =
      (parameters.getD []).flatMap fun p => p.toJson.objects := by
  cases parameters <;> simp [listOptionToJson, List.flatMap_map]

@[simp] theorem objects_modifiersToJson (modifiers : List (Invocation Span)) :
    (modifiersToJson modifiers).objects =
      modifiers.flatMap fun m => (m.toJson "ModifierInvocation").objects := by
  simp [modifiersToJson, List.flatMap_map]

@[simp] theorem objects_overridesToJson (overrides : Option (List (NamePath Span))) :
    (overridesToJson overrides).objects = (overrides.getD []).flatMap fun p => p.toJson.objects :=
  Json.objects_ofList? _

@[simp] theorem Block.objects_optionToJson (body : Option (Block .located)) :
    (Block.optionToJson body).objects = body.toList.flatMap fun b => b.toJson.objects :=
  Json.objects_of? _

/-! ### The nodes of a tree as objects -/

namespace Part

/-- The JSON of a part. What a contract inherits and the modifiers of a function are written alike,
but are nodes of different types. -/
def json (type : String) : Part .located → Json
  | identifier value => value.toJson
  | expression value => value.toJson
  | namedArgument value => value.toJson
  | typeName value => value.toJson
  | parameter value => value.toJson
  | declared value => value.toJson
  | statement value => value.toJson
  | block value => value.toJson
  | clause value => value.toJson
  | path value => value.toJson
  | invocation value => value.toJson type
  | importSymbol value => value.toJson
  | member value => value.toJson
  | unit value => value.toJson

/-- The type of the invocations right below a part. -/
def invocationType : Part .located → String
  | unit (.contract _) => "InheritanceSpecifier"
  | _ => "ModifierInvocation"

/-- The objects that a part is itself, each with the place of its node: a block that is a statement
is the object of the block, and a pragma holds objects for its versions. -/
def own (type : String) : Part .located → List (Json × Span)
  | statement (.block _) => []
  | unit (.pragma directive) =>
    (directive.toJson, directive.place) ::
      directive.value.versions.map fun version => (version.toJson, version.span)
  | part => [(part.json type, part.place)]

/-- The elements of a list that are not missing. -/
theorem flatMap_reduceOption {α β : Type} (f : α → List β) (slots : List (Option α)) :
    slots.reduceOption.flatMap f = slots.flatMap fun slot => slot.toList.flatMap f := by
  induction slots with
  | nil => rfl
  | cons slot slots ih => cases slot <;> simp [List.reduceOption_cons_of_none, ih]

/-- What is written last may be listed first. -/
theorem perm_last_first {α : Type} (first second last : List α) :
    (first ++ (second ++ last)).Perm (last ++ (first ++ second)) := by
  rw [← List.append_assoc]
  exact List.perm_append_comm

/-- The objects in a function are the function and those in its fields. -/
theorem function_objects (declaration : FunctionDeclaration .located) :
    declaration.toJson.objects.Perm (declaration.toJson ::
      (functionFields declaration).flatten.flatMap
        fun child => (child.json "ModifierInvocation").objects) := by
  simp [FunctionDeclaration.toJson, json, functionFields, attributeFields, parametersField,
    overridesField, List.flatMap_map, List.perm_append_left_iff, perm_last_first]

/-- The objects in a pragma are the pragma and the versions in its value. -/
theorem pragma_objects (directive : Pragma .located) :
    directive.toJson.objects =
      directive.toJson :: directive.value.versions.map VersionLiteral.toJson := by
  simp [Pragma.toJson, VersionLiteral.toJson, PragmaValue.versions, List.map_eq_flatMap]

/-- The objects in a directive that attaches functions are the directive and those in the type. -/
theorem using_objects (directive : UsingDirective Span) :
    directive.toJson.objects =
      directive.toJson :: directive.target.toList.flatMap fun type => type.toJson.objects := by
  simp only [UsingDirective.toJson, Json.objects_node, List.flatMap_cons, List.flatMap_nil,
    Json.objects_ofText?, Json.objects_texts, Json.objects_of?, Json.objects_bool, List.nil_append,
    List.append_nil]

/-- The objects in the JSON of a part are those that it is itself and those in the parts right
below. -/
theorem json_objects (type : String) (part : Part .located) :
    (part.json type).objects.Perm ((part.own type).map Prod.fst ++
      part.fields.flatten.flatMap fun child => (child.json part.invocationType).objects) := by
  cases part with
  | identifier | path | importSymbol =>
    simp [json, own, fields, Identifier.toJson, NamePath.toJson, ImportSymbol.toJson]
  | expression value =>
    cases value
    case call given =>
      cases given <;>
        simp [json, own, fields, expressionFields, Expression.toJson, Arguments.toJson,
          List.flatMap_map]
    all_goals
      simp [json, own, fields, expressionFields, Expression.toJson, List.flatMap_map,
        flatMap_reduceOption]
  | typeName value =>
    cases value <;> simp [json, own, fields, typeFields, TypeName.toJson, List.flatMap_map]
  | namedArgument value | parameter value | declared value | block value =>
    cases value
    simp [json, own, fields, NamedArgument.toJson, Parameter.toJson, VariableDeclaration.toJson,
      Block.body, List.flatMap_map]
  | invocation value =>
    obtain ⟨place, name, arguments⟩ := value
    cases arguments <;> simp [json, own, fields, Invocation.toJson, List.flatMap_map]
  | statement value =>
    cases value <;>
      simp [json, own, fields, statementFields, parametersField, Statement.toJson,
        List.flatMap_map, flatMap_reduceOption]
  | clause value =>
    cases value
    simp [json, own, fields, parametersField, CatchClause.toJson, List.flatMap_map]
  | member value =>
    cases value
    case function declaration => exact function_objects declaration
    case usingDirective directive =>
      simp [json, own, fields, memberFields, ContractPart.toJson, using_objects, List.flatMap_map]
    all_goals
      simp [json, own, fields, invocationType, memberFields, attributeFields, parametersField,
        overridesField, baseField, ContractPart.toJson, StateVariable.toJson, Constructor.toJson,
        ReceiveFunction.toJson, FallbackFunction.toJson, ModifierDeclaration.toJson,
        EventDefinition.toJson, ErrorDefinition.toJson, StructDefinition.toJson,
        EnumDefinition.toJson, ValueTypeDefinition.toJson,
        List.flatMap_map, List.perm_append_left_iff, perm_last_first]
  | unit value =>
    cases value
    case function declaration => exact function_objects declaration
    case pragma directive =>
      simp [json, own, fields, unitFields, SourceUnit.toJson, pragma_objects, Function.comp_def]
    case usingDirective directive =>
      simp [json, own, fields, unitFields, SourceUnit.toJson, using_objects, List.flatMap_map]
    all_goals
      simp [json, own, fields, invocationType, unitFields, baseField, SourceUnit.toJson,
        CoderPragma.toJson, ExperimentalPragma.toJson, ImportDirective.toJson, Contract.toJson,
        EventDefinition.toJson, ErrorDefinition.toJson, StructDefinition.toJson,
        EnumDefinition.toJson, ValueTypeDefinition.toJson,
        FileConstant.toJson, List.flatMap_map]

end Part

/-! ### Shape of nodes -/

namespace Json

/-- The names of the members that every node has, and of marks. -/
def reserved : List String := ["type", "start", "end", "range", "loc"]

/-- A value is a node with a span, and its fields have names of their own. -/
def IsNode (value : Json) (span : Span) : Prop :=
  ∃ type fields, value = node type span fields ∧ ∀ field ∈ fields, field.1 ∉ reserved

/-- Fields with other names are passed over. -/
theorem member?_append {key : String} {fields others : List (String × Json)}
    (h : ∀ field ∈ fields, field.1 ≠ key) :
    member? key (fields ++ others) = member? key others := by
  have hnone : fields.find? (·.1 == key) = none := by simpa using h
  rw [member?, member?, List.find?_append, hnone, Option.none_or]

variable {value : Json} {span : Span}

/-- A node has the shape of one, and stands where its shape tells. -/
theorem IsNode.span?_eq (h : value.IsNode span) (hstart : span.start ≤ Span.limit)
    (hstop : span.stop ≤ Span.limit) : value.span? = some span := by
  obtain ⟨type, fields, rfl, hfields⟩ := h
  have hskip (key) (hkey : key ∈ reserved) (htype : "type" ≠ key) (others) :
      member? key (("type", string type) :: fields ++ others) = member? key others :=
    member?_append <| List.forall_mem_cons.mpr
      ⟨htype, fun field hfield heq => hfields field hfield (heq ▸ hkey)⟩
  have hfirst : offsetAt? "start" (("type", string type) :: fields ++
      [("start", ofNat span.start), ("end", ofNat span.stop)]) = some span.start := by
    rw [offsetAt?, hskip "start" (by decide) (by decide)]
    exact if_pos hstart
  have hlast : offsetAt? "end" (("type", string type) :: fields ++
      [("start", ofNat span.start), ("end", ofNat span.stop)]) = some span.stop := by
    rw [offsetAt?, hskip "end" (by decide) (by decide)]
    exact if_pos hstop
  show nodeSpan? (("type", string type) :: fields ++ _) = _
  rw [nodeSpan?, hfirst, hlast]
  rfl

/-- A node has no marks. -/
theorem IsNode.unmarked (h : value.IsNode span) : value.Unmarked := by
  obtain ⟨type, fields, rfl, hfields⟩ := h
  intro m hm
  rcases List.mem_append.mp hm with hm | hm
  · rcases List.mem_cons.mp hm with rfl | hm
    · simp
    · have := hfields m hm
      simp [reserved] at this
      tauto
  · rcases List.mem_pair.mp hm with rfl | rfl <;> simp

end Json

namespace Part

/-- What a part is itself are nodes. -/
theorem own_isNode {type : String} {part : Part .located} :
    ∀ o ∈ part.own type, o.1.IsNode o.2 := by
  cases part with
  | statement value =>
    cases value
    case block => simp [own]
    all_goals
      refine List.forall_mem_singleton.mpr ⟨_, _, rfl, ?_⟩
      simp [Json.reserved]
  | unit value =>
    cases value
    case pragma directive =>
      refine List.forall_mem_cons.mpr ⟨⟨_, _, rfl, by simp [Json.reserved]⟩, ?_⟩
      exact List.forall_mem_map.mpr fun version _ => ⟨_, _, rfl, by simp [Json.reserved]⟩
    all_goals
      refine List.forall_mem_singleton.mpr ⟨_, _, rfl, ?_⟩
      simp [Json.reserved]
  | expression value | typeName value | namedArgument value | parameter value | block value
  | clause value | member value =>
    cases value <;>
      refine List.forall_mem_singleton.mpr ⟨_, _, rfl, ?_⟩ <;>
      simp [Json.reserved]
  | _ =>
    refine List.forall_mem_singleton.mpr ⟨_, _, rfl, ?_⟩
    simp [Json.reserved]

/-- What a part is itself stands where the part does, but for the versions of a pragma. -/
theorem own_place {type : String} {part : Part .located} {o : Json × Span}
    (h : o ∈ part.own type) :
    o.2 = part.place ∨ ∃ value ∈ part.values, ∃ version ∈ value.versions, o.2 = version.span := by
  cases part with
  | statement value =>
    cases value
    case block => cases h
    all_goals exact .inl (List.mem_singleton.mp h ▸ rfl)
  | unit value =>
    cases value
    case pragma directive =>
      rcases List.mem_cons.mp h with rfl | h
      · exact .inl rfl
      · obtain ⟨version, hversion, rfl⟩ := List.mem_map.mp h
        exact .inr ⟨directive.value, List.mem_singleton_self _, version, hversion, rfl⟩
    all_goals exact .inl (List.mem_singleton.mp h ▸ rfl)
  | _ => exact .inl (List.mem_singleton.mp h ▸ rfl)

/-! ### All nodes of a tree -/

/-- The nodes found in a part as objects, each with the place of the node. -/
def rendered (type : String) (part : Part .located) : List (Json × Span) :=
  part.own type ++ part.fields.flatten.attach.flatMap fun child =>
    child.1.rendered part.invocationType
termination_by sizeOf part
decreasing_by
  obtain ⟨field, hfield, hchild⟩ := List.mem_flatten.mp child.2
  exact sizeOf_lt hfield hchild

/-- The objects of a node are its own, and those of the parts below it. -/
theorem rendered_eq (type : String) (part : Part .located) :
    part.rendered type =
      part.own type ++ part.fields.flatten.flatMap (rendered part.invocationType) := by
  conv_rhs => rw [← part.fields.flatten.attach_map_subtype_val, List.flatMap_map]
  rw [rendered]

/-- The objects in the JSON of a part are the nodes that are found in the part. -/
theorem objects_perm (type : String) (part : Part .located) :
    (part.json type).objects.Perm ((part.rendered type).map Prod.fst) := by
  induction part using Part.induction generalizing type with
  | step part ih =>
    rw [rendered_eq, List.map_append, List.map_flatMap]
    refine (part.json_objects type).trans (List.Perm.append_left _ ?_)
    refine List.Perm.flatMap_left _ fun child hchild => ?_
    obtain ⟨field, hfield, hchild⟩ := List.mem_flatten.mp hchild
    exact ih field hfield child hchild part.invocationType

/-- What is found in a part are nodes. -/
theorem rendered_isNode {type : String} {part : Part .located} :
    ∀ o ∈ part.rendered type, o.1.IsNode o.2 := by
  induction part using Part.induction generalizing type with
  | step part ih =>
    rw [rendered_eq]
    refine List.forall_mem_append.mpr ⟨own_isNode, fun o ho => ?_⟩
    obtain ⟨child, hchild, ho⟩ := List.mem_flatMap.mp ho
    obtain ⟨field, hfield, hchild⟩ := List.mem_flatten.mp hchild
    exact ih field hfield child hchild o ho

/-- The nodes that are found in a part that is laid out stand inside it. -/
theorem rendered_inside {tokens : TokenList} {tolerant : Bool} {type : String}
    {part : Part .located} (h : part.All (LaidOut tokens tolerant)) :
    ∀ o ∈ part.rendered type, o.2.Inside part.place := by
  induction part using Part.induction generalizing type with
  | step part ih =>
    rw [rendered_eq]
    refine List.forall_mem_append.mpr ⟨fun o ho => ?_, fun o ho => ?_⟩
    · rcases own_place ho with hplace | ⟨value, hvalue, version, hversion, hspan⟩
      · rw [hplace]
        exact ⟨Nat.le_refl _, Nat.le_of_lt h.here.nonempty, Nat.le_refl _⟩
      · rw [hspan]
        exact h.here.versions value hvalue version hversion
    · obtain ⟨child, hchild, ho⟩ := List.mem_flatMap.mp ho
      obtain ⟨field, hfield, hchild⟩ := List.mem_flatten.mp hchild
      exact (ih field hfield child hchild (h.below hfield hchild) o ho).trans
        (h.here.nested field hfield child hchild)

end Part

/-! ### Programs -/

namespace Program

variable (program : Program)

/-- The nodes of a program as objects, each with the place of the node. No unit is an invocation, so
no type of invocations has to be told. -/
def rendered : List (Json × Span) :=
  (program.toJson, program.span) :: program.body.flatMap fun unit => (Part.unit unit).rendered ""

/-- The objects in the JSON of a program are its nodes. -/
theorem objects_perm : program.toJson.objects.Perm (program.rendered.map Prod.fst) := by
  have hbody : (program.body.flatMap fun unit => unit.toJson.objects).Perm
      (program.body.flatMap fun unit => ((Part.unit unit).rendered "").map Prod.fst) :=
    List.Perm.flatMap_left _ fun unit _ => (Part.unit unit).objects_perm ""
  simpa [rendered, toJson, List.flatMap_map, List.map_flatMap] using hbody

/-- Each object of a program is that of a node of it. -/
theorem rendered_isNode : ∀ o ∈ program.rendered, o.1.IsNode o.2 := by
  refine List.forall_mem_cons.mpr ⟨⟨_, _, rfl, by simp [Json.reserved]⟩, fun o ho => ?_⟩
  obtain ⟨unit, -, ho⟩ := List.mem_flatMap.mp ho
  exact Part.rendered_isNode o ho

/-- The nodes of a program that is laid out stand inside it. -/
theorem rendered_inside {program : Program} {tokens : TokenList} {size : Nat} {tolerant : Bool}
    (h : program.LaidOut tokens size tolerant) :
    ∀ o ∈ program.rendered, o.2.Inside program.span := by
  refine List.forall_mem_cons.mpr ⟨?_, fun o ho => ?_⟩
  · rw [h.span]
    exact ⟨Nat.le_refl _, Nat.zero_le _, Nat.le_refl _⟩
  · obtain ⟨unit, hunit, ho⟩ := List.mem_flatMap.mp ho
    exact (Part.rendered_inside (h.nodes unit hunit) o ho).trans (h.nested unit hunit)

end Program

end SolidityParser
