import Mathlib.Data.List.ReduceOption
import SolidityParser.Tree.Declaration

/-!
# Parts of a tree

The nodes of a tree are of many types. A `Part` is a node of any of them, so that what holds of
every node can be said once: `Part.fields` gives the nodes right below a part, a list for each
field, and `Part.Within` says that a part is found somewhere below another.

The whole of a source is no part: its place is given apart from its units. Neither are the versions
in the value of a pragma, which are read off the source text and not off its tokens.
-/

namespace SolidityParser

variable {F G H : Form}

/-- A node of a tree. -/
inductive Part (F : Form)
  | identifier (value : Identifier F.Place)
  | expression (value : Expression F.Place)
  | namedArgument (value : NamedArgument F.Place)
  | typeName (value : TypeName F.Place)
  | parameter (value : Parameter F.Place)
  | declared (value : VariableDeclaration F.Place)
  | statement (value : Statement F)
  | block (value : Block F)
  | clause (value : CatchClause F)
  | path (value : NamePath F.Place)
  | invocation (value : Invocation F.Place)
  | importSymbol (value : ImportSymbol F.Place)
  | member (value : ContractPart F)
  | unit (value : SourceUnit F)

namespace Part

/-- Where a part stands. -/
def place : Part F → F.Place
  | identifier value => value.place
  | expression value => value.place
  | namedArgument value => value.place
  | typeName value => value.place
  | parameter value => value.place
  | declared value => value.place
  | statement value => value.place
  | block value => value.place
  | clause value => value.place
  | path value => value.place
  | invocation value => value.place
  | importSymbol value => value.place
  | member value => value.place
  | unit value => value.place

/-! ### Fields -/

/-- The fields of an expression. -/
def expressionFields : Expression F.Place → List (List (Part F))
  | .identifier .. | .number .. | .string .. | .boolean .. => []
  | .member _ object property => [[expression object], [identifier property]]
  | .index _ object subscript => [[expression object], subscript.toList.map expression]
  | .slice _ object first last =>
    [[expression object], first.toList.map expression, last.toList.map expression]
  | .call _ callee (.positional values) => [[expression callee], values.map expression]
  | .call _ callee (.named values) => [[expression callee], values.map namedArgument]
  | .callOptions _ callee options => [[expression callee], options.map namedArgument]
  | .unary _ _ _ argument => [[expression argument]]
  | .binary _ _ left right | .assignment _ _ left right => [[expression left], [expression right]]
  | .conditional _ test consequent alternate =>
    [[expression test], [expression consequent], [expression alternate]]
  | .tuple _ components _ => [components.reduceOption.map expression]
  | .new _ type => [[typeName type]]

/-- The fields of a type name. -/
def typeFields : TypeName F.Place → List (List (Part F))
  | .elementary .. | .userDefined .. => []
  | .mapping _ key _ value _ => [[typeName key], [typeName value]]
  | .array _ base length => [[typeName base], length.toList.map expression]
  | .function _ parameters returns _ _ => [parameters.map parameter, returns.map parameter]

/-- The field of parameters that may be missing. -/
def parametersField (parameters : Option (List (Parameter F.Place))) : List (Part F) :=
  (parameters.getD []).map parameter

/-- The fields of a statement. -/
def statementFields : Statement F → List (List (Part F))
  | .block body => [[block body]]
  | .expression _ value => [[expression value]]
  | .declaration _ slots initial =>
    [slots.reduceOption.map declared, initial.toList.map expression]
  | .ifElse _ test consequent alternate =>
    [[expression test], [statement consequent], alternate.toList.map statement]
  | .forLoop _ initial test update body =>
    [initial.toList.map statement, test.toList.map expression, update.toList.map expression,
      [statement body]]
  | .whileLoop _ test body => [[expression test], [statement body]]
  | .doWhile _ body test => [[statement body], [expression test]]
  | .tryCatch _ call returns body clauses =>
    [[expression call], parametersField returns, [block body], clauses.map clause]
  | .returned _ argument => [argument.toList.map expression]
  | .emit _ value | .revert _ value => [[expression value]]
  | .unchecked _ body => [[block body]]
  | .breakLoop _ | .continueLoop _ | .throwError _ | .assembly .. | .placeholder _
  | .incomplete _ => []

/-- The field of the built-in type that a value type is a new name of. -/
def baseField (definition : ValueTypeDefinition F.Place) : List (Part F) :=
  [typeName (.elementary definition.basePlace definition.baseName definition.payable)]

/-- The field of an override list that may be missing. -/
def overridesField (overrides : Option (List (NamePath F.Place))) : List (Part F) :=
  (overrides.getD []).map path

/-- The fields that the attributes of a function make. -/
def attributeFields (attributes : FunctionAttributes F.Place) : List (List (Part F)) :=
  [attributes.modifiers.map invocation, overridesField attributes.overrides]

/-- The fields of a function with a name. -/
def functionFields (function : FunctionDeclaration F) : List (List (Part F)) :=
  [function.parameters.map parameter, parametersField function.returns,
    function.body.toList.map block] ++ attributeFields function.attributes

/-- The fields of a member of a contract. -/
def memberFields : ContractPart F → List (List (Part F))
  | .stateVariable declaration =>
    [[typeName declaration.type], overridesField declaration.overrides,
      declaration.value.toList.map expression]
  | .constructor declaration =>
    [declaration.parameters.map parameter, declaration.modifiers.map invocation,
      [block declaration.body]]
  | .receive declaration =>
    declaration.body.toList.map block :: attributeFields declaration.attributes
  | .fallback declaration =>
    [declaration.parameters.map parameter, parametersField declaration.returns,
      declaration.body.toList.map block] ++ attributeFields declaration.attributes
  | .function declaration => functionFields declaration
  | .modifier declaration =>
    [parametersField declaration.parameters, overridesField declaration.overrides,
      declaration.body.toList.map block]
  | .event definition => [definition.parameters.map parameter]
  | .error definition => [definition.parameters.map parameter]
  | .struct definition => [definition.members.map declared]
  | .enumeration definition => [definition.members.map identifier]
  | .usingDirective directive => [directive.target.toList.map typeName]
  | .valueType definition => [baseField definition]

/-- The fields of a unit of a source. -/
def unitFields : SourceUnit F → List (List (Part F))
  | .pragma _ | .experimentalPragma _ => []
  | .coderPragma directive => [[identifier directive.version]]
  | .importDirective directive => [(directive.symbols.getD []).map importSymbol]
  | .contract declaration => [declaration.bases.map invocation, declaration.body.map member]
  | .function declaration => functionFields declaration
  | .struct definition => [definition.members.map declared]
  | .enumeration definition => [definition.members.map identifier]
  | .error definition => [definition.parameters.map parameter]
  | .event definition => [definition.parameters.map parameter]
  | .usingDirective directive => [directive.target.toList.map typeName]
  | .valueType definition => [baseField definition]
  | .constant declaration => [[typeName declaration.type], [expression declaration.value]]

/-- The parts right below a part, a list for each field; nodes that are left out are not counted. -/
def fields : Part F → List (List (Part F))
  | identifier _ | path _ | importSymbol _ => []
  | expression value => expressionFields value
  | namedArgument (.mk _ _ value) => [[expression value]]
  | typeName value => typeFields value
  | parameter (.mk _ type _ _ _) => [[typeName type]]
  | declared value => [[typeName value.type]]
  | statement value => statementFields value
  | block value => [value.body.map statement]
  | clause (.mk _ _ parameters body) => [parametersField parameters, [block body]]
  | invocation value => [(value.arguments.getD []).map expression]
  | member value => memberFields value
  | unit value => unitFields value

/-! ### Induction over parts -/

/-- The elements of a list that may be missing. -/
theorem mem_getD_nil {α : Type} {v : α} {o : Option (List α)} :
    v ∈ o.getD [] ↔ ∃ l, o = some l ∧ v ∈ l := by
  cases o <;> simp

/-- The parts right below a part are smaller. -/
theorem sizeOf_lt {top child : Part F} {field : List (Part F)} (hfield : field ∈ top.fields)
    (hchild : child ∈ field) : sizeOf child < sizeOf top := by
  have h : child ∈ top.fields.flatten := List.mem_flatten.mpr ⟨field, hfield, hchild⟩
  cases top with
  | identifier | path | importSymbol => simp [fields] at h
  | expression value =>
    cases value
    case call given => cases given <;> simp [fields, expressionFields] at h <;>
      grind [→ List.sizeOf_lt_of_mem]
    all_goals simp [fields, expressionFields, List.reduceOption_mem_iff] at h
    all_goals grind [→ List.sizeOf_lt_of_mem]
  | namedArgument value | parameter value | declared value =>
    cases value
    simp [fields] at h
    grind
  | typeName value =>
    cases value <;> simp [fields, typeFields] at h <;> grind [→ List.sizeOf_lt_of_mem]
  | statement value =>
    cases value <;> simp [fields, statementFields, parametersField, mem_getD_nil,
      List.reduceOption_mem_iff] at h <;>
      grind [→ List.sizeOf_lt_of_mem]
  | block value | clause value | invocation value =>
    cases value
    simp [fields, Block.body, parametersField, mem_getD_nil] at h
    grind [→ List.sizeOf_lt_of_mem]
  | member value =>
    cases value <;> rename_i declaration <;> cases declaration <;>
      simp [fields, memberFields, functionFields, attributeFields, parametersField,
        overridesField, baseField, mem_getD_nil] at h <;>
      grind [→ List.sizeOf_lt_of_mem, cases FunctionAttributes]
  | unit value =>
    cases value <;> rename_i declaration <;> cases declaration <;>
      simp [fields, unitFields, functionFields, attributeFields, parametersField, overridesField,
        baseField, mem_getD_nil] at h <;>
      grind [→ List.sizeOf_lt_of_mem, cases FunctionAttributes]

/-- What holds of a part whenever it holds of the parts right below, holds of every part. -/
@[elab_as_elim]
theorem induction {P : Part F → Prop}
    (step : ∀ part, (∀ field ∈ part.fields, ∀ child ∈ field, P child) → P part) (part : Part F) :
    P part :=
  step part fun _ hfield child hchild =>
    have := sizeOf_lt hfield hchild
    induction step child
termination_by sizeOf part

/-! ### Lists of parts -/

/-- What holds of the elements of a list that may be missing. -/
theorem forall_mem_getD_nil {α : Type} {o : Option (List α)} {P : α → Prop} :
    (∀ v ∈ o.getD [], P v) ↔ ∀ l, o = some l → ∀ v ∈ l, P v := by
  cases o <;> simp

/-- What holds of a value that may be missing holds wherever it is there. -/
theorem forall_mem_toList {α : Type} {o : Option α} {P : α → Prop} :
    (∀ v ∈ o.toList, P v) ↔ ∀ v, o = some v → P v := by
  cases o <;> simp

/-- So it is with each value of a list. -/
theorem forall_mem_reduceOption {α : Type} {l : List (Option α)} {P : α → Prop} :
    (∀ v ∈ l.reduceOption, P v) ↔ ∀ o ∈ l, ∀ v, o = some v → P v := by
  simp only [List.reduceOption_mem_iff]
  grind

/-! ### Parts within parts -/

/-- A part is found in a tree: it is the tree, or found in one right below its root. -/
inductive Within : Part F → Part F → Prop
  | self (part : Part F) : Within part part
  | step {top child part : Part F} {field : List (Part F)} (hfield : field ∈ top.fields)
      (hchild : child ∈ field) (rest : Within child part) : Within top part

/-- Every part of a tree has a property. -/
def All (P : Part F → Prop) (top : Part F) : Prop := ∀ part, Within top part → P part

variable {P Q : Part F → Prop} {top child part : Part F} {field : List (Part F)}

/-- A part of a part is a part. -/
theorem Within.trans {root : Part F} (h : Within root top) (h' : Within top part) :
    Within root part := by
  induction h with
  | self => exact h'
  | step hfield hchild _ ih => exact .step hfield hchild (ih h')

/-- A property of all parts is one of the root, and of all parts of the trees right below. -/
theorem all_iff : All P top ↔ P top ∧ ∀ field ∈ top.fields, ∀ child ∈ field, All P child := by
  constructor
  · intro h
    exact ⟨h top (.self top),
      fun field hfield child hchild part hpart => h part (.step hfield hchild hpart)⟩
  · rintro ⟨htop, hbelow⟩ part hpart
    cases hpart with
    | self => exact htop
    | step hfield hchild rest => exact hbelow _ hfield _ hchild part rest

namespace All

/-- In particular it holds of the whole. -/
theorem here (h : All P top) : P top := h top (.self top)

/-- It holds of each part right below. -/
theorem below (h : All P top) (hfield : field ∈ top.fields) (hchild : child ∈ field) :
    All P child :=
  (all_iff.mp h).2 field hfield child hchild

/-- What follows from it holds throughout as well. -/
theorem mono (h : All P top) (hPQ : ∀ part, P part → Q part) : All Q top :=
  fun part hpart => hPQ part (h part hpart)

/-- The parts of a part of the tree are parts of the tree. -/
theorem within (h : All P top) (hpart : Within top part) : All P part :=
  fun part' hpart' => h part' (hpart.trans hpart')

end All

end Part

end SolidityParser
