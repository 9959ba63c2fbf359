import Mathlib.Data.List.Perm.Basic
import SolidityParser.Proofs.Tree.Part
import SolidityParser.Tree.Visit

/-!
# Walks and the parts of a tree

A walk comes to the parts right below a part one after the other and visits them, or what is below
them where they are no nodes themselves (`Part.visits_eq`). It comes to each of them
(`Part.inOrder_perm`): so the nodes that it meets are those that are found in the tree, each as
often as it is found there (`Part.visits_perm`, `Program.visit_perm`).
-/

namespace SolidityParser

/-! ### Visits in a row -/

namespace Visit

/-- The nodes of walks in a row are those of each. -/
theorem nodesOfList_eq (visits : List Visit) : nodesOfList visits = visits.flatMap nodes := by
  induction visits with
  | nil => rfl
  | cons visit visits ih => rw [nodesOfList, ih, List.flatMap_cons]

end Visit

/-- The visit of a parameter. -/
def Parameter.visit (parameter : Parameter Span) : Visit :=
  .mk (.parameter parameter) parameter.visits

/-- The visit of a block. -/
def Block.visit (block : Block .located) : Visit := .mk (.block block) block.visits

@[simp] theorem Expression.mk_visits (e : Expression Span) :
    Visit.mk (.expression e) e.visits = e.visit := rfl

@[simp] theorem TypeName.mk_visits (type : TypeName Span) :
    Visit.mk (.typeName type) type.visits = type.visit := rfl

@[simp] theorem Parameter.mk_visits (parameter : Parameter Span) :
    Visit.mk (.parameter parameter) parameter.visits = parameter.visit := rfl

@[simp] theorem Statement.mk_visits (statement : Statement .located) :
    Visit.mk (.statement statement) statement.visits = statement.visit := rfl

@[simp] theorem Block.mk_visits (block : Block .located) :
    Visit.mk (.block block) block.visits = block.visit := rfl

@[simp] theorem ContractPart.mk_visits (part : ContractPart .located) :
    Visit.mk (.contractPart part) part.visits = part.visit := rfl

@[simp] theorem Expression.visitsOfOption_eq (e : Option (Expression Span)) :
    Expression.visitsOfOption e = e.toList.map visit := by
  cases e <;> rfl

@[simp] theorem Expression.visitsOfSlots_eq :
    (slots : List (Option (Expression Span))) →
      Expression.visitsOfSlots slots = slots.reduceOption.map visit
  | [] => rfl
  | none :: slots => visitsOfSlots_eq slots
  | some e :: slots => congrArg (e.visit :: ·) (visitsOfSlots_eq slots)

@[simp] theorem Expression.visitsOfList_eq :
    (es : List (Expression Span)) → Expression.visitsOfList es = es.map visit
  | [] => rfl
  | e :: es => congrArg (e.visit :: ·) (visitsOfList_eq es)

/-- Arguments are visited one by one. -/
theorem NamedArgument.visitsOfList_eq :
    (arguments : List (NamedArgument Span)) →
      visitsOfList arguments = arguments.flatMap fun a => visitsOfList [a]
  | [] => rfl
  | .mk _ _ value :: arguments => congrArg (value.visit :: ·) (visitsOfList_eq arguments)

@[simp] theorem Parameter.visitsOfList_eq :
    (ps : List (Parameter Span)) → Parameter.visitsOfList ps = ps.map visit
  | [] => rfl
  | p :: ps => congrArg (p.visit :: ·) (visitsOfList_eq ps)

@[simp] theorem Statement.visitsOfOption_eq (statement : Option (Statement .located)) :
    Statement.visitsOfOption statement = statement.toList.map visit := by
  cases statement <;> rfl

@[simp] theorem Statement.visitsOfList_eq :
    (statements : List (Statement .located)) →
      Statement.visitsOfList statements = statements.map visit
  | [] => rfl
  | s :: statements => congrArg (s.visit :: ·) (visitsOfList_eq statements)

/-- So are clauses. -/
theorem CatchClause.visitsOfList_eq :
    (clauses : List (CatchClause .located)) →
      visitsOfList clauses = clauses.flatMap fun c => visitsOfList [c]
  | [] => rfl
  | .mk _ _ parameters body :: clauses => by
    rw [visitsOfList, visitsOfList_eq clauses, List.flatMap_cons, visitsOfList, visitsOfList,
      List.append_assoc]
    rfl

@[simp] theorem Block.visitsOfOption_eq (body : Option (Block .located)) :
    Block.visitsOfOption body = body.toList.map visit := by
  cases body <;> rfl

/-! ### The nodes of a tree -/

namespace Part

/-- The node that a part is. Names, named arguments, declared variables and clauses of `try` are
none. -/
def node? : Part .located → Option Node
  | expression value => some (.expression value)
  | typeName value => some (.typeName value)
  | parameter value => some (.parameter value)
  | statement value => some (.statement value)
  | block value => some (.block value)
  | invocation value => some (.modifierInvocation value)
  | member value => some (.contractPart value)
  | unit value => some (.sourceUnit value)
  | identifier _ | namedArgument _ | declared _ | clause _ | path _ | importSymbol _ => none

/-- The node that a part is below another. What a contract inherits is written as the invocation of
a modifier is, and what a value type is a new name of is written as the name of a type, but neither
is one. -/
def nodeBelow? : Part .located → Part .located → Option Node
  | unit (.contract _), invocation _ => none
  | unit (.valueType _), typeName _ | member (.valueType _), typeName _ => none
  | _, child => child.node?

/-- The nodes that are found below a part, each as often as it is found. -/
def nodes (part : Part .located) : List Node :=
  part.fields.flatten.attach.flatMap fun child =>
    (part.nodeBelow? child.1).toList ++ child.1.nodes
termination_by sizeOf part
decreasing_by
  obtain ⟨field, hfield, hchild⟩ := List.mem_flatten.mp child.2
  exact sizeOf_lt hfield hchild

/-- The nodes below a part are those right below it, and the nodes below the parts there. -/
theorem nodes_eq (part : Part .located) :
    part.nodes =
      part.fields.flatten.flatMap fun child => (part.nodeBelow? child).toList ++ child.nodes := by
  conv_rhs => rw [← part.fields.flatten.attach_map_subtype_val, List.flatMap_map]
  rw [nodes]

/-! ### The visits of a tree -/

/-- The visits that are made inside a part. -/
def visits : Part .located → List Visit
  | identifier _ | path _ | importSymbol _ => []
  | expression value => value.visits
  | namedArgument value => NamedArgument.visitsOfList [value]
  | typeName value => value.visits
  | parameter value => value.visits
  | declared value => [value.type.visit]
  | statement value => value.visits
  | block value => value.visits
  | clause value => CatchClause.visitsOfList [value]
  | invocation value => value.visits
  | member value => value.visits
  | unit (.importDirective _) => []
  | unit (.contract declaration) => declaration.visits
  | unit value => value.visits

/-- The visits that are made of a part below another: of the part if it is a node, and of what is
below it if not. -/
def visitsBelow (part child : Part .located) : List Visit :=
  match part.nodeBelow? child with
  | some node => [.mk node child.visits]
  | none => child.visits

/-- The nodes that are met in a part below another. -/
theorem visitsBelow_nodes (part child : Part .located) :
    Visit.nodesOfList (part.visitsBelow child) =
      (part.nodeBelow? child).toList ++ Visit.nodesOfList child.visits := by
  unfold visitsBelow
  cases part.nodeBelow? child <;> simp [Visit.nodesOfList, Visit.nodes]

/-- The parts of a function in the order in which a walk comes to them: after the parameters come
the modifiers. -/
def callableParts {F : Form} (parameters : List (Parameter F.Place))
    (modifiers : List (Invocation F.Place)) (returns : Option (List (Parameter F.Place)))
    (body : Option (Block F)) : List (Part F) :=
  parameters.map parameter ++ modifiers.map invocation ++ parametersField returns ++
    body.toList.map block

/-- The parts right below a part in the order in which a walk comes to them. To the lists of bases
that a function overrides it does not come. -/
def inOrder {F : Form} : Part F → List (Part F)
  | member (.receive declaration) =>
    callableParts [] declaration.attributes.modifiers none declaration.body
  | member (.fallback declaration) =>
    callableParts declaration.parameters declaration.attributes.modifiers declaration.returns
      declaration.body
  | member (.function declaration) | unit (.function declaration) =>
    callableParts declaration.parameters declaration.attributes.modifiers declaration.returns
      declaration.body
  | part => part.fields.flatten

/-- The parts of a function are those that a walk comes to and the bases that it overrides. -/
theorem callableParts_perm {F : Form} (parameters : List (Parameter F.Place))
    (returns : Option (List (Parameter F.Place))) (body : Option (Block F))
    (attributes : FunctionAttributes F.Place) :
    (callableParts parameters attributes.modifiers returns body ++
        overridesField attributes.overrides).Perm
      ([parameters.map parameter, parametersField returns, body.toList.map block] ++
        attributeFields attributes).flatten := by
  have hrest : (attributes.modifiers.map (invocation (F := F)) ++
      (parametersField returns ++ body.toList.map block)).Perm
      (parametersField returns ++ body.toList.map block ++ attributes.modifiers.map invocation) :=
    List.perm_append_comm
  simpa [callableParts, attributeFields] using
    (hrest.append_right (overridesField attributes.overrides)).append_left
      (parameters.map parameter)

/-- A walk comes to each part right below a part, but for the bases that a function overrides. -/
theorem inOrder_perm {F : Form} (part : Part F) :
    ∃ overrides : Option (List (NamePath F.Place)),
      (part.inOrder ++ overridesField overrides).Perm part.fields.flatten := by
  cases part with
  | member value =>
    cases value
    case receive declaration =>
      exact ⟨_, callableParts_perm [] none declaration.body declaration.attributes⟩
    case fallback declaration => exact ⟨_, callableParts_perm _ _ _ declaration.attributes⟩
    case function declaration => exact ⟨_, callableParts_perm _ _ _ declaration.attributes⟩
    all_goals exact ⟨none, .of_eq (List.append_nil _)⟩
  | unit value =>
    cases value
    case function declaration => exact ⟨_, callableParts_perm _ _ _ declaration.attributes⟩
    all_goals exact ⟨none, .of_eq (List.append_nil _)⟩
  | _ => exact ⟨none, .of_eq (List.append_nil _)⟩

/-- A walk comes to nothing but the parts right below a part. -/
theorem inOrder_subset {F : Form} {part child : Part F} (h : child ∈ part.inOrder) :
    child ∈ part.fields.flatten := by
  obtain ⟨overrides, hperm⟩ := part.inOrder_perm
  exact hperm.subset (List.mem_append_left _ h)

/-- A part is no other node below another than by itself, unless it may be written for another. -/
theorem nodeBelow?_eq {part child : Part .located} (htype : ∀ type, child ≠ typeName type)
    (hinvocation : ∀ invoked, child ≠ invocation invoked) :
    part.nodeBelow? child = child.node? := by
  unfold nodeBelow?
  split <;> simp_all

/-- A walk visits the parts right below a part in order. -/
theorem visits_eq (part : Part .located) : part.visits = part.inOrder.flatMap part.visitsBelow := by
  cases part with
  | identifier | path | importSymbol => rfl
  | expression value =>
    cases value
    case call given =>
      cases given <;>
        simp [visits, inOrder, fields, expressionFields, Expression.visits, Arguments.visits,
          visitsBelow, nodeBelow?_eq, node?, List.flatMap_map, ← List.map_eq_flatMap,
          ← NamedArgument.visitsOfList_eq]
    all_goals
      simp [visits, inOrder, fields, expressionFields, Expression.visits, visitsBelow, nodeBelow?,
        node?, List.flatMap_map, ← List.map_eq_flatMap, ← NamedArgument.visitsOfList_eq]
  | typeName value =>
    cases value <;>
      simp [visits, inOrder, fields, typeFields, TypeName.visits, visitsBelow, nodeBelow?, node?,
        List.flatMap_map, ← List.map_eq_flatMap]
  | namedArgument value | parameter value | declared value | block value | invocation value =>
    cases value
    simp [visits, inOrder, fields, NamedArgument.visitsOfList, Parameter.visits, Block.visits,
      Block.body, Invocation.visits, visitsBelow, nodeBelow?, node?, List.flatMap_map,
      ← List.map_eq_flatMap]
  | statement value =>
    cases value <;>
      simp [visits, inOrder, fields, statementFields, parametersField, Statement.visits,
        Parameter.visitsOfOption, visitsBelow, nodeBelow?, node?, List.reduceOption,
        List.flatMap_map, ← List.map_eq_flatMap, ← CatchClause.visitsOfList_eq]
  | clause value =>
    cases value
    simp [visits, inOrder, fields, parametersField, CatchClause.visitsOfList,
      Parameter.visitsOfOption, visitsBelow, nodeBelow?, node?, List.flatMap_map,
      ← List.map_eq_flatMap]
  | member value =>
    cases value <;>
      simp [visits, inOrder, fields, memberFields, callableParts, parametersField, overridesField,
        baseField, ContractPart.visits, callableVisits, FunctionDeclaration.visits,
        StructDefinition.visits, UsingDirective.visits, TypeName.visits, Parameter.visitsOfOption,
        visitsBelow, nodeBelow?, node?, List.flatMap_map, ← List.map_eq_flatMap]
  | unit value =>
    cases value <;>
      simp [visits, inOrder, fields, unitFields, callableParts, parametersField, baseField,
        SourceUnit.visits, Contract.visits, callableVisits, FunctionDeclaration.visits,
        StructDefinition.visits, UsingDirective.visits, TypeName.visits, Parameter.visitsOfOption,
        visitsBelow, nodeBelow?, node?, List.flatMap_map, ← List.map_eq_flatMap]

/-- The nodes that a walk meets below a part, told by the parts right below. -/
theorem visits_nodes (part : Part .located) :
    Visit.nodesOfList part.visits =
      part.inOrder.flatMap fun child =>
        (part.nodeBelow? child).toList ++ Visit.nodesOfList child.visits := by
  rw [Visit.nodesOfList_eq, visits_eq, List.flatMap_assoc]
  simp only [← Visit.nodesOfList_eq, visitsBelow_nodes]

/-- Below a part, a walk meets the nodes that are found there. -/
theorem visits_perm (part : Part .located) : (Visit.nodesOfList part.visits).Perm part.nodes := by
  induction part using Part.induction with
  | step part ih =>
    obtain ⟨overrides, hperm⟩ := part.inOrder_perm
    -- nothing is met in the bases that a function overrides
    have hnone : ((overridesField overrides).flatMap fun child =>
        (part.nodeBelow? child).toList ++ Visit.nodesOfList child.visits) = [] := by
      simp [overridesField, nodeBelow?_eq, node?, visits, Visit.nodesOfList]
    have hall := hperm.flatMap_right fun child =>
      (part.nodeBelow? child).toList ++ Visit.nodesOfList child.visits
    rw [List.flatMap_append, hnone, List.append_nil, ← visits_nodes] at hall
    rw [nodes_eq]
    refine hall.trans (List.Perm.flatMap_left _ fun child hchild => ?_)
    obtain ⟨field, hfield, hchild⟩ := List.mem_flatten.mp hchild
    exact (ih field hfield child hchild).append_left _

end Part

/-! ### Units and programs -/

/-- The nodes that are one with a unit of a source: the unit, and the import or the contract that
it is. -/
def SourceUnit.own (unit : SourceUnit .located) : List Node :=
  .sourceUnit unit :: match unit with
    | .importDirective directive => [.importDirective directive]
    | .contract declaration => [.contract declaration]
    | _ => []

/-- The nodes that are found in a program, each as often as it is found. -/
def Program.nodes (program : Program) : List Node :=
  .program program :: program.body.flatMap fun unit => unit.own ++ (Part.unit unit).nodes

/-- The nodes that are met in a unit. -/
theorem SourceUnit.visit_nodes (unit : SourceUnit .located) :
    unit.visit.nodes = unit.own ++ Visit.nodesOfList (Part.unit unit).visits := by
  cases unit <;> simp [visit, own, visits, Part.visits, Visit.nodes, Visit.nodesOfList]

/-- The nodes that are met in a program are met unit by unit. -/
theorem Program.visit_nodes (program : Program) :
    program.visit.nodes =
      .program program :: program.body.flatMap fun unit => unit.visit.nodes := by
  simp only [visit, Visit.nodes, Visit.nodesOfList_eq, List.flatMap_map]

/-- A walk meets the nodes of a program, each as often as it is found. -/
theorem Program.visit_perm (program : Program) : program.visit.nodes.Perm program.nodes := by
  rw [visit_nodes, nodes]
  refine (List.Perm.flatMap_left _ fun unit _ => ?_).cons _
  rw [SourceUnit.visit_nodes]
  exact (Part.visits_perm _).append_left _

end SolidityParser
