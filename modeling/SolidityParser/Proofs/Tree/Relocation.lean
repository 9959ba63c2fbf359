import SolidityParser.Proofs.Tree.Part

/-!
# Moving trees from form to form

Two changes of form in a row are one change (`Part.relocate_relocate`), and the parts of a
tree in another form are its parts in that form (`Part.all_relocate`).
-/

namespace SolidityParser

variable {σ τ υ : Type} {F G H : Form}

/-- One change of form after another. -/
def Relocation.comp (r : Relocation F G) (q : Relocation G H) : Relocation F H where
  place := q.place ∘ r.place
  value := q.value ∘ r.value
  body := q.body ∘ r.body

/-! ### Lists of nodes -/

@[simp] theorem Expression.relocateOption_eq (f : σ → τ) (e : Option (Expression σ)) :
    Expression.relocateOption f e = e.map (·.relocate f) := by
  cases e <;> rfl

@[simp] theorem Expression.relocateSlots_eq (f : σ → τ) :
    (es : List (Option (Expression σ))) →
      Expression.relocateSlots f es = es.map (Option.map (·.relocate f))
  | [] => rfl
  | e :: es => by
    simp [Expression.relocateSlots, relocateSlots_eq f es]

@[simp] theorem Expression.relocateList_eq (f : σ → τ) :
    (es : List (Expression σ)) → Expression.relocateList f es = es.map (·.relocate f)
  | [] => rfl
  | e :: es => by simp [Expression.relocateList, relocateList_eq f es]

@[simp] theorem NamedArgument.relocateList_eq (f : σ → τ) :
    (as : List (NamedArgument σ)) → NamedArgument.relocateList f as = as.map (·.relocate f)
  | [] => rfl
  | a :: as => by simp [NamedArgument.relocateList, relocateList_eq f as]

@[simp] theorem Parameter.relocateList_eq (f : σ → τ) :
    (ps : List (Parameter σ)) → Parameter.relocateList f ps = ps.map (·.relocate f)
  | [] => rfl
  | p :: ps => by simp [Parameter.relocateList, relocateList_eq f ps]

@[simp] theorem Statement.relocateOption_eq (r : Relocation F G) (s : Option (Statement F)) :
    Statement.relocateOption r s = s.map (·.relocate r) := by
  cases s <;> rfl

@[simp] theorem Statement.relocateList_eq (r : Relocation F G) :
    (ss : List (Statement F)) → Statement.relocateList r ss = ss.map (·.relocate r)
  | [] => rfl
  | s :: ss => by simp [Statement.relocateList, relocateList_eq r ss]

@[simp] theorem CatchClause.relocateList_eq (r : Relocation F G) :
    (cs : List (CatchClause F)) → CatchClause.relocateList r cs = cs.map (·.relocate r)
  | [] => rfl
  | c :: cs => by simp [CatchClause.relocateList, relocateList_eq r cs]

namespace Part

/-- The part in another form. -/
def relocate (r : Relocation F G) : Part F → Part G
  | identifier value => identifier (value.relocate r.place)
  | expression value => expression (value.relocate r.place)
  | namedArgument value => namedArgument (value.relocate r.place)
  | typeName value => typeName (value.relocate r.place)
  | parameter value => parameter (value.relocate r.place)
  | declared value => declared (value.relocate r.place)
  | statement value => statement (value.relocate r)
  | block value => block (value.relocate r)
  | clause value => clause (value.relocate r)
  | path value => path (value.relocate r.place)
  | invocation value => invocation (value.relocate r.place)
  | importSymbol value => importSymbol (value.relocate r.place)
  | member value => member (value.relocate r)
  | unit value => unit (value.relocate r)

/-- The bodies of assembly blocks that a part holds itself. -/
def bodies : Part F → List F.Body
  | statement (.assembly _ _ _ body) => [body]
  | _ => []

/-- The values of pragmas that a part holds itself. -/
def values : Part F → List F.Value
  | unit (.pragma directive) => [directive.value]
  | _ => []

end Part

/-- Two changes of form do the same to what a part holds itself. -/
structure Relocation.SameAt (r q : Relocation F G) (part : Part F) : Prop where
  /-- Its place. -/
  place : r.place part.place = q.place part.place
  /-- The body of an assembly block. -/
  body : ∀ body ∈ part.bodies, r.body body = q.body body
  /-- The value of a pragma. -/
  value : ∀ value ∈ part.values, r.value value = q.value value

namespace Part

/-- Two functions do the same to what may be missing if they do the same to it where it is not. -/
theorem map_eq_map_iff {α β : Type} {f g : α → β} {o : Option α} :
    o.map f = o.map g ↔ ∀ v, o = some v → f v = g v := by
  cases o <;> simp

/-! ### Two changes in a row

The parts right below a part are moved alike, by induction; it remains to see that the part is
nothing but these, its place and what it holds itself.
-/

section Twice

variable {r : Relocation F G} {q : Relocation G H} {t : Relocation F H}

/-- The parts of every field come to the same by either way. -/
def Alike (r : Relocation F G) (q : Relocation G H) (t : Relocation F H)
    (fields : List (List (Part F))) : Prop :=
  ∀ field ∈ fields, ∀ child ∈ field, (child.relocate r).relocate q = child.relocate t

/-- Two changes in a row change an expression as one change does, if they do so below it and at its
place. -/
private theorem expression_alike {value : Expression F.Place}
    (h : Alike r q t (expressionFields value))
    (hplace : q.place (r.place value.place) = t.place value.place) :
    (value.relocate r.place).relocate q.place = value.relocate t.place := by
  cases value
  case call given =>
    cases given <;> simp_all [Alike, expressionFields, relocate, Expression.relocate,
      Arguments.relocate, Expression.place]
  case identifier | number | string | boolean => simp_all [Expression.relocate, Expression.place]
  all_goals
    simp only [Alike, expressionFields, List.forall_mem_cons, List.forall_mem_map,
      List.not_mem_nil, forall_mem_toList, forall_mem_reduceOption, false_imp_iff, implies_true,
      and_true, relocate, expression.injEq, typeName.injEq, namedArgument.injEq,
      Identifier.relocate, identifier.injEq, Identifier.mk.injEq] at h
    simp only [Expression.place] at hplace
    simpa [Expression.relocate, Identifier.relocate, map_eq_map_iff, hplace] using h

/-- So it is with a type. -/
private theorem typeName_alike {value : TypeName F.Place} (h : Alike r q t (typeFields value))
    (hplace : q.place (r.place value.place) = t.place value.place) :
    (value.relocate r.place).relocate q.place = value.relocate t.place := by
  cases value <;>
    simp_all [Alike, typeFields, relocate, TypeName.relocate, TypeName.place, map_eq_map_iff]

/-- And with a statement, whose passages are changed too. -/
private theorem statement_alike {value : Statement F} (h : Alike r q t (statementFields value))
    (hplace : q.place (r.place value.place) = t.place value.place)
    (hbody : ∀ body ∈ (statement value).bodies, q.body (r.body body) = t.body body) :
    (value.relocate r).relocate q = value.relocate t := by
  cases value
  case breakLoop | continueLoop | «throwError» | assembly | placeholder | incomplete =>
    simp_all [Statement.relocate, Statement.place, bodies]
  all_goals
    simp only [Alike, statementFields, parametersField, List.forall_mem_cons, List.forall_mem_map,
      List.not_mem_nil, forall_mem_toList, forall_mem_reduceOption, forall_mem_getD_nil,
      false_imp_iff, implies_true, and_true, relocate, expression.injEq, declared.injEq,
      statement.injEq, parameter.injEq, clause.injEq, block.injEq] at h
    simp only [Statement.place] at hplace
    simpa [Statement.relocate, map_eq_map_iff, hplace] using h

/-- A function is its fields, one by one. -/
private theorem function_alike {value : FunctionDeclaration F}
    (h : Alike r q t (functionFields value))
    (hplace : q.place (r.place value.place) = t.place value.place) :
    (value.relocate r).relocate q = value.relocate t := by
  simp only [Alike, functionFields, attributeFields, overridesField, parametersField,
    List.cons_append, List.nil_append, List.forall_mem_cons, List.forall_mem_map,
    List.not_mem_nil, forall_mem_toList, forall_mem_getD_nil, false_imp_iff, implies_true,
    and_true, relocate, parameter.injEq, block.injEq, invocation.injEq, path.injEq] at h
  simp_all [FunctionDeclaration.relocate, FunctionAttributes.relocate, map_eq_map_iff]

/-- A member of a contract is one of several nodes, each of which is its fields. -/
private theorem member_alike {value : ContractPart F} (h : Alike r q t (memberFields value))
    (hplace : q.place (r.place value.place) = t.place value.place) :
    (value.relocate r).relocate q = value.relocate t := by
  cases value
  case function => exact congrArg ContractPart.function (function_alike h hplace)
  all_goals
    simp only [Alike, memberFields, attributeFields, overridesField, baseField, parametersField,
      List.cons_append, List.nil_append, List.forall_mem_cons, List.forall_mem_map,
      List.not_mem_nil, forall_mem_toList, forall_mem_getD_nil, false_imp_iff, implies_true,
      and_true, relocate, TypeName.relocate, expression.injEq, typeName.injEq, declared.injEq,
      parameter.injEq, block.injEq, invocation.injEq, path.injEq, identifier.injEq,
      TypeName.elementary.injEq] at h
    simp only [ContractPart.place] at hplace
    simp_all [ContractPart.relocate, StateVariable.relocate, Constructor.relocate,
      ReceiveFunction.relocate, FallbackFunction.relocate, FunctionAttributes.relocate,
      ModifierDeclaration.relocate, EventDefinition.relocate, ErrorDefinition.relocate,
      StructDefinition.relocate, EnumDefinition.relocate, UsingDirective.relocate,
      ValueTypeDefinition.relocate, map_eq_map_iff]

/-- So is a unit, which may hold values besides. -/
private theorem unit_alike {value : SourceUnit F} (h : Alike r q t (unitFields value))
    (hplace : q.place (r.place value.place) = t.place value.place)
    (hvalue : ∀ v ∈ (unit value).values, q.value (r.value v) = t.value v) :
    (value.relocate r).relocate q = value.relocate t := by
  cases value
  case function => exact congrArg SourceUnit.function (function_alike h hplace)
  all_goals
    simp only [Alike, unitFields, baseField, List.forall_mem_cons, List.forall_mem_map,
      List.not_mem_nil, forall_mem_toList, forall_mem_getD_nil, false_imp_iff, implies_true,
      and_true, relocate, TypeName.relocate, expression.injEq, typeName.injEq, declared.injEq,
      parameter.injEq, invocation.injEq, identifier.injEq, member.injEq, importSymbol.injEq,
      TypeName.elementary.injEq] at h
    simp only [SourceUnit.place, values, List.forall_mem_singleton] at hplace hvalue
    simp_all [SourceUnit.relocate, Pragma.relocate, CoderPragma.relocate,
      ExperimentalPragma.relocate, ImportDirective.relocate, Contract.relocate,
      StructDefinition.relocate, EnumDefinition.relocate, ErrorDefinition.relocate,
      EventDefinition.relocate, UsingDirective.relocate, ValueTypeDefinition.relocate,
      FileConstant.relocate, map_eq_map_iff]

/-- Two changes of form in a row come to a third if they do for what each part holds itself. -/
theorem relocate_relocate_of_sameAt {part : Part F} (h : All ((r.comp q).SameAt t) part) :
    (part.relocate r).relocate q = part.relocate t := by
  induction part using Part.induction with
  | step part ih =>
    replace ih : Alike r q t part.fields :=
      fun field hfield child hchild => ih field hfield child hchild (h.below hfield hchild)
    obtain ⟨hplace, hbody, hvalue⟩ := h.here
    simp only [Relocation.comp, Function.comp] at hplace hbody hvalue
    clear h
    cases part with
    | identifier value | path value | importSymbol value =>
      simp_all [relocate, place, Identifier.relocate, NamePath.relocate, ImportSymbol.relocate]
    | expression value => exact congrArg expression (expression_alike ih hplace)
    | typeName value => exact congrArg typeName (typeName_alike ih hplace)
    | statement value => exact congrArg statement (statement_alike ih hplace hbody)
    | member value => exact congrArg member (member_alike ih hplace)
    | unit value => exact congrArg unit (unit_alike ih hplace hvalue)
    | namedArgument value | parameter value | declared value | block value =>
      cases value
      simp_all [Alike, fields, relocate, place, NamedArgument.relocate, NamedArgument.place,
        Parameter.relocate, Parameter.place, VariableDeclaration.relocate, Block.relocate,
        Block.place, Block.body]
    | clause value | invocation value =>
      cases value
      simp only [Alike, fields, parametersField, List.forall_mem_cons, List.forall_mem_map,
        List.not_mem_nil, forall_mem_getD_nil, false_imp_iff, implies_true, and_true, relocate,
        expression.injEq, parameter.injEq, block.injEq] at ih
      simp_all [relocate, place, CatchClause.relocate, CatchClause.place, Invocation.relocate,
        map_eq_map_iff]

end Twice

/-- Two changes of form are one change, throughout a tree. -/
theorem relocate_relocate (r : Relocation F G) (q : Relocation G H) (part : Part F) :
    (part.relocate r).relocate q = part.relocate (r.comp q) :=
  relocate_relocate_of_sameAt fun _ _ => ⟨rfl, fun _ _ => rfl, fun _ _ => rfl⟩

/-! ### The parts of a tree in another form -/

section Fields

variable (r : Relocation F G)

/-- What is changed in a list that may be missing is changed in the list that stands for it. -/
private theorem getD_map {α β : Type} (f : α → β) (o : Option (List α)) :
    (o.map (List.map f)).getD [] = (o.getD []).map f := by
  cases o <;> rfl

/-- The parameters of a node are those of the node in another form. -/
theorem parametersField_relocate (parameters : Option (List (Parameter F.Place))) :
    parametersField (parameters.map (Parameter.relocateList r.place)) =
      (parametersField parameters).map (relocate r) := by
  cases parameters <;> simp [parametersField, relocate]

/-- So are the paths after `override`. -/
private theorem overridesField_relocate (overrides : Option (List (NamePath F.Place))) :
    overridesField (overrides.map (List.map (·.relocate r.place))) =
      (overridesField overrides).map (relocate r) := by
  cases overrides <;> simp [overridesField, relocate]

/-- So are the parts of attributes. -/
private theorem attributeFields_relocate (attributes : FunctionAttributes F.Place) :
    attributeFields (attributes.relocate r.place) =
      (attributeFields attributes).map (List.map (relocate r)) := by
  simp [attributeFields, FunctionAttributes.relocate, overridesField_relocate, relocate]

/-- So are those of a function, field by field. -/
private theorem functionFields_relocate (function : FunctionDeclaration F) :
    functionFields (function.relocate r) =
      (functionFields function).map (List.map (relocate r)) := by
  simp [functionFields, FunctionDeclaration.relocate, parametersField_relocate,
    attributeFields_relocate, relocate, Option.toList_map]

/-- So are those of a member. -/
private theorem memberFields_relocate (value : ContractPart F) :
    memberFields (value.relocate r) = (memberFields value).map (List.map (relocate r)) := by
  cases value
  case function => exact functionFields_relocate r _
  all_goals
    simp [memberFields, ContractPart.relocate, StateVariable.relocate, Constructor.relocate,
      ReceiveFunction.relocate, FallbackFunction.relocate, ModifierDeclaration.relocate,
      EventDefinition.relocate, ErrorDefinition.relocate, StructDefinition.relocate,
      EnumDefinition.relocate, UsingDirective.relocate, ValueTypeDefinition.relocate,
      TypeName.relocate, baseField, parametersField_relocate, overridesField_relocate,
      attributeFields_relocate, relocate, Option.toList_map]

/-- So are those of a unit. -/
private theorem unitFields_relocate (value : SourceUnit F) :
    unitFields (value.relocate r) = (unitFields value).map (List.map (relocate r)) := by
  cases value
  case function => exact functionFields_relocate r _
  all_goals
    simp [unitFields, SourceUnit.relocate, CoderPragma.relocate, ImportDirective.relocate,
      Contract.relocate, StructDefinition.relocate, EnumDefinition.relocate,
      ErrorDefinition.relocate, EventDefinition.relocate, UsingDirective.relocate,
      ValueTypeDefinition.relocate, FileConstant.relocate, TypeName.relocate, baseField, getD_map,
      relocate, Option.toList_map]

/-- The fields of a part in another form are its fields in that form. -/
theorem fields_relocate (part : Part F) :
    (part.relocate r).fields = part.fields.map (List.map (relocate r)) := by
  cases part with
  | identifier | path | importSymbol => rfl
  | expression value =>
    cases value
    case call given =>
      cases given <;> simp [relocate, fields, expressionFields, Expression.relocate,
        Arguments.relocate]
    all_goals
      simp [relocate, fields, expressionFields, Expression.relocate, List.reduceOption_map,
        Option.toList_map]
  | namedArgument value | parameter value | declared value | block value =>
    cases value
    simp [relocate, fields, NamedArgument.relocate, Parameter.relocate,
      VariableDeclaration.relocate, Block.relocate, Block.body]
  | typeName value =>
    cases value <;> simp [relocate, fields, typeFields, TypeName.relocate, Option.toList_map]
  | statement value =>
    cases value <;> simp [relocate, fields, statementFields, Statement.relocate,
      parametersField_relocate, Option.toList_map, List.reduceOption_map]
  | clause value =>
    cases value
    simp [relocate, fields, CatchClause.relocate, parametersField_relocate]
  | invocation value =>
    obtain ⟨place, name, arguments⟩ := value
    cases arguments <;> simp [relocate, fields, Invocation.relocate]
  | member value => exact memberFields_relocate r value
  | unit value => exact unitFields_relocate r value

/-- A part in another form stands where its place goes. -/
@[simp] theorem place_relocate (part : Part F) : (part.relocate r).place = r.place part.place := by
  cases part <;> rename_i value <;> cases value <;> first | rfl | (rename_i value; cases value <;> rfl)

/-- The parts of a tree in another form are its parts in that form. -/
theorem all_relocate {P : Part G → Prop} {top : Part F} :
    All P (top.relocate r) ↔ All (fun part => P (part.relocate r)) top := by
  induction top using Part.induction with
  | step top ih =>
    rw [all_iff, all_iff, fields_relocate]
    simp only [List.forall_mem_map]
    exact and_congr_right fun _ =>
      ⟨fun h field hfield child hchild =>
          (ih field hfield child hchild).mp (h field hfield child hchild),
        fun h field hfield child hchild =>
          (ih field hfield child hchild).mpr (h field hfield child hchild)⟩

end Fields

end Part

/-- Two changes of form in a row are one. -/
theorem SourceUnit.relocate_relocate (r : Relocation F G) (q : Relocation G H)
    (unit : SourceUnit F) : (unit.relocate r).relocate q = unit.relocate (r.comp q) :=
  Part.unit.inj (Part.relocate_relocate r q (.unit unit))

/-- In particular, expressions are moved by a composition in one step. -/
theorem Expression.relocate_relocate (f : σ → τ) (g : τ → υ) (e : Expression σ) :
    (e.relocate f).relocate g = e.relocate (g ∘ f) :=
  Part.expression.inj <| Part.relocate_relocate (F := ⟨σ, σ, σ⟩) (G := ⟨τ, τ, τ⟩) (H := ⟨υ, υ, υ⟩)
    ⟨f, f, f⟩ ⟨g, g, g⟩ (.expression e)

end SolidityParser
