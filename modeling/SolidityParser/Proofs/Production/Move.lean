import SolidityParser.Proofs.Production.Compound

/-!
# Productions do not depend on places

How a node is written does not depend on where it stands: if the places of a tree are moved, each
part is written by the same production as before, with its parts moved (`Part.Phrased.move`,
`Part.Composed.move`).
-/

namespace SolidityParser

open SolidityParser.Symbol (option separated series)
open Grammar (VariableAttributes)

variable {σ τ : Type} {F G : Form} {f : Nat → Nat}

/-! ### Places of nodes that were moved -/

section Places

variable (g : σ → τ) (r : Relocation F G)

theorem Expression.place_relocate (e : Expression σ) : (e.relocate g).place = g e.place := by
  cases e <;> rfl

theorem NamedArgument.place_relocate (a : NamedArgument σ) : (a.relocate g).place = g a.place := by
  cases a
  rfl

theorem TypeName.place_relocate (t : TypeName σ) : (t.relocate g).place = g t.place := by
  cases t <;> rfl

theorem Parameter.place_relocate (p : Parameter σ) : (p.relocate g).place = g p.place := by
  cases p
  rfl

theorem Statement.place_relocate (s : Statement F) : (s.relocate r).place = r.place s.place :=
  Part.place_relocate r (.statement s)

theorem Block.place_relocate (b : Block F) : (b.relocate r).place = r.place b.place :=
  Part.place_relocate r (.block b)

theorem CatchClause.place_relocate (c : CatchClause F) : (c.relocate r).place = r.place c.place :=
  Part.place_relocate r (.clause c)

theorem ContractPart.place_relocate (m : ContractPart F) : (m.relocate r).place = r.place m.place :=
  Part.place_relocate r (.member m)

theorem Statement.isSimple_relocate (s : Statement F) : (s.relocate r).IsSimple ↔ s.IsSimple := by
  cases s <;> rfl

theorem Parameter.relocateList_eq_map :
    Parameter.relocateList g = List.map (Parameter.relocate g) :=
  funext (Parameter.relocateList_eq g)

theorem Parameter.isIndexed_relocate (p : Parameter σ) :
    (p.relocate g).isIndexed = p.isIndexed := by
  cases p
  rfl

end Places

/-! ### Moving places -/

/-- The extent with both ends moved. -/
def Extent.move (f : Nat → Nat) (extent : Extent) : Extent := ⟨f extent.first, f extent.next⟩

/-- The change that moves every place of a tree, and the passages in it. -/
def Relocation.move (f : Nat → Nat) : Relocation .parsed .parsed := ⟨.move f, .move f, .move f⟩

/-- The path with its place moved. -/
def WrittenPath.move (f : Nat → Nat) (written : WrittenPath) : WrittenPath :=
  { written with place := written.place.move f }

namespace Symbol

/-- The symbol with its places moved. -/
def move (f : Nat → Nat) : Symbol → Symbol
  | token kind => token kind
  | word kind text => word kind text
  | part place => part (place.move f)
  | path place first more => path (place.move f) first more
  | no ahead => no ahead
  | here index => here (f index)

/-! Lists of symbols are moved item by item. -/

@[simp] theorem map_move_separated : (items : List (List Symbol)) →
    (separated items).map (move f) = separated (items.map (List.map (move f)))
  | [] => rfl
  | [_] => rfl
  | item :: other :: items => by
    simp [separated, map_move_separated (other :: items), move]

@[simp] theorem map_move_series (close : Kind) (items : List (List Symbol)) :
    (series close items).map (move f) = series close (items.map (List.map (move f))) := by
  simp [series, move]

/-! Parts are moved with their nodes. -/

@[simp] theorem move_part_expression (e : Expression Extent) :
    move f (part e.place) = part (e.relocate (.move f)).place := by
  rw [e.place_relocate, move]

@[simp] theorem move_part_typeName (t : TypeName Extent) :
    move f (part t.place) = part (t.relocate (.move f)).place := by
  rw [t.place_relocate, move]

@[simp] theorem map_move_expressions (items : List (Expression Extent)) :
    (items.map fun e => [part e.place]).map (List.map (move f)) =
      (items.map (·.relocate (.move f))).map fun e => [part e.place] := by
  simp [Function.comp_def]

@[simp] theorem map_move_namedArguments (items : List (NamedArgument Extent)) :
    (items.map fun a => [part a.place]).map (List.map (move f)) =
      (items.map (·.relocate (.move f))).map fun a => [part a.place] := by
  simp [Function.comp_def, NamedArgument.place_relocate, move]

@[simp] theorem map_move_identifiers (items : List (Identifier Extent)) :
    (items.map fun v => [part v.place]).map (List.map (move f)) =
      (items.map (·.relocate (.move f))).map fun v => [part v.place] := by
  simp [Function.comp_def, move, Identifier.relocate]

@[simp] theorem map_move_importSymbols (items : List (ImportSymbol Extent)) :
    (items.map fun v => [part v.place]).map (List.map (move f)) =
      (items.map (·.relocate (.move f))).map fun v => [part v.place] := by
  simp [Function.comp_def, move, ImportSymbol.relocate]

@[simp] theorem map_move_optionExpression (e : Option (Expression Extent)) :
    (option (e.map (·.place))).map (move f) =
      option ((e.map (·.relocate (.move f))).map (·.place)) := by
  cases e <;> simp [option]

@[simp] theorem map_move_components (items : List (Option (Expression Extent))) :
    (items.map fun e => option (e.map (·.place))).map (List.map (move f)) =
      (items.map (Option.map (·.relocate (.move f)))).map fun e => option (e.map (·.place)) := by
  rw [List.map_map, List.map_map]
  exact List.map_congr_left fun e _ => map_move_optionExpression e

@[simp] theorem map_move_slots (items : List (Option (VariableDeclaration Extent))) :
    (items.map fun v => option (v.map (·.place))).map (List.map (move f)) =
      (items.map (Option.map (·.relocate (.move f)))).map fun v => option (v.map (·.place)) := by
  rw [List.map_map, List.map_map]
  exact List.map_congr_left fun v _ => by cases v <;> rfl

@[simp] theorem map_move_members (items : List (VariableDeclaration Extent)) :
    (items.flatMap fun v => [part v.place, token .semicolon]).map (move f) =
      (items.map (·.relocate (.move f))).flatMap fun v => [part v.place, token .semicolon] := by
  simp [List.map_flatMap, List.flatMap_map, move, VariableDeclaration.relocate]

@[simp] theorem move_part_declared (v : VariableDeclaration Extent) :
    move f (part v.place) = part (v.relocate (.move f)).place := rfl

@[simp] theorem move_part_identifier (v : Identifier Extent) :
    move f (part v.place) = part (v.relocate (.move f)).place := rfl

/-! What stands between parts is not moved. -/

@[simp] theorem map_move_token (kinds : List Kind) :
    (kinds.map token).map (move f) = kinds.map token := by
  simp [Function.comp_def, move]

@[simp] theorem map_move_word {α : Type} (items : List α) (kind : α → Kind) (text : α → String) :
    (items.map fun v => word (kind v) (text v)).map (move f) =
      items.map fun v => word (kind v) (text v) := by
  simp [Function.comp_def, move]

@[simp] theorem map_move_names (first : String) (more : List String) :
    (names first more).map (move f) = names first more := by
  simp [names, move, List.map_flatMap]

@[simp] theorem map_move_location (location : Option StorageLocation) :
    (Symbol.location location).map (move f) = Symbol.location location := by
  cases location <;> rfl

@[simp] theorem map_move_name (name : Option String) :
    (Symbol.name name).map (move f) = Symbol.name name := by
  cases name <;> rfl

@[simp] theorem map_move_newName (name : Option String) :
    (newName name).map (move f) = newName name := by
  cases name <;> rfl

@[simp] theorem map_move_origin (raw : String) : (origin raw).map (move f) = origin raw := rfl

@[simp] theorem map_move_row (places : List Extent) :
    (row places).map (move f) = row (places.map (.move f)) := by
  simp [row, Function.comp_def, move]

@[simp] theorem map_move_orElse (place : Option Extent) :
    (orElse place).map (move f) = orElse (place.map (.move f)) := by
  cases place <;> rfl

@[simp] theorem map_move_initial (place : Option Extent) :
    (Symbol.initial place).map (move f) = Symbol.initial (place.map (.move f)) := by
  cases place <;> rfl

@[simp] theorem map_move_body (place : Option Extent) :
    (Symbol.body place).map (move f) = Symbol.body (place.map (.move f)) := by
  cases place <;> rfl

@[simp] theorem map_move_flags (flags : Option (List String)) :
    (Symbol.flags flags).map (move f) = Symbol.flags flags := by
  cases flags <;> simp [Symbol.flags, move, Function.comp_def]

@[simp] theorem map_move_parameters (parameters : List (Parameter Extent)) :
    (Symbol.parameters parameters).map (move f) =
      Symbol.parameters (parameters.map (·.relocate (.move f))) := by
  simp [Symbol.parameters, move, Function.comp_def, Parameter.place_relocate]

@[simp] theorem map_move_returns (parameters : Option (List (Parameter Extent))) :
    (Symbol.returns parameters).map (move f) =
      Symbol.returns (parameters.map (List.map (·.relocate (.move f)))) := by
  cases parameters <;> simp [Symbol.returns, move]

@[simp] theorem map_move_given (parameters : Option (List (Parameter Extent))) :
    (Symbol.given parameters).map (move f) =
      Symbol.given (parameters.map (List.map (·.relocate (.move f)))) := by
  cases parameters <;> simp [Symbol.given]

@[simp] theorem map_move_arguments (values : Option (List (Expression Extent))) :
    (Symbol.arguments values).map (move f) =
      Symbol.arguments (values.map (List.map (·.relocate (.move f)))) := by
  cases values <;> simp [Symbol.arguments, move, Function.comp_def, Expression.place_relocate]

@[simp] theorem map_move_initialValue (value : Option (Expression Extent)) :
    (initialValue value).map (move f) = initialValue (value.map (·.relocate (.move f))) := by
  cases value <;> simp [initialValue, move, Expression.place_relocate]

@[simp] theorem map_move_attachment (target : Option (TypeName Extent)) (isGlobal : Bool) :
    (attachment target isGlobal).map (move f) =
      attachment (target.map (·.relocate (.move f))) isGlobal := by
  cases target <;> cases isGlobal <;> simp [attachment, move, TypeName.place_relocate]

@[simp] theorem map_move_bases (values : List (Invocation Extent)) :
    (bases values).map (move f) = bases (values.map (·.relocate (.move f))) := by
  cases values <;> simp [bases, move, Function.comp_def, Invocation.relocate]

end Symbol

/-! ### Attributes -/

namespace Attribute

/-- The attribute with its places moved. -/
def move (f : Nat → Nat) : Attribute → Attribute
  | overrides bases => overrides (bases.map (List.map (·.move f)))
  | modifier value => modifier (value.relocate (.move f))
  | visibility value => visibility value
  | mutability value => mutability value
  | isVirtual => isVirtual
  | isConstant => isConstant
  | isImmutable => isImmutable

variable {item : Attribute}

theorem move_symbols : (item.move f).symbols = item.symbols.map (.move f) := by
  cases item with
  | overrides bases =>
    cases bases <;> simp [move, symbols, baseSymbols, Symbol.move, Function.comp_def,
      WrittenPath.symbol, WrittenPath.move]
  | _ => rfl

@[simp] theorem isOfFunction_move : (item.move f).IsOfFunction ↔ item.IsOfFunction := by
  cases item <;> rfl

@[simp] theorem isOfModifier_move : (item.move f).IsOfModifier ↔ item.IsOfModifier := by
  cases item <;> rfl

@[simp] theorem isOfVariable_move : (item.move f).IsOfVariable ↔ item.IsOfVariable := by
  cases item <;> rfl

theorem bases_move (listed : Option (List WrittenPath)) :
    bases (listed.map (List.map (·.move f))) = (bases listed).map (·.relocate (.move f)) := by
  cases listed <;> simp [bases, WrittenPath.move, WrittenPath.path, NamePath.relocate]

end Attribute

@[simp] theorem Symbol.map_move_functions (items : List WrittenPath) :
    (items.map fun written => [WrittenPath.symbol written]).map (List.map (move f)) =
      (items.map (WrittenPath.move f)).map fun written => [WrittenPath.symbol written] := by
  simp [Function.comp_def, WrittenPath.symbol, WrittenPath.move, move]

@[simp] theorem Symbol.map_move_attributes (items : List Attribute) :
    (Symbol.attributes items).map (move f) = Symbol.attributes (items.map (.move f)) := by
  simp [Symbol.attributes, List.map_flatMap, List.flatMap_map, Attribute.move_symbols]

/-- What counts of the attributes of a function is moved with them. -/
theorem FunctionAttributes.ofItems_move (items : List Attribute) :
    FunctionAttributes.ofItems (items.map (.move f)) =
      (FunctionAttributes.ofItems items).relocate (.move f) := by
  have from_any (attributes : FunctionAttributes Extent) :
      (items.map (Attribute.move f)).foldl set (attributes.relocate (.move f)) =
        (items.foldl set attributes).relocate (.move f) := by
    induction items generalizing attributes with
    | nil => rfl
    | cons item items ih =>
      rw [List.map_cons, List.foldl_cons, List.foldl_cons, ← ih]
      cases item <;> simp [set, relocate, Attribute.move, Attribute.bases_move]
  exact from_any {}

namespace Grammar.VariableAttributes

/-- The attributes with their places moved. -/
def move (f : Nat → Nat) (attributes : VariableAttributes) : VariableAttributes :=
  { attributes with overrides := attributes.overrides.map (List.map (·.relocate (.move f))) }

/-- What counts of the attributes of a variable is moved with them. -/
theorem ofItems_move (items : List Attribute) :
    ofItems (items.map (.move f)) = (ofItems items).move f := by
  have from_any (attributes : VariableAttributes) :
      (items.map (Attribute.move f)).foldl set (attributes.move f) =
        (items.foldl set attributes).move f := by
    induction items generalizing attributes with
    | nil => rfl
    | cons item items ih =>
      rw [List.map_cons, List.foldl_cons, List.foldl_cons, ← ih]
      cases item <;> simp [set, move, Attribute.move, Attribute.bases_move]
  exact from_any {}

end Grammar.VariableAttributes

/-! ### Productions -/

namespace Part

variable {part : Part .parsed} {symbols : List Symbol}

/-- A unit that may be a member is moved as the member is. -/
theorem member?_relocate {r : Relocation F G} {unit : SourceUnit F} {member : ContractPart F}
    (h : unit.member? = some member) : (unit.relocate r).member? = some (member.relocate r) := by
  cases unit <;> cases h <;> rfl

/-- A phrase is written as before if its places are moved. -/
theorem Phrased.move (h : part.Phrased symbols) :
    (part.relocate (.move f)).Phrased (symbols.map (.move f)) := by
  induction h with
  | unit h _ ih => exact .unit (member?_relocate h) ih
  | @string place first more h =>
    simpa [relocate, Expression.relocate, Symbol.move, Relocation.move, Function.comp_def] using
      @Phrased.string (place.move f) first more h
  | @tuple place components h =>
    simp only [relocate, Expression.relocate, Relocation.move, List.map_cons,
      Symbol.map_move_series, Symbol.map_move_components, Expression.relocateSlots_eq]
    exact .tuple fun hnone => h (by simpa [List.map_eq_cons_iff] using hnone)
  | @array place values =>
    simpa [relocate, Expression.relocate, Symbol.move, Relocation.move, Function.comp_def,
      Expression.place_relocate] using
      @Phrased.array (place.move f) (values.map (·.relocate (.move f)))
  | @elementary place name h =>
    simpa [relocate, TypeName.relocate, Symbol.move, Relocation.move, apply_ite] using
      @Phrased.elementary (place.move f) name h
  | @functionType place parameters returns kinds hkinds hparameters =>
    have hmoved := @Phrased.functionType (place.move f) (parameters.map (·.relocate (.move f)))
      (returns.map (List.map (·.relocate (.move f)))) kinds hkinds (by
        cases returns <;> simpa [or_imp, forall_and, Parameter.isIndexed_relocate] using hparameters)
    cases returns <;> simpa [relocate, TypeName.relocate, Symbol.move, Relocation.move,
      Function.comp_def] using hmoved
  | @stateVariable place type name items value h =>
    have hmoved := @Phrased.stateVariable (place.move f) (type.relocate (.move f)) name
      (items.map (.move f)) (value.map (·.relocate (.move f))) (by simpa using h)
    simpa [relocate, ContractPart.relocate, StateVariable.relocate, Symbol.move, Relocation.move,
      VariableAttributes.ofItems_move, VariableAttributes.move, TypeName.place_relocate] using hmoved
  | @error place name parameters h =>
    simpa [relocate, ContractPart.relocate, ErrorDefinition.relocate, Symbol.move, Relocation.move]
      using @Phrased.error (place.move f) name (parameters.map (·.relocate (.move f)))
        (by simpa [Parameter.isIndexed_relocate] using h)
  | @declaration place declared initial =>
    have hmoved := @Phrased.declaration (place.move f) (declared.relocate (.move f))
      (initial.map (·.relocate (.move f)))
    cases initial <;> simpa [relocate, Statement.relocate, Symbol.move, Relocation.move,
      VariableDeclaration.relocate, Expression.place_relocate] using hmoved
  | @path written =>
    rw [Symbol.map_move_names]
    exact @Phrased.path (written.move f)
  | @userDefined place first more h =>
    simpa [relocate, TypeName.relocate, Symbol.move, Relocation.move, List.map_flatMap] using
      @Phrased.userDefined (place.move f) first more h
  | @parameter place type location name indexed =>
    have hmoved := @Phrased.parameter (place.move f) (type.relocate (.move f)) location name indexed
    cases indexed <;> simpa [relocate, Parameter.relocate, Symbol.move, Relocation.move,
      TypeName.place_relocate] using hmoved
  | @event place name parameters isAnonymous =>
    have hmoved := @Phrased.event (place.move f) name (parameters.map (·.relocate (.move f)))
      isAnonymous
    cases isAnonymous <;> simpa [relocate, ContractPart.relocate, EventDefinition.relocate,
      Symbol.move, Relocation.move] using hmoved
  | @invocation place first more arguments =>
    have hmoved := @Phrased.invocation (place.move f) first more
      (arguments.map (List.map (·.relocate (.move f))))
    cases arguments <;>
      simpa [relocate, Invocation.relocate, Symbol.move, Relocation.move] using hmoved
  | @usingFunctions place functions target isGlobal =>
    have hmoved := @Phrased.usingFunctions (place.move f) (functions.map (.move f))
      (target.map (·.relocate (.move f))) isGlobal
    simpa [relocate, ContractPart.relocate, UsingDirective.relocate, Symbol.move, Relocation.move,
      Function.comp_def, WrittenPath.move, WrittenPath.path, WrittenPath.symbol] using hmoved
  | _ =>
    simp only [relocate, Identifier.relocate, Expression.relocate, Arguments.relocate,
      NamedArgument.relocate, TypeName.relocate, Statement.relocate, ImportSymbol.relocate,
      ContractPart.relocate, StructDefinition.relocate, EnumDefinition.relocate,
      UsingDirective.relocate, ValueTypeDefinition.relocate, SourceUnit.relocate, Pragma.relocate,
      CoderPragma.relocate, ExperimentalPragma.relocate, ImportDirective.relocate,
      FileConstant.relocate, Relocation.move, Option.map_some, Option.map_none, List.map_cons,
      List.map_nil, List.map_append, Expression.relocateList_eq, Expression.relocateOption_eq,
      NamedArgument.relocateList_eq, Symbol.move_part_expression, Symbol.move_part_typeName,
      Symbol.map_move_expressions, Symbol.map_move_namedArguments, Symbol.map_move_identifiers,
      Symbol.map_move_importSymbols, Symbol.map_move_optionExpression, Symbol.map_move_slots,
      Symbol.map_move_members, Symbol.map_move_names, Symbol.map_move_location,
      Symbol.map_move_name, Symbol.map_move_newName, Symbol.map_move_origin,
      Symbol.map_move_attachment, Symbol.map_move_token, Symbol.map_move_series,
      Symbol.map_move_separated]
    constructor <;> first | assumption | simpa

private theorem not_indexed_getD {o : Option (List (Parameter Extent))}
    (h : ∀ p ∈ o.getD [], p.isIndexed = false) :
    ∀ p ∈ (o.map (List.map (·.relocate (Extent.move f)))).getD [], p.isIndexed = false := by
  cases o with
  | none => simp
  | some parameters => simpa [Parameter.isIndexed_relocate] using h

private theorem not_indexed_append {parameters : List (Parameter Extent)}
    {o : Option (List (Parameter Extent))}
    (h : ∀ p ∈ parameters ++ o.getD [], p.isIndexed = false) :
    ∀ p ∈ parameters.map (·.relocate (Extent.move f)) ++
        (o.map (List.map (·.relocate (Extent.move f)))).getD [], p.isIndexed = false := by
  cases o <;> simpa [or_imp, forall_and, Parameter.isIndexed_relocate] using h

/-- A statement or a declaration is written as before if its places are moved. -/
theorem Composed.move (h : part.Composed symbols) :
    (part.relocate (.move f)).Composed (symbols.map (.move f)) := by
  induction h with
  | unit h _ ih => exact .unit (member?_relocate h) ih
  | @blockStatement body =>
    simpa [relocate, Statement.relocate, Symbol.move, Block.place_relocate, Relocation.move] using
      @blockStatement (body.relocate (.move f))
  | @ifElse place test consequent alternate =>
    simpa [relocate, Statement.relocate, Symbol.move, Statement.place_relocate,
      Expression.place_relocate, Relocation.move, Function.comp_def] using
      @ifElse (place.move f) (test.relocate (.move f)) (consequent.relocate (.move f))
        (alternate.map (·.relocate (.move f)))
  | @forLoop place initial test update body h =>
    simpa [relocate, Statement.relocate, Symbol.move, Statement.place_relocate,
      Expression.place_relocate, Relocation.move, Function.comp_def] using
      @forLoop (place.move f) (initial.map (·.relocate (.move f)))
        (test.map (·.relocate (.move f))) (update.map (·.relocate (.move f)))
        (body.relocate (.move f)) (by simpa [Statement.isSimple_relocate] using h)
  | @whileLoop place test body =>
    simpa [relocate, Statement.relocate, Symbol.move, Statement.place_relocate,
      Expression.place_relocate, Relocation.move] using
      @whileLoop (place.move f) (test.relocate (.move f)) (body.relocate (.move f))
  | @doWhile place body test =>
    simpa [relocate, Statement.relocate, Symbol.move, Statement.place_relocate,
      Expression.place_relocate, Relocation.move] using
      @doWhile (place.move f) (body.relocate (.move f)) (test.relocate (.move f))
  | @tryCatch place call returns body clauses hreturns hclauses =>
    simpa [relocate, Statement.relocate, Symbol.move, Block.place_relocate,
      CatchClause.place_relocate, Expression.place_relocate, Relocation.move,
      Parameter.relocateList_eq_map, Function.comp_def] using
      @tryCatch (place.move f) (call.relocate (.move f))
        (returns.map (List.map (·.relocate (.move f)))) (body.relocate (.move f))
        (clauses.map (·.relocate (.move f)))
        (not_indexed_getD hreturns) (by simpa using hclauses)
  | @clause place kind given body hgiven =>
    simpa [relocate, CatchClause.relocate, Symbol.move, Block.place_relocate, Relocation.move,
      Parameter.relocateList_eq_map] using
      @clause (place.move f) kind (given.map (List.map (·.relocate (.move f))))
        (body.relocate (.move f)) (not_indexed_getD hgiven)
  | @returned place argument =>
    simpa [relocate, Statement.relocate, Symbol.move, Expression.place_relocate, Relocation.move,
      Function.comp_def] using @returned (place.move f) (argument.map (·.relocate (.move f)))
  | @unchecked place body =>
    simpa [relocate, Statement.relocate, Symbol.move, Block.place_relocate, Relocation.move] using
      @unchecked (place.move f) (body.relocate (.move f))
  | @assembly place body language flags kinds h =>
    simpa [relocate, Statement.relocate, Symbol.move, Relocation.move, Function.comp_def,
      Extent.move] using @assembly (place.move f) (body.move f) language flags kinds h
  | @block place body =>
    simpa [relocate, Block.relocate, Symbol.move, Statement.place_relocate, Relocation.move,
      Function.comp_def] using @block (place.move f) (body.map (·.relocate (.move f)))
  | @constructor place parameters items body hparameters hitems =>
    have hmoved := @constructor (place.move f) (parameters.map (·.relocate (.move f)))
      (items.map (.move f)) (body.relocate (.move f))
      (by simpa [Parameter.isIndexed_relocate] using hparameters) (by simpa using hitems)
    simpa [relocate, ContractPart.relocate, Constructor.relocate, Symbol.move,
      Block.place_relocate, FunctionAttributes.ofItems_move, FunctionAttributes.relocate,
      Relocation.move] using hmoved
  | @receive place items body hitems =>
    have hmoved := @receive (place.move f) (items.map (.move f)) (body.map (·.relocate (.move f)))
      (by simpa using hitems)
    simpa [relocate, ContractPart.relocate, ReceiveFunction.relocate, Symbol.move,
      Block.place_relocate, FunctionAttributes.ofItems_move, Relocation.move,
      Function.comp_def] using hmoved
  | @fallback place word parameters returns items body hword hparameters hitems =>
    have hmoved := @fallback (place.move f) word (parameters.map (·.relocate (.move f)))
      (returns.map (List.map (·.relocate (.move f)))) (items.map (.move f))
      (body.map (·.relocate (.move f))) hword (not_indexed_append hparameters)
      (by simpa using hitems)
    rcases hword with rfl | rfl <;>
      simpa [relocate, ContractPart.relocate, FallbackFunction.relocate, Symbol.move,
        Symbol.signature, Block.place_relocate, FunctionAttributes.ofItems_move, Relocation.move,
        Parameter.relocateList_eq_map, Function.comp_def] using hmoved
  | @function place name parameters returns items body hparameters hitems =>
    have hmoved := @function (place.move f) name (parameters.map (·.relocate (.move f)))
      (returns.map (List.map (·.relocate (.move f)))) (items.map (.move f))
      (body.map (·.relocate (.move f))) (not_indexed_append hparameters)
      (by simpa using hitems)
    simpa [relocate, ContractPart.relocate, FunctionDeclaration.relocate, Symbol.move,
      Symbol.signature, Block.place_relocate, FunctionAttributes.ofItems_move, Relocation.move,
      Parameter.relocateList_eq_map, Function.comp_def] using hmoved
  | @modifier place name given items body hgiven hitems =>
    have hmoved := @modifier (place.move f) name (given.map (List.map (·.relocate (.move f))))
      (items.map (.move f)) (body.map (·.relocate (.move f)))
      (not_indexed_getD hgiven) (by simpa using hitems)
    simpa [relocate, ContractPart.relocate, ModifierDeclaration.relocate, Symbol.move,
      Block.place_relocate, FunctionAttributes.ofItems_move, FunctionAttributes.relocate,
      Relocation.move, Parameter.relocateList_eq_map, Function.comp_def] using hmoved
  | @contract place name kind isAbstract bases body =>
    have hmoved := @contract (place.move f) name kind isAbstract
      (bases.map (·.relocate (.move f))) (body.map (·.relocate (.move f)))
    cases isAbstract <;> simpa [relocate, SourceUnit.relocate, Contract.relocate, Symbol.move,
      ContractPart.place_relocate, Relocation.move, Function.comp_def] using hmoved
  | _ =>
    simp only [relocate, Statement.relocate, Relocation.move, List.map_cons, List.map_nil,
      Symbol.move_part_expression]
    constructor

end Part

end SolidityParser
