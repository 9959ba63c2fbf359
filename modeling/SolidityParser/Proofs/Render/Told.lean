import SolidityParser.Proofs.Tree.Part
import SolidityParser.Proofs.Render.Json

/-!
# Expressions, types and statements told by their JSON

The JSON of a call does not say of which kind an empty list of arguments is, and the JSON of a
number does not give its value if it is beyond the range of doubles. Where both are known otherwise
(`Part.Marked`), two nodes with the same JSON are equal (`Part.Told`): each node is told if the ones
right below it are.
-/

namespace SolidityParser

open Json (node of?)

namespace Part

/-- What JSON does not tell of a node is told otherwise: at which places calls have an empty list of
named arguments, and the value of a number by its text. -/
def Marked (named : Span → Prop) : Part .located → Prop
  | expression (.call place _ (.named [])) => named place
  | expression (.call place _ (.positional [])) => ¬ named place
  | expression (.number _ value raw _) => value = NumberValue.ofLiteral raw
  | _ => True

variable {named : Span → Prop}

/-- A node is the only one of its sort with its JSON, of those that agree with it where JSON does
not tell. -/
def Told (named : Span → Prop) : Part .located → Prop
  | identifier v => ∀ w, v.toJson = w.toJson → v = w
  | expression v => ∀ w, (expression w).All (Marked named) → v.toJson = w.toJson → v = w
  | namedArgument v => ∀ w, (namedArgument w).All (Marked named) → v.toJson = w.toJson → v = w
  | typeName v => ∀ w, (typeName w).All (Marked named) → v.toJson = w.toJson → v = w
  | parameter v => ∀ w, (parameter w).All (Marked named) → v.toJson = w.toJson → v = w
  | declared v => ∀ w, (declared w).All (Marked named) → v.toJson = w.toJson → v = w
  | statement v => ∀ w, (statement w).All (Marked named) → v.toJson = w.toJson → v = w
  | block v => ∀ w, (block w).All (Marked named) → v.toJson = w.toJson → v = w
  | clause v => ∀ w, (clause w).All (Marked named) → v.toJson = w.toJson → v = w
  | path v => ∀ w, v.toJson = w.toJson → v = w
  | invocation v =>
    ∀ type w, (invocation w).All (Marked named) → v.toJson type = w.toJson type → v = w
  | importSymbol v => ∀ w, v.toJson = w.toJson → v = w
  | member v => ∀ w, (member w).All (Marked named) → v.toJson = w.toJson → v = w
  | unit v => ∀ w, (unit w).All (Marked named) → v.toJson = w.toJson → v = w

/-- The JSON of an expression is an object, so that a missing expression is told from any other. -/
theorem expression_ne_null (e : Expression Span) : e.toJson ≠ .null := by
  cases e <;> simp [Expression.toJson, node]

/-- The objects of named arguments are of a type of their own. -/
theorem expression_ne_namedArgument (e : Expression Span) (a : NamedArgument Span) :
    e.toJson ≠ a.toJson := by
  cases a
  cases e <;> simp [Expression.toJson, NamedArgument.toJson]

/-- The callee of a call is right below it. -/
theorem callee_of_call {P : Part .located → Prop} {place : Span} {callee : Expression Span}
    {given : Arguments Span}
    (h : ∀ field ∈ (expression (.call place callee given) : Part .located).fields,
      ∀ child ∈ field, P child) : P (.expression callee) := by
  cases given <;> exact h _ (List.mem_cons_self ..) _ (List.mem_cons_self ..)

/-- Arguments are told by their list: positional and named ones differ in every object of it, and
where it is empty, by the place of the call. -/
theorem told_arguments {given given' : Arguments Span} {place : Span}
    {callee callee' : Expression Span}
    (below : ∀ field ∈ (expression (.call place callee given) : Part .located).fields,
      ∀ child ∈ field, child.Told named)
    (h : Marked named (.expression (.call place callee given)))
    (h' : (expression (.call place callee' given')).All (Marked named))
    (heq : given.toJson = given'.toJson) : given = given' := by
  have below' := (all_iff.mp h').2
  replace h' := h'.here
  cases given with
  | positional values =>
    cases given' with
    | positional values' =>
      simp [fields, expressionFields, Told] at below below'
      simp [Arguments.toJson] at heq
      exact congrArg _ (Json.map_inj heq fun v hv w hw => below.2 v hv w (below'.2 w hw))
    | named values' =>
      simp [Arguments.toJson] at heq
      cases values with
      | nil =>
        obtain rfl : values' = [] := by simpa using heq.symm
        exact absurd h' h
      | cons e es =>
        cases values' with
        | nil => simp at heq
        | cons a as =>
          simp at heq
          exact absurd heq.1 (expression_ne_namedArgument e a)
  | named values =>
    cases given' with
    | named values' =>
      simp [fields, expressionFields, Told] at below below'
      simp [Arguments.toJson] at heq
      exact congrArg _ (Json.map_inj heq fun v hv w hw => below.2 v hv w (below'.2 w hw))
    | positional values' =>
      simp [Arguments.toJson] at heq
      cases values with
      | nil =>
        obtain rfl : values' = [] := by simpa using heq.symm
        exact absurd h h'
      | cons a as =>
        cases values' with
        | nil => simp at heq
        | cons e es =>
          simp at heq
          exact absurd heq.1.symm (expression_ne_namedArgument e a)

/-- Lists with places left empty are told slot by slot. -/
theorem told_slots {α : Type} {f : α → Json} {slots slots' : List (Option α)}
    (hnull : ∀ v, f v ≠ .null) (heq : slots.map (of? f) = slots'.map (of? f))
    (inj : ∀ v, some v ∈ slots → ∀ w, some w ∈ slots' → f v = f w → v = w) : slots = slots' :=
  Json.map_inj heq fun _ ho _ ho' hoo => Json.of?_inj hnull hoo fun v hv w hw =>
    inj v (hv ▸ ho) w (hw ▸ ho')

/-- An expression is told by its type and what is below it, in the order of the fields. -/
theorem told_expression (v : Expression Span) (h : Marked named (.expression v))
    (below : ∀ field ∈ (expression v : Part .located).fields, ∀ child ∈ field, child.Told named) :
    (expression v).Told named := by
  intro w hw heq
  have below' := (all_iff.mp hw).2
  have hw' := hw.here
  cases v with
  | identifier | boolean | string | number =>
    cases w <;> simp [Expression.toJson] at heq
    all_goals simp_all [Marked]
  | member place object property =>
    cases w <;> simp [Expression.toJson] at heq
    obtain ⟨rfl, hobject, hproperty⟩ := heq
    simp [fields, expressionFields, Told] at below below'
    rw [below.1 _ below'.1 hobject, below.2 _ hproperty]
  | index place object subscript =>
    cases w <;> simp [Expression.toJson] at heq
    obtain ⟨rfl, hobject, hsubscript⟩ := heq
    simp [fields, expressionFields, Told] at below below'
    rw [below.1 _ below'.1 hobject, Json.of?_inj expression_ne_null hsubscript
      fun v hv w hw => below.2 v hv w (below'.2 w hw)]
  | slice place object first last =>
    cases w <;> simp [Expression.toJson] at heq
    obtain ⟨rfl, hobject, hfirst, hlast⟩ := heq
    simp [fields, expressionFields, Told] at below below'
    rw [below.1 _ below'.1 hobject,
      Json.of?_inj expression_ne_null hfirst fun v hv w hw => below.2.1 v hv w (below'.2.1 w hw),
      Json.of?_inj expression_ne_null hlast fun v hv w hw => below.2.2 v hv w (below'.2.2 w hw)]
  | call place callee given =>
    cases w <;> simp [Expression.toJson] at heq
    obtain ⟨rfl, hcallee, hgiven⟩ := heq
    have htold : (expression callee).Told named := callee_of_call below
    rw [told_arguments below h hw hgiven, htold _ (callee_of_call below') hcallee]
  | callOptions place callee options =>
    cases w <;> simp [Expression.toJson] at heq
    obtain ⟨rfl, hcallee, hoptions⟩ := heq
    simp [fields, expressionFields, Told] at below below'
    rw [below.1 _ below'.1 hcallee,
      Json.map_inj hoptions fun v hv w hw => below.2 v hv w (below'.2 w hw)]
  | unary place operator leading argument =>
    cases w <;> simp [Expression.toJson] at heq
    obtain ⟨rfl, rfl, rfl, hargument⟩ := heq
    simp [fields, expressionFields, Told] at below below'
    rw [below _ below' hargument]
  | binary place operator left right =>
    cases w <;> simp [Expression.toJson] at heq
    obtain ⟨rfl, rfl, hleft, hright⟩ := heq
    simp [fields, expressionFields, Told] at below below'
    rw [below.1 _ below'.1 hleft, below.2 _ below'.2 hright]
  | assignment place operator left right =>
    cases w <;> simp [Expression.toJson] at heq
    obtain ⟨rfl, rfl, hleft, hright⟩ := heq
    simp [fields, expressionFields, Told] at below below'
    rw [below.1 _ below'.1 hleft, below.2 _ below'.2 hright]
  | conditional place test consequent alternate =>
    cases w <;> simp [Expression.toJson] at heq
    obtain ⟨rfl, htest, hconsequent, halternate⟩ := heq
    simp [fields, expressionFields, Told] at below below'
    rw [below.1 _ below'.1 htest, below.2.1 _ below'.2.1 hconsequent,
      below.2.2 _ below'.2.2 halternate]
  | tuple place components isArray =>
    cases w <;> simp [Expression.toJson] at heq
    obtain ⟨rfl, hcomponents, rfl⟩ := heq
    simp [fields, expressionFields, Told, List.reduceOption_mem_iff] at below below'
    rw [told_slots expression_ne_null hcomponents fun v hv w hw => below v hv w (below' w hw)]
  | new place type =>
    cases w <;> simp [Expression.toJson] at heq
    obtain ⟨rfl, htype⟩ := heq
    simp [fields, expressionFields, Told] at below below'
    rw [below _ below' htype]


/-- A named argument is told by its name and its value. -/
theorem told_namedArgument (v : NamedArgument Span)
    (below : ∀ field ∈ (namedArgument v : Part .located).fields, ∀ child ∈ field,
      child.Told named) : (namedArgument v).Told named := by
  intro w hw heq
  have below' := (all_iff.mp hw).2
  obtain ⟨place, name, value⟩ := v
  obtain ⟨place', name', value'⟩ := w
  simp [NamedArgument.toJson] at heq
  obtain ⟨rfl, rfl, hvalue⟩ := heq
  simp [fields, Told] at below below'
  rw [below _ below' hvalue]

@[simp] theorem payable_inj {payable payable' : Bool} :
    ((if payable then Json.string StateMutability.payable.text else .null) =
      if payable' then Json.string StateMutability.payable.text else .null) ↔
    payable = payable' := by
  cases payable <;> cases payable' <;> simp

/-- A missing type is told from any other. -/
theorem typeName_ne_null (t : TypeName Span) : t.toJson ≠ .null := by
  cases t <;> simp [TypeName.toJson, node]

/-- A type is told by its sort, whose tags all differ, and what is below it. -/
theorem told_typeName (v : TypeName Span)
    (below : ∀ field ∈ (typeName v : Part .located).fields, ∀ child ∈ field, child.Told named) :
    (typeName v).Told named := by
  intro w hw heq
  have below' := (all_iff.mp hw).2
  cases v with
  | elementary =>
    cases w <;> simp [TypeName.toJson] at heq
    simp [heq]
  | userDefined =>
    cases w <;> simp [TypeName.toJson] at heq
    simp [heq]
  | mapping =>
    cases w <;> simp [TypeName.toJson] at heq
    obtain ⟨rfl, hkey, rfl, hvalue, rfl⟩ := heq
    simp [fields, typeFields, Told] at below below'
    rw [below.1 _ below'.1 hkey, below.2 _ below'.2 hvalue]
  | array =>
    cases w <;> simp [TypeName.toJson] at heq
    obtain ⟨rfl, hbase, hlength⟩ := heq
    simp [fields, typeFields, Told] at below below'
    rw [below.1 _ below'.1 hbase, Json.of?_inj expression_ne_null hlength
      fun v hv w hw => below.2 v hv w (below'.2 w hw)]
  | function =>
    cases w <;> simp [TypeName.toJson] at heq
    obtain ⟨rfl, hparameters, hreturns, rfl, rfl⟩ := heq
    simp [fields, typeFields, Told] at below below'
    rw [Json.map_inj hparameters fun v hv w hw => below.1 v hv w (below'.1 w hw),
      Json.map_inj hreturns fun v hv w hw => below.2 v hv w (below'.2 w hw)]

/-- A parameter is told by its fields. -/
theorem told_parameter (v : Parameter Span)
    (below : ∀ field ∈ (parameter v : Part .located).fields, ∀ child ∈ field, child.Told named) :
    (parameter v).Told named := by
  intro w hw heq
  have below' := (all_iff.mp hw).2
  obtain ⟨place, type, location, name, indexed⟩ := v
  obtain ⟨place', type', location', name', indexed'⟩ := w
  simp [Parameter.toJson] at heq
  obtain ⟨rfl, htype, rfl, rfl, rfl⟩ := heq
  simp [fields, Told] at below below'
  rw [below _ below' htype]

/-- So is a declared variable. -/
theorem told_declared (v : VariableDeclaration Span)
    (below : ∀ field ∈ (declared v : Part .located).fields, ∀ child ∈ field, child.Told named) :
    (declared v).Told named := by
  intro w hw heq
  have below' := (all_iff.mp hw).2
  obtain ⟨place, type, location, name⟩ := v
  obtain ⟨place', type', location', name'⟩ := w
  simp [VariableDeclaration.toJson] at heq
  obtain ⟨rfl, htype, rfl, rfl⟩ := heq
  simp [fields, Told] at below below'
  rw [below _ below' htype]



/-! ### Statements -/

/-- Lists of parameters that may be missing are told one by one. -/
theorem told_parameters {o o' : Option (List (Parameter Span))}
    (heq : Parameter.listOptionToJson o = Parameter.listOptionToJson o')
    (below : ∀ p ∈ o.getD [], ∀ w, (parameter w).All (Marked named) → p.toJson = w.toJson → p = w)
    (below' : ∀ p ∈ o'.getD [], (parameter p).All (Marked named)) : o = o' := by
  refine Json.of?_inj (by simp) heq ?_
  rintro ps rfl ps' rfl h
  simp at below below' h
  exact Json.map_inj h fun v hv w hw => below v hv w (below' w hw)

/-- A missing statement is told from any other. -/
theorem statement_ne_null (s : Statement .located) : s.toJson ≠ .null := by
  cases s <;> simp [Statement.toJson]

/-- A statement is told by its type and what is below it. -/
theorem told_statement (v : Statement .located)
    (below : ∀ field ∈ (statement v).fields, ∀ child ∈ field, child.Told named) :
    (statement v).Told named := by
  intro w hw heq
  have below' := (all_iff.mp hw).2
  simp only [fields] at below below'
  cases v with
  | block body =>
    cases w <;> simp [Statement.toJson] at heq
    simp [statementFields, Told] at below below'
    rw [below _ below' heq.1 heq.2]
  | expression | emit | revert =>
    cases w <;> simp [Statement.toJson] at heq
    obtain ⟨rfl, hvalue⟩ := heq
    simp [statementFields, Told] at below below'
    rw [below _ below' hvalue]
  | declaration place slots initial =>
    cases w <;> simp [Statement.toJson] at heq
    obtain ⟨rfl, hslots, hinitial⟩ := heq
    simp [statementFields, Told, List.reduceOption_mem_iff] at below below'
    rw [told_slots (by simp [VariableDeclaration.toJson]) hslots
        fun v hv w hw => below.1 v hv w (below'.1 w hw),
      Json.of?_inj expression_ne_null hinitial fun v hv w hw => below.2 v hv w (below'.2 w hw)]
  | ifElse place test consequent alternate =>
    cases w <;> simp [Statement.toJson] at heq
    obtain ⟨rfl, htest, hconsequent, halternate⟩ := heq
    simp [statementFields, Told] at below below'
    rw [below.1 _ below'.1 htest, below.2.1 _ below'.2.1 hconsequent,
      Json.of?_inj statement_ne_null halternate
        fun v hv w hw => below.2.2 v hv w (below'.2.2 w hw)]
  | forLoop place initial test update body =>
    cases w <;> simp [Statement.toJson] at heq
    obtain ⟨rfl, hinitial, htest, hupdate, hbody⟩ := heq
    simp [statementFields, Told] at below below'
    obtain ⟨atInitial, atTest, atUpdate, atBody⟩ := below
    obtain ⟨atInitial', atTest', atUpdate', atBody'⟩ := below'
    rw [Json.of?_inj statement_ne_null hinitial
        fun v hv w hw => atInitial v hv w (atInitial' w hw),
      Json.of?_inj expression_ne_null htest fun v hv w hw => atTest v hv w (atTest' w hw),
      Json.of?_inj expression_ne_null hupdate fun v hv w hw => atUpdate v hv w (atUpdate' w hw),
      atBody _ atBody' hbody]
  | whileLoop =>
    cases w <;> simp [Statement.toJson] at heq
    obtain ⟨rfl, htest, hbody⟩ := heq
    simp [statementFields, Told] at below below'
    rw [below.1 _ below'.1 htest, below.2 _ below'.2 hbody]
  | doWhile =>
    cases w <;> simp [Statement.toJson] at heq
    obtain ⟨rfl, hbody, htest⟩ := heq
    simp [statementFields, Told] at below below'
    rw [below.1 _ below'.1 hbody, below.2 _ below'.2 htest]
  | tryCatch place call returns body clauses =>
    cases w <;> simp [Statement.toJson] at heq
    obtain ⟨rfl, hcall, hreturns, hbody, hclauses⟩ := heq
    simp [statementFields, parametersField, Told] at below below'
    obtain ⟨atCall, atReturns, atBody, atClauses⟩ := below
    obtain ⟨atCall', atReturns', atBody', atClauses'⟩ := below'
    rw [atCall _ atCall' hcall, told_parameters hreturns atReturns atReturns',
      atBody _ atBody' hbody.1 hbody.2,
      Json.map_inj hclauses fun v hv w hw => atClauses v hv w (atClauses' w hw)]
  | returned =>
    cases w <;> simp [Statement.toJson] at heq
    obtain ⟨rfl, hargument⟩ := heq
    simp [statementFields, Told] at below below'
    rw [Json.of?_inj expression_ne_null hargument fun v hv w hw => below v hv w (below' w hw)]
  | unchecked =>
    cases w <;> simp [Statement.toJson] at heq
    obtain ⟨rfl, hbody⟩ := heq
    simp [statementFields, Told] at below below'
    rw [below _ below' hbody.1 hbody.2]
  | assembly place language flags body =>
    cases w <;> simp [Statement.toJson] at heq
    obtain ⟨rfl, rfl, hflags, rfl⟩ := heq
    rw [Json.map_inj hflags (by simp)]
  | _ =>
    cases w <;> simp [Statement.toJson] at heq
    rw [heq]

/-- A block is told by its statements. -/
theorem told_block (v : Block .located)
    (below : ∀ field ∈ (block v).fields, ∀ child ∈ field, child.Told named) :
    (block v).Told named := by
  intro w hw heq
  have below' := (all_iff.mp hw).2
  obtain ⟨place, body⟩ := v
  obtain ⟨place', body'⟩ := w
  simp at heq
  obtain ⟨hplace, hbody⟩ := heq
  simp [fields, Told] at below below'
  obtain rfl : place = place' := hplace
  exact congrArg _ (Json.map_inj hbody fun v hv w hw => below v hv w (below' w hw))

/-- A clause is told by what it catches, its parameters and its block. -/
theorem told_clause (v : CatchClause .located)
    (below : ∀ field ∈ (clause v).fields, ∀ child ∈ field, child.Told named) :
    (clause v).Told named := by
  intro w hw heq
  have below' := (all_iff.mp hw).2
  obtain ⟨place, kind, parameters, body⟩ := v
  obtain ⟨place', kind', parameters', body'⟩ := w
  simp [CatchClause.toJson] at heq
  obtain ⟨rfl, rfl, hparameters, hbody⟩ := heq
  simp [fields, parametersField, Told] at below below'
  rw [told_parameters hparameters below.1 below'.1, below.2 _ below'.2 hbody.1 hbody.2]

end Part

end SolidityParser
