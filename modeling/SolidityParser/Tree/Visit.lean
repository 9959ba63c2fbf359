import SolidityParser.Tree.Declaration

/-!
# Walks over a tree

A walk visits a node and then, in the order of the source, the nodes below it. `Visit` is one such
walk with its nesting kept: a node with the visits below it. Eleven kinds of node are visited.
Names, bases of contracts, members of structs and clauses of `try` are not visited themselves, but
the types, expressions and blocks in them are.
-/

namespace SolidityParser

/-! ## Nodes that are visited -/

/-- A node of a tree that a walk stops at. -/
inductive Node
  | program (value : Program)
  | sourceUnit (value : SourceUnit .located)
  | importDirective (value : ImportDirective Span)
  | contract (value : Contract .located)
  | contractPart (value : ContractPart .located)
  | parameter (value : Parameter Span)
  | modifierInvocation (value : Invocation Span)
  | block (value : Block .located)
  | statement (value : Statement .located)
  | expression (value : Expression Span)
  | typeName (value : TypeName Span)

/-- Where a node stands. -/
def Node.span : Node → Span
  | program value => value.span
  | sourceUnit value => value.place
  | importDirective value => value.place
  | contract value => value.place
  | contractPart value => value.place
  | parameter value => value.place
  | modifierInvocation value => value.place
  | block value => value.place
  | statement value => value.place
  | expression value => value.place
  | typeName value => value.place

/-- The visit of a node, with the visits made inside it, in order. -/
inductive Visit
  | mk (node : Node) (inside : List Visit)

namespace Visit

mutual

/-- The nodes of a walk in the order in which they are met, each before those below it. -/
def nodes : Visit → List Node
  | mk node inside => node :: nodesOfList inside

/-- The nodes of walks, one after the other. -/
def nodesOfList : List Visit → List Node
  | [] => []
  | visit :: visits => visit.nodes ++ nodesOfList visits

end

mutual

/-- The greatest number of visits that are open at once. -/
def depth : Visit → Nat
  | mk _ inside => depthOfList inside + 1

/-- The greatest depth of walks, one after the other. -/
def depthOfList : List Visit → Nat
  | [] => 0
  | visit :: visits => max visit.depth (depthOfList visits)

end

end Visit

/-! ## Expressions and type names

The functions below give the visits inside a node, in order.
-/

mutual

/-- The visits inside an expression. -/
def Expression.visits : Expression Span → List Visit
  | .identifier .. | .number .. | .string .. | .boolean .. => []
  | .member _ object _ => [.mk (.expression object) object.visits]
  | .index _ object subscript =>
    .mk (.expression object) object.visits :: Expression.visitsOfOption subscript
  | .slice _ object first last =>
    .mk (.expression object) object.visits ::
      (Expression.visitsOfOption first ++ Expression.visitsOfOption last)
  | .call _ callee arguments => .mk (.expression callee) callee.visits :: arguments.visits
  | .callOptions _ callee options =>
    .mk (.expression callee) callee.visits :: NamedArgument.visitsOfList options
  | .unary _ _ _ argument => [.mk (.expression argument) argument.visits]
  | .binary _ _ left right | .assignment _ _ left right =>
    [.mk (.expression left) left.visits, .mk (.expression right) right.visits]
  | .conditional _ test consequent alternate =>
    [.mk (.expression test) test.visits, .mk (.expression consequent) consequent.visits,
      .mk (.expression alternate) alternate.visits]
  | .tuple _ components _ => Expression.visitsOfSlots components
  | .new _ type => [.mk (.typeName type) type.visits]

/-- The visit of an expression that may be missing. -/
def Expression.visitsOfOption : Option (Expression Span) → List Visit
  | none => []
  | some e => [.mk (.expression e) e.visits]

/-- The visits of the components of a tuple. -/
def Expression.visitsOfSlots : List (Option (Expression Span)) → List Visit
  | [] => []
  | slot :: slots => Expression.visitsOfOption slot ++ Expression.visitsOfSlots slots

/-- The visits of expressions. -/
def Expression.visitsOfList : List (Expression Span) → List Visit
  | [] => []
  | e :: es => .mk (.expression e) e.visits :: Expression.visitsOfList es

/-- The visits of the arguments of a call. -/
def Arguments.visits : Arguments Span → List Visit
  | .positional values => Expression.visitsOfList values
  | .named values => NamedArgument.visitsOfList values

/-- The visits of the values of named arguments. -/
def NamedArgument.visitsOfList : List (NamedArgument Span) → List Visit
  | [] => []
  | .mk _ _ value :: rest =>
    .mk (.expression value) value.visits :: NamedArgument.visitsOfList rest

/-- The visits inside the name of a type. -/
def TypeName.visits : TypeName Span → List Visit
  | .elementary .. | .userDefined .. => []
  | .mapping _ key _ value _ =>
    [.mk (.typeName key) key.visits, .mk (.typeName value) value.visits]
  | .array _ base length =>
    .mk (.typeName base) base.visits :: Expression.visitsOfOption length
  | .function _ parameters returns _ _ =>
    Parameter.visitsOfList parameters ++ Parameter.visitsOfList returns

/-- The visits inside a parameter. -/
def Parameter.visits : Parameter Span → List Visit
  | .mk _ type _ _ _ => [.mk (.typeName type) type.visits]

/-- The visits of parameters. -/
def Parameter.visitsOfList : List (Parameter Span) → List Visit
  | [] => []
  | p :: ps => .mk (.parameter p) p.visits :: Parameter.visitsOfList ps

end

/-- The visit of an expression. -/
def Expression.visit (e : Expression Span) : Visit := .mk (.expression e) e.visits

/-- The visit of the name of a type. -/
def TypeName.visit (type : TypeName Span) : Visit := .mk (.typeName type) type.visits

/-! ## Statements -/

/-- The visits of parameters that may be missing. -/
def Parameter.visitsOfOption (parameters : Option (List (Parameter Span))) : List Visit :=
  Parameter.visitsOfList (parameters.getD [])

mutual

/-- The visits inside a statement. -/
def Statement.visits : Statement .located → List Visit
  | .block body => [.mk (.block body) body.visits]
  | .expression _ value => [value.visit]
  | .declaration _ slots initial =>
    (slots.filterMap id).map (·.type.visit) ++ Expression.visitsOfOption initial
  | .ifElse _ test consequent alternate =>
    test.visit :: .mk (.statement consequent) consequent.visits ::
      Statement.visitsOfOption alternate
  | .forLoop _ initial test update body =>
    Statement.visitsOfOption initial ++ Expression.visitsOfOption test ++
      Expression.visitsOfOption update ++ [.mk (.statement body) body.visits]
  | .whileLoop _ test body => [test.visit, .mk (.statement body) body.visits]
  | .doWhile _ body test => [.mk (.statement body) body.visits, test.visit]
  | .tryCatch _ call returns body clauses =>
    call.visit :: (Parameter.visitsOfOption returns ++
      .mk (.block body) body.visits :: CatchClause.visitsOfList clauses)
  | .returned _ argument => Expression.visitsOfOption argument
  | .emit _ event => [event.visit]
  | .revert _ error => [error.visit]
  | .unchecked _ body => [.mk (.block body) body.visits]
  | .breakLoop _ | .continueLoop _ | .throwError _ | .assembly .. | .placeholder _
  | .incomplete _ => []

/-- The visit of a statement that may be missing. -/
def Statement.visitsOfOption : Option (Statement .located) → List Visit
  | none => []
  | some statement => [.mk (.statement statement) statement.visits]

/-- The visits of statements. -/
def Statement.visitsOfList : List (Statement .located) → List Visit
  | [] => []
  | statement :: statements =>
    .mk (.statement statement) statement.visits :: Statement.visitsOfList statements

/-- The visits inside a block. -/
def Block.visits : Block .located → List Visit
  | .mk _ body => Statement.visitsOfList body

/-- The visits of the parameters and blocks of clauses. -/
def CatchClause.visitsOfList : List (CatchClause .located) → List Visit
  | [] => []
  | .mk _ _ parameters body :: clauses =>
    Parameter.visitsOfOption parameters ++
      .mk (.block body) body.visits :: CatchClause.visitsOfList clauses

end

/-- The visit of a statement. -/
def Statement.visit (statement : Statement .located) : Visit :=
  .mk (.statement statement) statement.visits

/-- The visit of a block that may be missing. -/
def Block.visitsOfOption : Option (Block .located) → List Visit
  | none => []
  | some body => [.mk (.block body) body.visits]

/-! ## Members of contracts -/

/-- The visits of the arguments of an invocation. -/
def Invocation.visits (invocation : Invocation Span) : List Visit :=
  Expression.visitsOfList (invocation.arguments.getD [])

/-- The visits of the parts of a function: parameters, modifiers, results, body. -/
def callableVisits (parameters : List (Parameter Span)) (modifiers : List (Invocation Span))
    (returns : Option (List (Parameter Span))) (body : Option (Block .located)) : List Visit :=
  Parameter.visitsOfList parameters ++
    modifiers.map (fun modifier => .mk (.modifierInvocation modifier) modifier.visits) ++
      Parameter.visitsOfOption returns ++ Block.visitsOfOption body

/-- The visits inside a function. -/
def FunctionDeclaration.visits (declaration : FunctionDeclaration .located) : List Visit :=
  callableVisits declaration.parameters declaration.attributes.modifiers declaration.returns
    declaration.body

/-- The visits of the types of a struct's members. -/
def StructDefinition.visits (struct : StructDefinition Span) : List Visit :=
  struct.members.map (·.type.visit)

/-- The visit of the type that functions are attached to. -/
def UsingDirective.visits (directive : UsingDirective Span) : List Visit :=
  directive.target.toList.map TypeName.visit

/-- The visits inside a member of a contract. -/
def ContractPart.visits : ContractPart .located → List Visit
  | .stateVariable declaration =>
    declaration.type.visit :: Expression.visitsOfOption declaration.value
  | .constructor declaration =>
    callableVisits declaration.parameters declaration.modifiers none (some declaration.body)
  | .receive declaration =>
    callableVisits [] declaration.attributes.modifiers none declaration.body
  | .fallback declaration =>
    callableVisits declaration.parameters declaration.attributes.modifiers declaration.returns
      declaration.body
  | .function declaration => declaration.visits
  | .modifier declaration =>
    callableVisits (declaration.parameters.getD []) [] none declaration.body
  | .event definition => Parameter.visitsOfList definition.parameters
  | .error definition => Parameter.visitsOfList definition.parameters
  | .struct definition => definition.visits
  | .usingDirective directive => directive.visits
  | .enumeration _ | .valueType _ => []

/-- The visit of a member of a contract. -/
def ContractPart.visit (part : ContractPart .located) : Visit :=
  .mk (.contractPart part) part.visits

/-! ## Units of a source -/

/-- The visits inside a contract: the arguments of its bases, then its members. -/
def Contract.visits (contract : Contract .located) : List Visit :=
  contract.bases.flatMap Invocation.visits ++ contract.body.map ContractPart.visit

/-- The visits inside a unit. -/
def SourceUnit.visits : SourceUnit .located → List Visit
  | .importDirective directive => [.mk (.importDirective directive) []]
  | .contract declaration => [.mk (.contract declaration) declaration.visits]
  | .function declaration => declaration.visits
  | .struct definition => definition.visits
  | .error definition => Parameter.visitsOfList definition.parameters
  | .event definition => Parameter.visitsOfList definition.parameters
  | .usingDirective directive => directive.visits
  | .constant declaration => [declaration.type.visit, declaration.value.visit]
  | .pragma _ | .coderPragma _ | .experimentalPragma _ | .enumeration _ | .valueType _ => []

/-- The visit of a unit. -/
def SourceUnit.visit (unit : SourceUnit .located) : Visit := .mk (.sourceUnit unit) unit.visits

/-- The visit of a program. -/
def Program.visit (program : Program) : Visit :=
  .mk (.program program) (program.body.map SourceUnit.visit)

end SolidityParser
