import SolidityParser.Render.Json
import SolidityParser.Tree.Declaration

/-!
# Trees as JSON

Each node of a tree is an object: first the type of the node, then its fields in a fixed order, last
the offsets where it starts and ends. What a node leaves out is written as null; what it holds
several of is an array. Choices between kinds of node are not written, since the type tells them.
-/

namespace SolidityParser

namespace Json

/-- A node of a type, with its fields in order. -/
def node (type : String) (span : Span) (fields : List (String × Json)) : Json :=
  object (("type", string type) :: fields ++
    [("start", ofNat span.start), ("end", ofNat span.stop)])

/-- The value of a number; there is none beyond the range of doubles. -/
def ofNumber : NumberValue → Json
  | .double .infinite => null
  | value => number value

/-- An array of what may be missing. -/
def ofList? {α : Type} (toJson : α → Json) : Option (List α) → Json
  | none => null
  | some items => array (items.map toJson)

/-- A value that may be missing. -/
def of? {α : Type} (toJson : α → Json) : Option α → Json
  | none => null
  | some value => toJson value

end Json

open Json (node ofText?)

/-! ## Expressions and type names -/

/-- A name as a node. -/
def Identifier.toJson (identifier : Identifier Span) : Json :=
  node "Identifier" identifier.place [("name", .string identifier.name)]

mutual

/-- An expression as a node. -/
def Expression.toJson : Expression Span → Json
  | .identifier place name => node "Identifier" place [("name", .string name)]
  | .number place value raw unit =>
    node "NumberLiteral" place
      [("value", .ofNumber value), ("raw", .string raw), ("subdenomination", ofText? unit)]
  | .string place value kind =>
    node "StringLiteral" place [("value", .string value), ("kind", .string kind.text)]
  | .boolean place value => node "BooleanLiteral" place [("value", .bool value)]
  | .member place object property =>
    node "MemberExpression" place [("object", object.toJson), ("property", property.toJson)]
  | .index place object subscript =>
    node "IndexExpression" place
      [("object", object.toJson), ("index", Expression.optionToJson subscript)]
  | .slice place object first last =>
    node "IndexRangeExpression" place
      [("object", object.toJson), ("index_start", Expression.optionToJson first),
        ("index_end", Expression.optionToJson last)]
  | .call place callee arguments =>
    node "CallExpression" place
      [("callee", callee.toJson), ("arguments", arguments.toJson)]
  | .callOptions place callee options =>
    node "CallOptionsExpression" place
      [("callee", callee.toJson), ("options", .array (NamedArgument.listToJson options))]
  | .unary place operator leading argument =>
    node "UnaryExpression" place
      [("operator", .string operator.symbol), ("prefix", .bool leading),
        ("argument", argument.toJson)]
  | .binary place operator left right =>
    node "BinaryExpression" place
      [("operator", .string operator.symbol), ("left", left.toJson), ("right", right.toJson)]
  | .assignment place operator left right =>
    node "AssignmentExpression" place
      [("operator", .string operator.symbol), ("left", left.toJson), ("right", right.toJson)]
  | .conditional place test consequent alternate =>
    node "ConditionalExpression" place
      [("test", test.toJson), ("consequent", consequent.toJson), ("alternate", alternate.toJson)]
  | .tuple place components isArray =>
    node "TupleExpression" place
      [("components", .array (Expression.slotsToJson components)), ("is_array", .bool isArray)]
  | .new place type => node "NewExpression" place [("type_name", type.toJson)]

/-- An expression that may be missing. -/
def Expression.optionToJson : Option (Expression Span) → Json
  | none => .null
  | some e => e.toJson

/-- The components of a tuple, null where one is left out. -/
def Expression.slotsToJson : List (Option (Expression Span)) → List Json
  | [] => []
  | slot :: slots => Expression.optionToJson slot :: Expression.slotsToJson slots

/-- Expressions as nodes. -/
def Expression.listToJson : List (Expression Span) → List Json
  | [] => []
  | e :: es => e.toJson :: Expression.listToJson es

/-- The arguments of a call: either way an array, whose nodes tell names from values. -/
def Arguments.toJson : Arguments Span → Json
  | .positional values => .array (Expression.listToJson values)
  | .named values => .array (NamedArgument.listToJson values)

/-- A named argument as a node. -/
def NamedArgument.toJson : NamedArgument Span → Json
  | .mk place name value =>
    node "NamedArgument" place [("name", .string name), ("value", value.toJson)]

/-- Named arguments as nodes. -/
def NamedArgument.listToJson : List (NamedArgument Span) → List Json
  | [] => []
  | a :: as => a.toJson :: NamedArgument.listToJson as

/-- The name of a type as a node. -/
def TypeName.toJson : TypeName Span → Json
  | .elementary place name payable =>
    node "ElementaryTypeName" place
      [("name", .string name),
        ("state_mutability", if payable then .string StateMutability.payable.text else .null)]
  | .userDefined place path => node "UserDefinedTypeName" place [("name_path", .string path)]
  | .mapping place key keyName value valueName =>
    node "Mapping" place
      [("key_type", key.toJson), ("key_name", ofText? keyName), ("value_type", value.toJson),
        ("value_name", ofText? valueName)]
  | .array place base length =>
    node "ArrayTypeName" place
      [("base_type", base.toJson), ("length", Expression.optionToJson length)]
  | .function place parameters returns visibility mutability =>
    node "FunctionTypeName" place
      [("parameters", .array (Parameter.listToJson parameters)),
        ("return_parameters", .array (Parameter.listToJson returns)),
        ("visibility", ofText? (visibility.map Visibility.text)),
        ("state_mutability", ofText? (mutability.map StateMutability.text))]

/-- A parameter as a node. -/
def Parameter.toJson : Parameter Span → Json
  | .mk place type location name indexed =>
    node "Parameter" place
      [("type_name", type.toJson),
        ("storage_location", ofText? (location.map StorageLocation.text)),
        ("name", ofText? name), ("is_indexed", .bool indexed)]

/-- Parameters as nodes. -/
def Parameter.listToJson : List (Parameter Span) → List Json
  | [] => []
  | p :: ps => p.toJson :: Parameter.listToJson ps

end

/-- Parameters that may be missing. -/
def Parameter.listOptionToJson (parameters : Option (List (Parameter Span))) : Json :=
  .of? (fun parameters => .array (Parameter.listToJson parameters)) parameters

/-! ## Statements -/

/-- A declared variable as a node. -/
def VariableDeclaration.toJson (declaration : VariableDeclaration Span) : Json :=
  node "VariableDeclaration" declaration.place
    [("type_name", declaration.type.toJson),
      ("storage_location", ofText? (declaration.location.map StorageLocation.text)),
      ("name", .string declaration.name)]

mutual

/-- A statement as a node. -/
def Statement.toJson : Statement .located → Json
  | .block body => body.toJson
  | .expression place value => node "ExpressionStatement" place [("expression", value.toJson)]
  | .declaration place slots initial =>
    node "VariableDeclarationStatement" place
      [("declarations", .array (slots.map (.of? VariableDeclaration.toJson))),
        ("initial_value", Expression.optionToJson initial)]
  | .ifElse place test consequent alternate =>
    node "IfStatement" place
      [("test", test.toJson), ("consequent", consequent.toJson),
        ("alternate", Statement.optionToJson alternate)]
  | .forLoop place initial test update body =>
    node "ForStatement" place
      [("init", Statement.optionToJson initial), ("test", Expression.optionToJson test),
        ("update", Expression.optionToJson update), ("body", body.toJson)]
  | .whileLoop place test body =>
    node "WhileStatement" place [("test", test.toJson), ("body", body.toJson)]
  | .doWhile place body test =>
    node "DoWhileStatement" place [("body", body.toJson), ("test", test.toJson)]
  | .tryCatch place call returns body clauses =>
    node "TryStatement" place
      [("expression", call.toJson), ("returns", Parameter.listOptionToJson returns),
        ("body", body.toJson), ("catchClauses", .array (CatchClause.listToJson clauses))]
  | .returned place argument =>
    node "ReturnStatement" place [("argument", Expression.optionToJson argument)]
  | .emit place event => node "EmitStatement" place [("expression", event.toJson)]
  | .revert place error => node "RevertStatement" place [("expression", error.toJson)]
  | .breakLoop place => node "BreakStatement" place []
  | .continueLoop place => node "ContinueStatement" place []
  | .throwError place => node "ThrowStatement" place []
  | .unchecked place body => node "UncheckedStatement" place [("body", body.toJson)]
  | .assembly place language flags body =>
    node "InlineAssemblyStatement" place
      [("language", ofText? language), ("flags", .array (flags.map .string)),
        ("body", .string body)]
  | .placeholder place => node "PlaceholderStatement" place []
  | .incomplete place => node "IncompleteStatement" place []

/-- A statement that may be missing. -/
def Statement.optionToJson : Option (Statement .located) → Json
  | none => .null
  | some statement => statement.toJson

/-- Statements as nodes. -/
def Statement.listToJson : List (Statement .located) → List Json
  | [] => []
  | statement :: statements => statement.toJson :: Statement.listToJson statements

/-- A block as a node. -/
def Block.toJson : Block .located → Json
  | .mk place body => node "Block" place [("body", .array (Statement.listToJson body))]

/-- What to do when a call failed, as a node. -/
def CatchClause.toJson : CatchClause .located → Json
  | .mk place kind parameters body =>
    node "CatchClause" place
      [("kind", ofText? kind), ("parameters", Parameter.listOptionToJson parameters),
        ("body", body.toJson)]

/-- Clauses as nodes. -/
def CatchClause.listToJson : List (CatchClause .located) → List Json
  | [] => []
  | clause :: clauses => clause.toJson :: CatchClause.listToJson clauses

end

/-- A block that may be missing. -/
def Block.optionToJson : Option (Block .located) → Json := .of? Block.toJson

/-! ## Parts shared by declarations -/

/-- A path of names as a node. -/
def NamePath.toJson (path : NamePath Span) : Json :=
  node "UserDefinedTypeName" path.place [("name_path", .string path.path)]

/-- An invocation as a node of a type: a modifier or a base. -/
def Invocation.toJson (type : String) (invocation : Invocation Span) : Json :=
  node type invocation.place
    [("name", .string invocation.name),
      ("arguments", .of? (fun values => .array (Expression.listToJson values))
        invocation.arguments)]

/-- The modifiers of a function. -/
def modifiersToJson (modifiers : List (Invocation Span)) : Json :=
  .array (modifiers.map (Invocation.toJson "ModifierInvocation"))

/-- What a declaration overrides. -/
def overridesToJson (overrides : Option (List (NamePath Span))) : Json :=
  .ofList? NamePath.toJson overrides

/-- A visibility that may be missing. -/
def Visibility.optionToJson (visibility : Option Visibility) : Json :=
  ofText? (visibility.map Visibility.text)

/-- A mutability that may be missing. -/
def StateMutability.optionToJson (mutability : Option StateMutability) : Json :=
  ofText? (mutability.map StateMutability.text)

/-! ## Members of contracts -/

/-- A variable of a contract as a node. -/
def StateVariable.toJson (declared : StateVariable Span) : Json :=
  node "StateVariableDeclaration" declared.place
    [("type_name", declared.type.toJson), ("name", .string declared.name),
      ("visibility", Visibility.optionToJson declared.visibility),
      ("is_constant", .bool declared.isConstant), ("is_immutable", .bool declared.isImmutable),
      ("override", overridesToJson declared.overrides),
      ("value", Expression.optionToJson declared.value)]

/-- A constructor as a node. -/
def Constructor.toJson (declaration : Constructor .located) : Json :=
  node "ConstructorDeclaration" declaration.place
    [("parameters", .array (Parameter.listToJson declaration.parameters)),
      ("modifiers", modifiersToJson declaration.modifiers),
      ("visibility", Visibility.optionToJson declaration.visibility),
      ("state_mutability", StateMutability.optionToJson declaration.mutability),
      ("body", declaration.body.toJson)]

/-- A receiving function as a node. -/
def ReceiveFunction.toJson (declaration : ReceiveFunction .located) : Json :=
  let attributes := declaration.attributes
  node "ReceiveDeclaration" declaration.place
    [("modifiers", modifiersToJson attributes.modifiers),
      ("visibility", Visibility.optionToJson attributes.visibility),
      ("state_mutability", StateMutability.optionToJson attributes.mutability),
      ("is_virtual", .bool attributes.isVirtual),
      ("override", overridesToJson attributes.overrides),
      ("body", Block.optionToJson declaration.body)]

/-- A fallback function as a node. -/
def FallbackFunction.toJson (declaration : FallbackFunction .located) : Json :=
  let attributes := declaration.attributes
  node "FallbackDeclaration" declaration.place
    [("parameters", .array (Parameter.listToJson declaration.parameters)),
      ("return_parameters", Parameter.listOptionToJson declaration.returns),
      ("modifiers", modifiersToJson attributes.modifiers),
      ("visibility", Visibility.optionToJson attributes.visibility),
      ("state_mutability", StateMutability.optionToJson attributes.mutability),
      ("is_virtual", .bool attributes.isVirtual),
      ("override", overridesToJson attributes.overrides),
      ("body", Block.optionToJson declaration.body)]

/-- A function as a node. -/
def FunctionDeclaration.toJson (declaration : FunctionDeclaration .located) : Json :=
  let attributes := declaration.attributes
  node "FunctionDeclaration" declaration.place
    [("name", .string declaration.name),
      ("parameters", .array (Parameter.listToJson declaration.parameters)),
      ("return_parameters", Parameter.listOptionToJson declaration.returns),
      ("visibility", Visibility.optionToJson attributes.visibility),
      ("state_mutability", StateMutability.optionToJson attributes.mutability),
      ("modifiers", modifiersToJson attributes.modifiers),
      ("is_virtual", .bool attributes.isVirtual),
      ("override", overridesToJson attributes.overrides),
      ("body", Block.optionToJson declaration.body)]

/-- A modifier as a node. -/
def ModifierDeclaration.toJson (declaration : ModifierDeclaration .located) : Json :=
  node "ModifierDeclaration" declaration.place
    [("name", .string declaration.name),
      ("parameters", Parameter.listOptionToJson declaration.parameters),
      ("is_virtual", .bool declaration.isVirtual),
      ("override", overridesToJson declaration.overrides),
      ("body", Block.optionToJson declaration.body)]

/-- An event as a node. -/
def EventDefinition.toJson (event : EventDefinition Span) : Json :=
  node "EventDefinition" event.place
    [("name", .string event.name),
      ("parameters", .array (Parameter.listToJson event.parameters)),
      ("is_anonymous", .bool event.isAnonymous)]

/-- An error as a node. -/
def ErrorDefinition.toJson (error : ErrorDefinition Span) : Json :=
  node "ErrorDeclaration" error.place
    [("name", .string error.name),
      ("parameters", .array (Parameter.listToJson error.parameters))]

/-- A struct as a node. -/
def StructDefinition.toJson (struct : StructDefinition Span) : Json :=
  node "StructDeclaration" struct.place
    [("name", .string struct.name),
      ("members", .array (struct.members.map VariableDeclaration.toJson))]

/-- An enumeration as a node. -/
def EnumDefinition.toJson (enumeration : EnumDefinition Span) : Json :=
  node "EnumDeclaration" enumeration.place
    [("name", .string enumeration.name),
      ("members", .array (enumeration.members.map Identifier.toJson))]

/-- A directive that attaches functions as a node. -/
def UsingDirective.toJson (directive : UsingDirective Span) : Json :=
  node "UsingStatement" directive.place
    [("library", ofText? directive.library),
      ("functions", .array (directive.functions.map .string)),
      ("for", .of? TypeName.toJson directive.target), ("is_global", .bool directive.isGlobal)]

/-- A type definition as a node. -/
def ValueTypeDefinition.toJson (definition : ValueTypeDefinition Span) : Json :=
  node "UserDefinedValueTypeDeclaration" definition.place
    [("name", .string definition.name),
      ("underlying_type",
        TypeName.toJson (.elementary definition.basePlace definition.baseName
          definition.payable))]

/-- A member of a contract as a node. -/
def ContractPart.toJson : ContractPart .located → Json
  | .stateVariable declaration => declaration.toJson
  | .constructor declaration => declaration.toJson
  | .receive declaration => declaration.toJson
  | .fallback declaration => declaration.toJson
  | .function declaration => declaration.toJson
  | .modifier declaration => declaration.toJson
  | .event definition => definition.toJson
  | .error definition => definition.toJson
  | .struct definition => definition.toJson
  | .enumeration definition => definition.toJson
  | .usingDirective directive => directive.toJson
  | .valueType definition => definition.toJson

/-! ## Units of a source -/

/-- A version constraint as a node. -/
def VersionLiteral.toJson (literal : VersionLiteral) : Json :=
  node "VersionLiteral" literal.span
    [("operator", ofText? literal.operator), ("version", .string literal.version)]

/-- A pragma as a node. -/
def Pragma.toJson (pragma : Pragma .located) : Json :=
  node "PragmaStatement" pragma.place
    [("name", .string pragma.name), ("value", .string pragma.value.text),
      ("start_version", .of? VersionLiteral.toJson pragma.value.startVersion),
      ("end_version", .of? VersionLiteral.toJson pragma.value.endVersion)]

/-- The pragma that chooses the coder as a node. -/
def CoderPragma.toJson (pragma : CoderPragma Span) : Json :=
  node "AbiCoderPragmaStatement" pragma.place [("version", pragma.version.toJson)]

/-- The pragma that turns on a feature as a node. -/
def ExperimentalPragma.toJson (pragma : ExperimentalPragma Span) : Json :=
  node "ExperimentalPragmaStatement" pragma.place [("feature", .string pragma.feature)]

/-- An imported name as a node. -/
def ImportSymbol.toJson (symbol : ImportSymbol Span) : Json :=
  node "ImportSymbol" symbol.place
    [("name", .string symbol.name), ("alias", ofText? symbol.newName)]

/-- An import as a node. -/
def ImportDirective.toJson (directive : ImportDirective Span) : Json :=
  node "ImportStatement" directive.place
    [("from", .string directive.path), ("alias", ofText? directive.newName),
      ("symbols", .ofList? ImportSymbol.toJson directive.symbols)]

/-- A contract as a node. -/
def Contract.toJson (contract : Contract .located) : Json :=
  node "ContractStatement" contract.place
    [("name", .string contract.name), ("kind", .string contract.kind.text),
      ("is_abstract", .bool contract.isAbstract),
      ("is", .array (contract.bases.map (Invocation.toJson "InheritanceSpecifier"))),
      ("body", .array (contract.body.map ContractPart.toJson))]

/-- A constant at file level as a node. -/
def FileConstant.toJson (declaration : FileConstant Span) : Json :=
  node "ConstantVariableDeclaration" declaration.place
    [("type_name", declaration.type.toJson), ("name", .string declaration.name),
      ("value", declaration.value.toJson)]

/-- A unit of a source as a node. -/
def SourceUnit.toJson : SourceUnit .located → Json
  | .pragma directive => directive.toJson
  | .coderPragma directive => directive.toJson
  | .experimentalPragma directive => directive.toJson
  | .importDirective directive => directive.toJson
  | .contract declaration => declaration.toJson
  | .function declaration => declaration.toJson
  | .struct definition => definition.toJson
  | .enumeration definition => definition.toJson
  | .error definition => definition.toJson
  | .event definition => definition.toJson
  | .usingDirective directive => directive.toJson
  | .valueType definition => definition.toJson
  | .constant declaration => declaration.toJson

/-- A program as a node. -/
def Program.toJson (program : Program) : Json :=
  node "Program" program.span [("body", .array (program.body.map SourceUnit.toJson))]

end SolidityParser
