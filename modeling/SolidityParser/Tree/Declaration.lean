import SolidityParser.Tree.Statement

/-!
# Declarations

The members of contracts and the units of a source: pragmas, imports, contracts and declarations at
file level. None of them contains itself, so each is a structure with a `relocate` of its own.
-/

namespace SolidityParser

variable {F G : Form} {σ τ : Type}

/-! ## Parts shared by declarations -/

/-- A path of names with points between, as it names a type, a base or a modifier. -/
structure NamePath (σ : Type) where
  /-- Where the path stands. -/
  place : σ
  /-- The names, joined by points. -/
  path : String

/-- The path with its place changed. -/
def NamePath.relocate (f : σ → τ) (path : NamePath σ) : NamePath τ := ⟨f path.place, path.path⟩

/-- A name with arguments: a modifier of a function, or a base of a contract. -/
structure Invocation (σ : Type) where
  /-- Where it stands. -/
  place : σ
  /-- The path that names it. -/
  name : String
  /-- The arguments, if there are parentheses. -/
  arguments : Option (List (Expression σ))

/-- The invocation with every place in it changed. -/
def Invocation.relocate (f : σ → τ) (invocation : Invocation σ) : Invocation τ :=
  ⟨f invocation.place, invocation.name, invocation.arguments.map (Expression.relocateList f)⟩

/-- The attributes of a function, in no order. -/
structure FunctionAttributes (σ : Type) where
  /-- Who may call it. -/
  visibility : Option Visibility := none
  /-- What it does with the state. -/
  mutability : Option StateMutability := none
  /-- The modifiers, in order. -/
  modifiers : List (Invocation σ) := []
  /-- May it be overridden? -/
  isVirtual : Bool := false
  /-- What it overrides: nothing, or the bases named, of which there may be none. -/
  overrides : Option (List (NamePath σ)) := none

/-- The attributes with every place in them changed. -/
def FunctionAttributes.relocate (f : σ → τ) (attributes : FunctionAttributes σ) :
    FunctionAttributes τ where
  visibility := attributes.visibility
  mutability := attributes.mutability
  modifiers := attributes.modifiers.map (·.relocate f)
  isVirtual := attributes.isVirtual
  overrides := attributes.overrides.map (List.map (·.relocate f))

/-! ## Members of contracts -/

/-- A variable of a contract. -/
structure StateVariable (σ : Type) where
  /-- Where it stands. -/
  place : σ
  /-- The type. -/
  type : TypeName σ
  /-- The name. -/
  name : String
  /-- Who may read it. -/
  visibility : Option Visibility
  /-- Is it a constant? -/
  isConstant : Bool
  /-- Is it set by the constructor only? -/
  isImmutable : Bool
  /-- What its reading function overrides. -/
  overrides : Option (List (NamePath σ))
  /-- The initial value. -/
  value : Option (Expression σ)

/-- The variable with every place in it changed. -/
def StateVariable.relocate (f : σ → τ) (declared : StateVariable σ) : StateVariable τ :=
  { declared with
    place := f declared.place
    type := declared.type.relocate f
    overrides := declared.overrides.map (List.map (·.relocate f))
    value := Expression.relocateOption f declared.value }

/-- The constructor of a contract. -/
structure Constructor (F : Form) where
  /-- Where it stands. -/
  place : F.Place
  /-- The parameters. -/
  parameters : List (Parameter F.Place)
  /-- The modifiers, bases among them. -/
  modifiers : List (Invocation F.Place)
  /-- Who may call it. -/
  visibility : Option Visibility
  /-- What it does with the state. -/
  mutability : Option StateMutability
  /-- The body. -/
  body : Block F

/-- The constructor in another form. -/
def Constructor.relocate (r : Relocation F G) (declaration : Constructor F) : Constructor G where
  place := r.place declaration.place
  parameters := Parameter.relocateList r.place declaration.parameters
  modifiers := declaration.modifiers.map (·.relocate r.place)
  visibility := declaration.visibility
  mutability := declaration.mutability
  body := declaration.body.relocate r

/-- The function that receives a plain payment. -/
structure ReceiveFunction (F : Form) where
  /-- Where it stands. -/
  place : F.Place
  /-- The attributes. -/
  attributes : FunctionAttributes F.Place
  /-- The body, unless it is only declared. -/
  body : Option (Block F)

/-- The receiving function in another form. -/
def ReceiveFunction.relocate (r : Relocation F G) (declaration : ReceiveFunction F) :
    ReceiveFunction G where
  place := r.place declaration.place
  attributes := declaration.attributes.relocate r.place
  body := declaration.body.map (·.relocate r)

/-- The function that answers calls to no other; in old sources, one without a name. -/
structure FallbackFunction (F : Form) where
  /-- Where it stands. -/
  place : F.Place
  /-- The parameters. -/
  parameters : List (Parameter F.Place)
  /-- The results, if any are declared. -/
  returns : Option (List (Parameter F.Place))
  /-- The attributes. -/
  attributes : FunctionAttributes F.Place
  /-- The body, unless it is only declared. -/
  body : Option (Block F)

/-- The fallback function in another form. -/
def FallbackFunction.relocate (r : Relocation F G) (declaration : FallbackFunction F) :
    FallbackFunction G where
  place := r.place declaration.place
  parameters := Parameter.relocateList r.place declaration.parameters
  returns := declaration.returns.map (Parameter.relocateList r.place)
  attributes := declaration.attributes.relocate r.place
  body := declaration.body.map (·.relocate r)

/-- A function with a name. -/
structure FunctionDeclaration (F : Form) where
  /-- Where it stands. -/
  place : F.Place
  /-- The name. -/
  name : String
  /-- The parameters. -/
  parameters : List (Parameter F.Place)
  /-- The results, if any are declared. -/
  returns : Option (List (Parameter F.Place))
  /-- The attributes. -/
  attributes : FunctionAttributes F.Place
  /-- The body, unless it is only declared. -/
  body : Option (Block F)

/-- The function in another form. -/
def FunctionDeclaration.relocate (r : Relocation F G) (declaration : FunctionDeclaration F) :
    FunctionDeclaration G where
  place := r.place declaration.place
  name := declaration.name
  parameters := Parameter.relocateList r.place declaration.parameters
  returns := declaration.returns.map (Parameter.relocateList r.place)
  attributes := declaration.attributes.relocate r.place
  body := declaration.body.map (·.relocate r)

/-- A modifier of functions. -/
structure ModifierDeclaration (F : Form) where
  /-- Where it stands. -/
  place : F.Place
  /-- The name. -/
  name : String
  /-- The parameters, if there are parentheses. -/
  parameters : Option (List (Parameter F.Place))
  /-- May it be overridden? -/
  isVirtual : Bool
  /-- What it overrides. -/
  overrides : Option (List (NamePath F.Place))
  /-- The body, unless it is only declared. -/
  body : Option (Block F)

/-- The modifier in another form. -/
def ModifierDeclaration.relocate (r : Relocation F G) (declaration : ModifierDeclaration F) :
    ModifierDeclaration G where
  place := r.place declaration.place
  name := declaration.name
  parameters := declaration.parameters.map (Parameter.relocateList r.place)
  isVirtual := declaration.isVirtual
  overrides := declaration.overrides.map (List.map (·.relocate r.place))
  body := declaration.body.map (·.relocate r)

/-! ## Members of contracts that may also stand at file level -/

/-- An event. -/
structure EventDefinition (σ : Type) where
  /-- Where it stands. -/
  place : σ
  /-- The name. -/
  name : String
  /-- The parameters. -/
  parameters : List (Parameter σ)
  /-- Is it logged without its name? -/
  isAnonymous : Bool

/-- The event with every place in it changed. -/
def EventDefinition.relocate (f : σ → τ) (event : EventDefinition σ) : EventDefinition τ :=
  ⟨f event.place, event.name, Parameter.relocateList f event.parameters, event.isAnonymous⟩

/-- An error that can be raised by name. -/
structure ErrorDefinition (σ : Type) where
  /-- Where it stands. -/
  place : σ
  /-- The name. -/
  name : String
  /-- The parameters. -/
  parameters : List (Parameter σ)

/-- The error with every place in it changed. -/
def ErrorDefinition.relocate (f : σ → τ) (error : ErrorDefinition σ) : ErrorDefinition τ :=
  ⟨f error.place, error.name, Parameter.relocateList f error.parameters⟩

/-- A struct. -/
structure StructDefinition (σ : Type) where
  /-- Where it stands. -/
  place : σ
  /-- The name. -/
  name : String
  /-- The members. -/
  members : List (VariableDeclaration σ)

/-- The struct with every place in it changed. -/
def StructDefinition.relocate (f : σ → τ) (struct : StructDefinition σ) : StructDefinition τ :=
  ⟨f struct.place, struct.name, struct.members.map (·.relocate f)⟩

/-- An enumeration. -/
structure EnumDefinition (σ : Type) where
  /-- Where it stands. -/
  place : σ
  /-- The name. -/
  name : String
  /-- The members. -/
  members : List (Identifier σ)

/-- The enumeration with every place in it changed. -/
def EnumDefinition.relocate (f : σ → τ) (enumeration : EnumDefinition σ) : EnumDefinition τ :=
  ⟨f enumeration.place, enumeration.name, enumeration.members.map (·.relocate f)⟩

/-- Functions attached to a type: a library, or functions by name. -/
structure UsingDirective (σ : Type) where
  /-- Where it stands. -/
  place : σ
  /-- The library. -/
  library : Option String
  /-- The functions. -/
  functions : List String
  /-- The type, or none for every type. -/
  target : Option (TypeName σ)
  /-- Does it hold wherever the type is used? -/
  isGlobal : Bool

/-- The directive with every place in it changed. -/
def UsingDirective.relocate (f : σ → τ) (directive : UsingDirective σ) : UsingDirective τ where
  place := f directive.place
  library := directive.library
  functions := directive.functions
  target := directive.target.map (·.relocate f)
  isGlobal := directive.isGlobal

/-- A new name for a built-in type. -/
structure ValueTypeDefinition (σ : Type) where
  /-- Where it stands. -/
  place : σ
  /-- The name. -/
  name : String
  /-- Where the built-in type stands. -/
  basePlace : σ
  /-- The name of the built-in type. -/
  baseName : String
  /-- Is it a payable address? -/
  payable : Bool

/-- The type definition with every place in it changed. -/
def ValueTypeDefinition.relocate (f : σ → τ) (definition : ValueTypeDefinition σ) :
    ValueTypeDefinition τ :=
  ⟨f definition.place, definition.name, f definition.basePlace, definition.baseName,
    definition.payable⟩

/-- A member of a contract. -/
inductive ContractPart (F : Form)
  | stateVariable (declaration : StateVariable F.Place)
  | constructor (declaration : Constructor F)
  | receive (declaration : ReceiveFunction F)
  | fallback (declaration : FallbackFunction F)
  | function (declaration : FunctionDeclaration F)
  | modifier (declaration : ModifierDeclaration F)
  | event (definition : EventDefinition F.Place)
  | error (definition : ErrorDefinition F.Place)
  | struct (definition : StructDefinition F.Place)
  | enumeration (definition : EnumDefinition F.Place)
  | usingDirective (directive : UsingDirective F.Place)
  | valueType (definition : ValueTypeDefinition F.Place)

/-- Where a member stands. -/
def ContractPart.place : ContractPart F → F.Place
  | .stateVariable declaration => declaration.place
  | .constructor declaration => declaration.place
  | .receive declaration => declaration.place
  | .fallback declaration => declaration.place
  | .function declaration => declaration.place
  | .modifier declaration => declaration.place
  | .event definition => definition.place
  | .error definition => definition.place
  | .struct definition => definition.place
  | .enumeration definition => definition.place
  | .usingDirective directive => directive.place
  | .valueType definition => definition.place

/-- The member in another form. -/
def ContractPart.relocate (r : Relocation F G) : ContractPart F → ContractPart G
  | .stateVariable declaration => .stateVariable (declaration.relocate r.place)
  | .constructor declaration => .constructor (declaration.relocate r)
  | .receive declaration => .receive (declaration.relocate r)
  | .fallback declaration => .fallback (declaration.relocate r)
  | .function declaration => .function (declaration.relocate r)
  | .modifier declaration => .modifier (declaration.relocate r)
  | .event definition => .event (definition.relocate r.place)
  | .error definition => .error (definition.relocate r.place)
  | .struct definition => .struct (definition.relocate r.place)
  | .enumeration definition => .enumeration (definition.relocate r.place)
  | .usingDirective directive => .usingDirective (directive.relocate r.place)
  | .valueType definition => .valueType (definition.relocate r.place)

/-! ## Units of a source -/

/-- A pragma, with its value unread. -/
structure Pragma (F : Form) where
  /-- Where it stands. -/
  place : F.Place
  /-- The name. -/
  name : String
  /-- The value. -/
  value : F.Value

/-- The pragma in another form. -/
def Pragma.relocate (r : Relocation F G) (pragma : Pragma F) : Pragma G :=
  ⟨r.place pragma.place, pragma.name, r.value pragma.value⟩

/-- The pragma that chooses the coder. -/
structure CoderPragma (σ : Type) where
  /-- Where it stands. -/
  place : σ
  /-- The version. -/
  version : Identifier σ

/-- The pragma with every place in it changed. -/
def CoderPragma.relocate (f : σ → τ) (pragma : CoderPragma σ) : CoderPragma τ :=
  ⟨f pragma.place, pragma.version.relocate f⟩

/-- The pragma that turns on a feature. -/
structure ExperimentalPragma (σ : Type) where
  /-- Where it stands. -/
  place : σ
  /-- The feature. -/
  feature : String

/-- The pragma with its place changed. -/
def ExperimentalPragma.relocate (f : σ → τ) (pragma : ExperimentalPragma σ) :
    ExperimentalPragma τ :=
  ⟨f pragma.place, pragma.feature⟩

/-- A name that is imported, and the name it gets. -/
structure ImportSymbol (σ : Type) where
  /-- Where it stands. -/
  place : σ
  /-- The name. -/
  name : String
  /-- The name it gets. -/
  newName : Option String

/-- The imported name with its place changed. -/
def ImportSymbol.relocate (f : σ → τ) (symbol : ImportSymbol σ) : ImportSymbol τ :=
  ⟨f symbol.place, symbol.name, symbol.newName⟩

/-- An import. -/
structure ImportDirective (σ : Type) where
  /-- Where it stands. -/
  place : σ
  /-- The path of the source imported. -/
  path : String
  /-- The name that stands for all of it. -/
  newName : Option String
  /-- The names imported, if they are listed. -/
  symbols : Option (List (ImportSymbol σ))

/-- The import with every place in it changed. -/
def ImportDirective.relocate (f : σ → τ) (directive : ImportDirective σ) : ImportDirective τ :=
  ⟨f directive.place, directive.path, directive.newName,
    directive.symbols.map (List.map (·.relocate f))⟩

/-- A contract, interface or library. -/
structure Contract (F : Form) where
  /-- Where it stands. -/
  place : F.Place
  /-- The name. -/
  name : String
  /-- Contract, interface or library. -/
  kind : ContractKind
  /-- Is it abstract? -/
  isAbstract : Bool
  /-- The bases. -/
  bases : List (Invocation F.Place)
  /-- The members. -/
  body : List (ContractPart F)

/-- The contract in another form. -/
def Contract.relocate (r : Relocation F G) (contract : Contract F) : Contract G where
  place := r.place contract.place
  name := contract.name
  kind := contract.kind
  isAbstract := contract.isAbstract
  bases := contract.bases.map (·.relocate r.place)
  body := contract.body.map (·.relocate r)

/-- A constant at file level. -/
structure FileConstant (σ : Type) where
  /-- Where it stands. -/
  place : σ
  /-- The type. -/
  type : TypeName σ
  /-- The name. -/
  name : String
  /-- The value. -/
  value : Expression σ

/-- The constant with every place in it changed. -/
def FileConstant.relocate (f : σ → τ) (declaration : FileConstant σ) : FileConstant τ :=
  ⟨f declaration.place, declaration.type.relocate f, declaration.name,
    declaration.value.relocate f⟩

/-- A unit of a source. -/
inductive SourceUnit (F : Form)
  | pragma (directive : Pragma F)
  | coderPragma (directive : CoderPragma F.Place)
  | experimentalPragma (directive : ExperimentalPragma F.Place)
  | importDirective (directive : ImportDirective F.Place)
  | contract (declaration : Contract F)
  | function (declaration : FunctionDeclaration F)
  | struct (definition : StructDefinition F.Place)
  | enumeration (definition : EnumDefinition F.Place)
  | error (definition : ErrorDefinition F.Place)
  | event (definition : EventDefinition F.Place)
  | usingDirective (directive : UsingDirective F.Place)
  | valueType (definition : ValueTypeDefinition F.Place)
  | constant (declaration : FileConstant F.Place)

/-- Where a unit stands. -/
def SourceUnit.place : SourceUnit F → F.Place
  | .pragma directive => directive.place
  | .coderPragma directive => directive.place
  | .experimentalPragma directive => directive.place
  | .importDirective directive => directive.place
  | .contract declaration => declaration.place
  | .function declaration => declaration.place
  | .struct definition => definition.place
  | .enumeration definition => definition.place
  | .error definition => definition.place
  | .event definition => definition.place
  | .usingDirective directive => directive.place
  | .valueType definition => definition.place
  | .constant declaration => declaration.place

/-- The unit in another form. -/
def SourceUnit.relocate (r : Relocation F G) : SourceUnit F → SourceUnit G
  | .pragma directive => .pragma (directive.relocate r)
  | .coderPragma directive => .coderPragma (directive.relocate r.place)
  | .experimentalPragma directive => .experimentalPragma (directive.relocate r.place)
  | .importDirective directive => .importDirective (directive.relocate r.place)
  | .contract declaration => .contract (declaration.relocate r)
  | .function declaration => .function (declaration.relocate r)
  | .struct definition => .struct (definition.relocate r.place)
  | .enumeration definition => .enumeration (definition.relocate r.place)
  | .error definition => .error (definition.relocate r.place)
  | .event definition => .event (definition.relocate r.place)
  | .usingDirective directive => .usingDirective (directive.relocate r.place)
  | .valueType definition => .valueType (definition.relocate r.place)
  | .constant declaration => .constant (declaration.relocate r.place)

/-- A source in a form that places it: its extent in bytes, and its units. -/
structure Program where
  /-- The whole source. -/
  span : Span
  /-- The units. -/
  body : List (SourceUnit .located)

/-- The paths of the imports among units. -/
def SourceUnit.importPaths (units : List (SourceUnit F)) : List String :=
  units.filterMap fun unit => match unit with
    | .importDirective directive => some directive.path
    | _ => none

end SolidityParser
