import SolidityParser.Literal.Kind
import SolidityParser.Literal.Number
import SolidityParser.Tree.Attribute
import SolidityParser.Tree.Operator

/-!
# Expressions and type names

Expressions and type names contain each other: an array type has a length, `new` names a type. All
are placed by a type `σ` of places, and `relocate` moves a tree from one such type to another.
-/

namespace SolidityParser

/-- A name where it is used or declared. -/
structure Identifier (σ : Type) where
  /-- Where it stands. -/
  place : σ
  /-- The name. -/
  name : String
deriving DecidableEq

mutual

/-- An expression. -/
inductive Expression (σ : Type) : Type
  /-- A name; `payable` and `type` too, where they are called. -/
  | identifier (place : σ) (name : String)
  /-- A number as written, with its unit. -/
  | number (place : σ) (value : NumberValue) (raw : String) (unit : Option String)
  /-- One or more adjacent strings; the kind is that of the first. -/
  | string (place : σ) (value : String) (kind : StringKind)
  /-- Either truth value. -/
  | boolean (place : σ) (value : Bool)
  /-- A member of an object: `object.property`. -/
  | member (place : σ) (object : Expression σ) (property : Identifier σ)
  /-- An element: `object[subscript]`, or `object[]` where an array type is named. -/
  | index (place : σ) (object : Expression σ) (subscript : Option (Expression σ))
  /-- A range of elements: `object[first:last]`. -/
  | slice (place : σ) (object : Expression σ) (first last : Option (Expression σ))
  /-- A call: `callee(arguments)`. -/
  | call (place : σ) (callee : Expression σ) (arguments : Arguments σ)
  /-- Options of a call yet to come, in braces. -/
  | callOptions (place : σ) (callee : Expression σ) (options : List (NamedArgument σ))
  /-- An operator before its operand if `leading`, else after it. -/
  | unary (place : σ) (operator : UnaryOp) (leading : Bool) (argument : Expression σ)
  /-- An operator between its operands. -/
  | binary (place : σ) (operator : BinaryOp) (left right : Expression σ)
  /-- An assignment. -/
  | assignment (place : σ) (operator : AssignOp) (left right : Expression σ)
  /-- A choice: `test ? consequent : alternate`. -/
  | conditional (place : σ) (test consequent alternate : Expression σ)
  /-- A tuple in parentheses, or an array in brackets. A tuple may leave components out. -/
  | tuple (place : σ) (components : List (Option (Expression σ))) (isArray : Bool)
  /-- The word `new` and the name of a type. -/
  | new (place : σ) (type : TypeName σ)

/-- The arguments of a call, by position or by name. -/
inductive Arguments (σ : Type) : Type
  | positional (values : List (Expression σ))
  | named (values : List (NamedArgument σ))

/-- An argument given by name. -/
inductive NamedArgument (σ : Type) : Type
  | mk (place : σ) (name : String) (value : Expression σ)

/-- The name of a type. -/
inductive TypeName (σ : Type) : Type
  /-- A built-in type; `payable` for a payable address. -/
  | elementary (place : σ) (name : String) (payable : Bool)
  /-- A declared type, as a path of names with points between. -/
  | userDefined (place : σ) (path : String)
  /-- A mapping, whose key and value may have names. -/
  | mapping (place : σ) (key : TypeName σ) (keyName : Option String) (value : TypeName σ)
      (valueName : Option String)
  /-- An array, with a length or without. -/
  | array (place : σ) (base : TypeName σ) (length : Option (Expression σ))
  /-- The type of a function. -/
  | function (place : σ) (parameters returns : List (Parameter σ))
      (visibility : Option Visibility) (mutability : Option StateMutability)

/-- A parameter of a function, event, error or function type. -/
inductive Parameter (σ : Type) : Type
  | mk (place : σ) (type : TypeName σ) (location : Option StorageLocation) (name : Option String)
      (indexed : Bool)

end

/-! ## Places -/

/-- Where an expression stands. -/
def Expression.place {σ : Type} : Expression σ → σ
  | .identifier place .. | .number place .. | .string place .. | .boolean place ..
  | .member place .. | .index place .. | .slice place .. | .call place ..
  | .callOptions place .. | .unary place .. | .binary place .. | .assignment place ..
  | .conditional place .. | .tuple place .. | .new place .. => place

/-- Where a type name stands. -/
def TypeName.place {σ : Type} : TypeName σ → σ
  | .elementary place .. | .userDefined place .. | .mapping place .. | .array place ..
  | .function place .. => place

/-- Where a named argument stands. -/
def NamedArgument.place {σ : Type} : NamedArgument σ → σ
  | .mk place .. => place

/-- Where a parameter stands. -/
def Parameter.place {σ : Type} : Parameter σ → σ
  | .mk place .. => place

/-- The name of a parameter. -/
def Parameter.name {σ : Type} : Parameter σ → Option String
  | .mk _ _ _ name _ => name

/-! ## Moving from one type of places to another -/

/-- The identifier with its place changed. -/
def Identifier.relocate {σ τ : Type} (f : σ → τ) (identifier : Identifier σ) : Identifier τ :=
  ⟨f identifier.place, identifier.name⟩

mutual

/-- The expression with every place in it changed. -/
def Expression.relocate {σ τ : Type} (f : σ → τ) : Expression σ → Expression τ
  | .identifier place name => .identifier (f place) name
  | .number place value raw unit => .number (f place) value raw unit
  | .string place value kind => .string (f place) value kind
  | .boolean place value => .boolean (f place) value
  | .member place object property =>
    .member (f place) (object.relocate f) (property.relocate f)
  | .index place object subscript =>
    .index (f place) (object.relocate f) (Expression.relocateOption f subscript)
  | .slice place object first last =>
    .slice (f place) (object.relocate f) (Expression.relocateOption f first)
      (Expression.relocateOption f last)
  | .call place callee arguments =>
    .call (f place) (callee.relocate f) (arguments.relocate f)
  | .callOptions place callee options =>
    .callOptions (f place) (callee.relocate f) (NamedArgument.relocateList f options)
  | .unary place operator leading argument =>
    .unary (f place) operator leading (argument.relocate f)
  | .binary place operator left right =>
    .binary (f place) operator (left.relocate f) (right.relocate f)
  | .assignment place operator left right =>
    .assignment (f place) operator (left.relocate f) (right.relocate f)
  | .conditional place test consequent alternate =>
    .conditional (f place) (test.relocate f) (consequent.relocate f) (alternate.relocate f)
  | .tuple place components isArray =>
    .tuple (f place) (Expression.relocateSlots f components) isArray
  | .new place type => .new (f place) (type.relocate f)

/-- Relocates an expression that may be missing. -/
def Expression.relocateOption {σ τ : Type} (f : σ → τ) :
    Option (Expression σ) → Option (Expression τ)
  | none => none
  | some e => some (e.relocate f)

/-- Relocates the components of a tuple. -/
def Expression.relocateSlots {σ τ : Type} (f : σ → τ) :
    List (Option (Expression σ)) → List (Option (Expression τ))
  | [] => []
  | slot :: slots => Expression.relocateOption f slot :: Expression.relocateSlots f slots

/-- Relocates each expression of a list. -/
def Expression.relocateList {σ τ : Type} (f : σ → τ) : List (Expression σ) → List (Expression τ)
  | [] => []
  | e :: es => e.relocate f :: Expression.relocateList f es

/-- The arguments with every place in them changed. -/
def Arguments.relocate {σ τ : Type} (f : σ → τ) : Arguments σ → Arguments τ
  | .positional values => .positional (Expression.relocateList f values)
  | .named values => .named (NamedArgument.relocateList f values)

/-- The named argument with every place in it changed. -/
def NamedArgument.relocate {σ τ : Type} (f : σ → τ) : NamedArgument σ → NamedArgument τ
  | .mk place name value => .mk (f place) name (value.relocate f)

/-- Relocates each named argument of a list. -/
def NamedArgument.relocateList {σ τ : Type} (f : σ → τ) :
    List (NamedArgument σ) → List (NamedArgument τ)
  | [] => []
  | a :: as => a.relocate f :: NamedArgument.relocateList f as

/-- The type name with every place in it changed. -/
def TypeName.relocate {σ τ : Type} (f : σ → τ) : TypeName σ → TypeName τ
  | .elementary place name payable => .elementary (f place) name payable
  | .userDefined place path => .userDefined (f place) path
  | .mapping place key keyName value valueName =>
    .mapping (f place) (key.relocate f) keyName (value.relocate f) valueName
  | .array place base length =>
    .array (f place) (base.relocate f) (Expression.relocateOption f length)
  | .function place parameters returns visibility mutability =>
    .function (f place) (Parameter.relocateList f parameters) (Parameter.relocateList f returns)
      visibility mutability

/-- The parameter with every place in it changed. -/
def Parameter.relocate {σ τ : Type} (f : σ → τ) : Parameter σ → Parameter τ
  | .mk place type location name indexed =>
    .mk (f place) (type.relocate f) location name indexed

/-- Relocates each parameter of a list. -/
def Parameter.relocateList {σ τ : Type} (f : σ → τ) : List (Parameter σ) → List (Parameter τ)
  | [] => []
  | p :: ps => p.relocate f :: Parameter.relocateList f ps

end

end SolidityParser
