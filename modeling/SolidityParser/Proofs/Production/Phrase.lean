import SolidityParser.Proofs.Production.Attribute
import SolidityParser.Proofs.Tree.Level

/-!
# How phrases are written

`Part.Phrased` has one production for each way to write a name, an expression, a type, a parameter,
a declaration of variables, and any other declaration that has no statements in it. None of them
depends on how the grammar goes about reading, but for the words that must not come next: a number
takes a unit if one follows, strings take the strings after them, a type takes every point with a
name after it, and so on.

A tree is a phrase of an input if each of its parts is written by a production where it stands, and
the operands of its expressions bind tightly enough (`Lexemes.IsPhrase`).
-/

namespace SolidityParser

open SolidityParser.Symbol (option separated series)
open Grammar (isElementary VariableAttributes)

/-! ### Words that must not come next -/

namespace Lookahead

/-- The unit of a number. -/
def unit : Lookahead := [fun lexeme => lexeme.kind == .ident && isNumberUnit lexeme.text]

/-- A string. -/
def string : Lookahead := [fun lexeme => lexeme.kind.isString]

/-- A point with a name after it. -/
def step : Lookahead := kinds [.dot, .ident]

/-- Options for a call. -/
def options : Lookahead := kinds [.lbrace, .ident, .colon]

end Lookahead

section Ahead

variable {lexemes : Lexemes} {i : Nat}

/-- A token of a kind ahead. -/
theorem Lexemes.ahead_kind {k : Kind} (h : k ≠ .eof ∧ k ≠ .semicolon) :
    lexemes.Ahead i (.kinds [k]) ↔ lexemes.kindAt i = k := by
  rw [ahead_kinds (by simpa using h)]
  simp

theorem Lexemes.ahead_unit :
    lexemes.Ahead i .unit ↔
      lexemes.kindAt i = .ident ∧ isNumberUnit (lexemes.textAt i) = true := by
  simp only [Lookahead.unit, ahead_cons, ahead_nil, lexemeAt, Bool.and_eq_true, beq_iff_eq]
  constructor
  · exact fun h => h.1
  · exact fun h => ⟨h, by rw [h.1]; decide, by rw [h.1]; decide, trivial⟩

theorem Lexemes.ahead_string :
    lexemes.Ahead i .string ↔ (lexemes.kindAt i).isString = true := by
  simp only [Lookahead.string, ahead_cons, ahead_nil, lexemeAt]
  constructor
  · exact fun h => h.1
  · refine fun h => ⟨h, ?_, ?_, trivial⟩ <;> intro hk <;> rw [hk] at h <;> cases h

theorem Lexemes.ahead_step :
    lexemes.Ahead i .step ↔ lexemes.kindAt i = .dot ∧ lexemes.kindAt (i + 1) = .ident := by
  rw [Lookahead.step, ahead_kinds (by decide)]
  exact ⟨fun h => ⟨h 0 (by decide), h 1 (by decide)⟩, fun h n hn =>
    match n, hn with
    | 0, _ => h.1
    | 1, _ => h.2⟩

theorem Lexemes.ahead_options :
    lexemes.Ahead i .options ↔ lexemes.kindAt i = .lbrace ∧ lexemes.kindAt (i + 1) = .ident ∧
      lexemes.kindAt (i + 2) = .colon := by
  rw [Lookahead.options, ahead_kinds (by decide)]
  exact ⟨fun h => ⟨h 0 (by decide), h 1 (by decide), h 2 (by decide)⟩, fun h n hn =>
    match n, hn with
    | 0, _ => h.1
    | 1, _ => h.2.1
    | 2, _ => h.2.2⟩

end Ahead

/-! ### Attributes -/

/-- The keyword of a data location, if there is one. -/
def Symbol.location (location : Option StorageLocation) : List Symbol :=
  location.toList.map fun location => .token location.kind

/-- A name, if there is one. -/
def Symbol.name (name : Option String) : List Symbol := name.toList.map (.word .ident)

/-- Is this an attribute of a function type? -/
def Kind.isTypeAttribute (kind : Kind) : Bool :=
  (Visibility.ofKind? kind).isSome || (StateMutability.ofKind? kind).isSome

/-- The attributes of a function type after one more. -/
def attributesAfter (attributes : Option Visibility × Option StateMutability) (kind : Kind) :
    Option Visibility × Option StateMutability :=
  match Visibility.ofKind? kind with
  | some visibility => (some visibility, attributes.2)
  | none => (attributes.1, StateMutability.ofKind? kind)

/-- Is a parameter indexed? -/
def Parameter.isIndexed {σ : Type} : Parameter σ → Bool
  | .mk _ _ _ _ indexed => indexed

/-- Parameters between parentheses. -/
def Symbol.parameters (parameters : List (Parameter Extent)) : List Symbol :=
  .token .lparen :: series .rparen (parameters.map fun p => [.part p.place])

/-- Parameters after `returns`, or no `returns`. -/
def Symbol.returns : Option (List (Parameter Extent)) → List Symbol
  | none => [.no (.kinds [.kwReturns])]
  | some parameters => .token .kwReturns :: Symbol.parameters parameters

/-! ### Symbols of declarations -/

namespace Symbol

/-- Arguments between parentheses, if there are parentheses. -/
def arguments : Option (List (Expression Extent)) → List Symbol
  | none => []
  | some values => .token .lparen :: series .rparen (values.map fun e => [.part e.place])

/-- A value after an equals sign, if there is one. -/
def initialValue (value : Option (Expression Extent)) : List Symbol :=
  value.toList.flatMap fun e => [.token .eq, .part e.place]

/-- A new name after `as`, if there is one. -/
def newName (name : Option String) : List Symbol :=
  name.toList.flatMap fun name => [.token .kwAs, .word .ident name]

/-- What an import takes its names from. -/
def origin (raw : String) : List Symbol :=
  [.word .ident "from", .word .string raw, .token .semicolon]

/-- The type that functions are attached to, or a star, and where they are attached. -/
def attachment (target : Option (TypeName Extent)) (isGlobal : Bool) : List Symbol :=
  .token .kwFor :: (match target with
    | none => [.token .star]
    | some type => [.part type.place]) ++
    (if isGlobal then [.word .ident "global"] else []) ++ [.token .semicolon]

end Symbol

/-- The unit as a member of a contract, if it may be one. -/
def SourceUnit.member? {F : Form} : SourceUnit F → Option (ContractPart F)
  | .function declaration => some (.function declaration)
  | .struct definition => some (.struct definition)
  | .enumeration definition => some (.enumeration definition)
  | .error definition => some (.error definition)
  | .event definition => some (.event definition)
  | .usingDirective directive => some (.usingDirective directive)
  | .valueType definition => some (.valueType definition)
  | .pragma _ | .coderPragma _ | .experimentalPragma _ | .importDirective _ | .contract _
  | .constant _ => none

namespace SourceUnit

variable {F : Form} {unit : SourceUnit F} {member : ContractPart F}

/-- A unit that may be a member stands where the member does. -/
theorem place_of_member? (h : unit.member? = some member) : member.place = unit.place := by
  cases unit <;> cases h <;> rfl

/-- A unit that may be a member has the same parts. -/
theorem fields_of_member? (h : unit.member? = some member) :
    (Part.member member).fields = (Part.unit unit).fields := by
  cases unit <;> cases h <;> rfl

end SourceUnit

/-! ### Productions -/

namespace Part

/-- How a part is written. -/
inductive Phrased : Part .parsed → List Symbol → Prop
  | identifier {place : Extent} {name : String} :
    Phrased (.identifier ⟨place, name⟩) [.word .ident name]
  -- operands
  | name {place : Extent} {name : String}
      (h : Kind.ofWord name = .ident ∨ Kind.ofWord name = .kwPayable ∨
        Kind.ofWord name = .kwType) :
    Phrased (.expression (.identifier place name)) [.word (Kind.ofWord name) name]
  | number {place : Extent} {kind : Kind} {raw : String}
      (h : kind = .number ∨ kind = .hexNumber) :
    Phrased (.expression (.number place (NumberValue.ofLiteral raw) raw none))
      [.word kind raw, .no .unit]
  | numberWithUnit {place : Extent} {kind : Kind} {raw unit : String}
      (h : kind = .number ∨ kind = .hexNumber) (hunit : isNumberUnit unit = true) :
    Phrased (.expression (.number place (NumberValue.ofLiteral raw) raw (some unit)))
      [.word kind raw, .word .ident unit]
  | string {place : Extent} {first : Lexeme} {more : List Lexeme}
      (h : ∀ lexeme ∈ first :: more, lexeme.kind.isString = true) :
    Phrased
      (.expression (.string place
        (more.foldl (fun value lexeme => value ++ Quoted.valueOf lexeme.text)
          (Quoted.valueOf first.text))
        (Quoted.kindOf first.text)))
      ((first :: more).map (fun lexeme => .word lexeme.kind lexeme.text) ++ [.no .string])
  | boolean {place : Extent} {value : Bool} :
    Phrased (.expression (.boolean place value)) [.token (if value then .kwTrue else .kwFalse)]
  | tuple {place : Extent} {components : List (Option (Expression Extent))}
      (h : components ≠ [none]) :
    Phrased (.expression (.tuple place components false))
      (.token .lparen :: series .rparen (components.map fun e => option (e.map (·.place))))
  | array {place : Extent} {values : List (Expression Extent)} :
    Phrased (.expression (.tuple place (values.map some) true))
      (.token .lbracket :: series .rbracket (values.map fun e => [.part e.place]))
  | new {place : Extent} {type : TypeName Extent} :
    Phrased (.expression (.new place type))
      [.token .kwNew, .part type.place, .no (.kinds [.lbracket])]
  -- what follows an operand
  | member {place : Extent} {object : Expression Extent} {property : Identifier Extent} :
    Phrased (.expression (.member place object property))
      [.part object.place, .token .dot, .part property.place]
  | index {place : Extent} {object : Expression Extent} {subscript : Option (Expression Extent)} :
    Phrased (.expression (.index place object subscript))
      (.part object.place :: .token .lbracket :: option (subscript.map (·.place)) ++
        [.token .rbracket])
  | slice {place : Extent} {object : Expression Extent}
      {first last : Option (Expression Extent)} :
    Phrased (.expression (.slice place object first last))
      (.part object.place :: .token .lbracket :: option (first.map (·.place)) ++
        .token .colon :: option (last.map (·.place)) ++ [.token .rbracket])
  | call {place : Extent} {callee : Expression Extent} {values : List (Expression Extent)} :
    Phrased (.expression (.call place callee (.positional values)))
      (.part callee.place :: .token .lparen ::
        series .rparen (values.map fun e => [.part e.place]))
  | callByName {place : Extent} {callee : Expression Extent}
      {values : List (NamedArgument Extent)} :
    Phrased (.expression (.call place callee (.named values)))
      (.part callee.place :: .token .lparen :: .token .lbrace ::
        series .rbrace (values.map fun a => [.part a.place]) ++ [.token .rparen])
  | callOptions {place : Extent} {callee : Expression Extent}
      {options : List (NamedArgument Extent)} (h : options ≠ []) :
    Phrased (.expression (.callOptions place callee options))
      (.part callee.place :: .token .lbrace ::
        series .rbrace (options.map fun a => [.part a.place]))
  | namedArgument {place : Extent} {name : String} {value : Expression Extent} :
    Phrased (.namedArgument (.mk place name value))
      [.word .ident name, .token .colon, .part value.place]
  -- operators
  | before {place : Extent} {operator : UnaryOp} {argument : Expression Extent} :
    Phrased (.expression (.unary place operator true argument))
      [.token operator.kind, .part argument.place]
  | after {place : Extent} {operator : UnaryOp} {argument : Expression Extent}
      (h : UnaryOp.trailing? operator.kind = some operator) :
    Phrased (.expression (.unary place operator false argument))
      [.part argument.place, .token operator.kind]
  | binary {place : Extent} {operator : BinaryOp} {left right : Expression Extent} :
    Phrased (.expression (.binary place operator left right))
      [.part left.place, .token operator.kind, .part right.place]
  | assignment {place : Extent} {operator : AssignOp} {left right : Expression Extent} :
    Phrased (.expression (.assignment place operator left right))
      [.part left.place, .token operator.kind, .part right.place]
  | conditional {place : Extent} {test consequent alternate : Expression Extent} :
    Phrased (.expression (.conditional place test consequent alternate))
      [.part test.place, .token .question, .part consequent.place, .token .colon,
        .part alternate.place]
  -- types
  | elementary {place : Extent} {name : String} (h : isElementary name = true) :
    Phrased (.typeName (.elementary place name false))
      (.word .ident name :: if name = "address" then [.no (.kinds [.kwPayable])] else [])
  | payableAddress {place : Extent} :
    Phrased (.typeName (.elementary place "address" true))
      [.word .ident "address", .token .kwPayable]
  | userDefined {place : Extent} {first : String} {more : List String}
      (h : isElementary first = false) :
    Phrased
      (.typeName (.userDefined place
        (more.foldl (fun path name => path ++ "." ++ name) first)))
      (.word .ident first :: more.flatMap (fun name => [.token .dot, .word .ident name]) ++
        [.no .step])
  | mapping {place : Extent} {key value : TypeName Extent} {keyName valueName : Option String} :
    Phrased (.typeName (.mapping place key keyName value valueName))
      (.token .kwMapping :: .token .lparen :: .part key.place :: Symbol.name keyName ++
        .token .fatArrow :: .part value.place :: Symbol.name valueName ++ [.token .rparen])
  | arrayType {place : Extent} {base : TypeName Extent} {length : Option (Expression Extent)} :
    Phrased (.typeName (.array place base length))
      (.part base.place :: .token .lbracket :: option (length.map (·.place)) ++
        [.token .rbracket])
  | functionType {place : Extent} {parameters : List (Parameter Extent)}
      {returns : Option (List (Parameter Extent))} {kinds : List Kind}
      (hkinds : ∀ k ∈ kinds, k.isTypeAttribute = true)
      (hparameters : ∀ p ∈ parameters ++ returns.getD [], p.isIndexed = false) :
    Phrased
      (.typeName (.function place parameters (returns.getD [])
        (kinds.foldl attributesAfter (none, none)).1 (kinds.foldl attributesAfter (none, none)).2))
      (.token .kwFunction :: Symbol.parameters parameters ++ kinds.map .token ++
        .no [fun lexeme => lexeme.kind.isTypeAttribute] :: Symbol.returns returns)
  | parameter {place : Extent} {type : TypeName Extent} {location : Option StorageLocation}
      {name : Option String} {indexed : Bool} :
    Phrased (.parameter (.mk place type location name indexed))
      (.part type.place :: Symbol.location location ++
        (if indexed then [.token .kwIndexed] else []) ++ Symbol.name name)
  -- variables
  | declared {place : Extent} {type : TypeName Extent} {location : Option StorageLocation}
      {name : String} :
    Phrased (.declared ⟨place, type, location, name⟩)
      (.part type.place :: Symbol.location location ++ [.word .ident name])
  | declaration {place : Extent} {declared : VariableDeclaration Extent}
      {initial : Option (Expression Extent)} :
    Phrased (.statement (.declaration place [some declared] initial))
      (.part declared.place ::
        (initial.toList.flatMap fun e => [.token .eq, .part e.place]) ++ [.token .semicolon])
  | declarationList {place : Extent} {slots : List (Option (VariableDeclaration Extent))}
      {value : Expression Extent} (h : slots ≠ []) :
    Phrased (.statement (.declaration place slots (some value)))
      (.token .lparen :: separated (slots.map fun v => option (v.map (·.place))) ++
        [.token .rparen, .token .eq, .part value.place, .token .semicolon])
  -- names in declarations
  | path {written : WrittenPath} :
    Phrased (.path written.path) (Symbol.names written.first written.more)
  | invocation {place : Extent} {first : String} {more : List String}
      {arguments : Option (List (Expression Extent))} :
    Phrased (.invocation ⟨place, dotted first more, arguments⟩)
      (Symbol.names first more ++ Symbol.arguments arguments)
  | importSymbol {place : Extent} {name : String} {newName : Option String} :
    Phrased (.importSymbol ⟨place, name, newName⟩) (.word .ident name :: Symbol.newName newName)
  -- members of contracts
  | stateVariable {place : Extent} {type : TypeName Extent} {name : String}
      {items : List Attribute} {value : Option (Expression Extent)}
      (h : ∀ item ∈ items, item.IsOfVariable) :
    Phrased
      (.member (.stateVariable ⟨place, type, name, (VariableAttributes.ofItems items).visibility,
        (VariableAttributes.ofItems items).isConstant,
        (VariableAttributes.ofItems items).isImmutable,
        (VariableAttributes.ofItems items).overrides, value⟩))
      (.part type.place :: Symbol.attributes items ++ .word .ident name ::
        Symbol.initialValue value ++ [.token .semicolon])
  | event {place : Extent} {name : String} {parameters : List (Parameter Extent)}
      {isAnonymous : Bool} :
    Phrased (.member (.event ⟨place, name, parameters, isAnonymous⟩))
      (.token .kwEvent :: .word .ident name :: Symbol.parameters parameters ++
        (if isAnonymous then [.word .ident "anonymous"] else []) ++ [.token .semicolon])
  | error {place : Extent} {name : String} {parameters : List (Parameter Extent)}
      (h : ∀ p ∈ parameters, p.isIndexed = false) :
    Phrased (.member (.error ⟨place, name, parameters⟩))
      (.word .ident "error" :: .word .ident name :: Symbol.parameters parameters ++
        [.token .semicolon])
  | struct {place : Extent} {name : String} {members : List (VariableDeclaration Extent)} :
    Phrased (.member (.struct ⟨place, name, members⟩))
      (.token .kwStruct :: .word .ident name :: .token .lbrace ::
        members.flatMap (fun m => [.part m.place, .token .semicolon]) ++ [.token .rbrace])
  | enumeration {place : Extent} {name : String} {members : List (Identifier Extent)} :
    Phrased (.member (.enumeration ⟨place, name, members⟩))
      (.token .kwEnum :: .word .ident name :: .token .lbrace ::
        series .rbrace (members.map fun m => [.part m.place]))
  | usingLibrary {place : Extent} {first : String} {more : List String}
      {target : Option (TypeName Extent)} {isGlobal : Bool} :
    Phrased (.member (.usingDirective ⟨place, some (dotted first more), [], target, isGlobal⟩))
      (.token .kwUsing :: Symbol.names first more ++ Symbol.attachment target isGlobal)
  | usingFunctions {place : Extent} {functions : List WrittenPath}
      {target : Option (TypeName Extent)} {isGlobal : Bool} :
    Phrased
      (.member (.usingDirective
        ⟨place, none, functions.map (·.path.path), target, isGlobal⟩))
      (.token .kwUsing :: .token .lbrace :: series .rbrace (functions.map fun f => [f.symbol]) ++
        Symbol.attachment target isGlobal)
  | valueType {place basePlace : Extent} {name baseName : String} {payable : Bool} :
    Phrased (.member (.valueType ⟨place, name, basePlace, baseName, payable⟩))
      [.token .kwType, .word .ident name, .token .kwIs, .part basePlace, .token .semicolon]
  -- units of a source
  | coderPragma {place : Extent} {version : Identifier Extent} :
    Phrased (.unit (.coderPragma ⟨place, version⟩))
      [.token .kwPragma, .word .ident "abicoder", .part version.place, .token .semicolon]
  | experimentalName {place : Extent} {feature : String} :
    Phrased (.unit (.experimentalPragma ⟨place, feature⟩))
      [.token .kwPragma, .word .ident "experimental", .word .ident feature, .token .semicolon]
  | experimentalString {place : Extent} {raw : String} :
    Phrased (.unit (.experimentalPragma ⟨place, Quoted.valueOf raw⟩))
      [.token .kwPragma, .word .ident "experimental", .word .string raw, .token .semicolon]
  | pragma {place value : Extent} {name : String} {kinds : List Kind}
      (hname : name ≠ "abicoder" ∧ name ≠ "experimental") (hkinds : ∀ k ∈ kinds, k ≠ .semicolon) :
    Phrased (.unit (.pragma ⟨place, name, value⟩))
      (.token .kwPragma :: .word .ident name :: .here value.first :: kinds.map .token ++
        [.here value.next, .token .semicolon])
  | importFile {place : Extent} {raw : String} {newName : Option String} :
    Phrased (.unit (.importDirective ⟨place, Quoted.valueOf raw, newName, none⟩))
      (.token .kwImport :: .word .string raw :: Symbol.newName newName ++ [.token .semicolon])
  | importAll {place : Extent} {raw newName : String} :
    Phrased (.unit (.importDirective ⟨place, Quoted.valueOf raw, some newName, none⟩))
      (.token .kwImport :: .token .star :: .token .kwAs :: .word .ident newName ::
        Symbol.origin raw)
  | importNames {place : Extent} {raw : String} {symbols : List (ImportSymbol Extent)} :
    Phrased (.unit (.importDirective ⟨place, Quoted.valueOf raw, none, some symbols⟩))
      (.token .kwImport :: .token .lbrace ::
        series .rbrace (symbols.map fun symbol => [.part symbol.place]) ++ Symbol.origin raw)
  | constant {place : Extent} {type : TypeName Extent} {name : String}
      {value : Expression Extent} :
    Phrased (.unit (.constant ⟨place, type, name, value⟩))
      [.part type.place, .token .kwConstant, .word .ident name, .token .eq, .part value.place,
        .token .semicolon]
  | unit {unit : SourceUnit .parsed} {member : ContractPart .parsed} {symbols : List Symbol}
      (h : unit.member? = some member) (hmember : Phrased (.member member) symbols) :
    Phrased (.unit unit) symbols

end Part

/-! ### Phrases of an input -/

/-- A part is written by a production where it stands, and the expressions in it bind tightly
enough. -/
def Lexemes.Holds (lexemes : Lexemes) (part : Part .parsed) : Prop :=
  part.Tight ∧
    ∃ symbols, part.Phrased symbols ∧ lexemes.Spells part.place.first symbols part.place.next

/-- From one index up to another, a part stands in the input, with all that is below it. -/
structure Lexemes.IsPhrase (lexemes : Lexemes) (i : Nat) (part : Part .parsed) (j : Nat) :
    Prop where
  /-- It stands there. -/
  place : part.place = ⟨i, j⟩
  /-- Each part is written where it stands. -/
  holds : part.All lexemes.Holds

/-! ### Phrases and the tokens they cover -/

/-- A production stands for at least one token. -/
theorem Part.Phrased.solid {part : Part .parsed} {symbols : List Symbol}
    (h : part.Phrased symbols) : ∃ symbol ∈ symbols, symbol.isSolid = true := by
  induction h with
  | unit _ _ ih => exact ih
  | _ => simp [Symbol.isSolid, Symbol.parameters, Symbol.names, Symbol.attachment]

namespace Lexemes

variable {lexemes : Lexemes} {i j k : Nat} {part child : Part .parsed} {symbols : List Symbol}

/-- A part that is written by a production covers tokens. -/
theorem Holds.covers (h : lexemes.Holds part) : lexemes.Covers part.place := by
  obtain ⟨-, symbols, hphrased, hspells⟩ := h
  exact hspells.covers hphrased.solid

namespace IsPhrase

theorem covers (h : lexemes.IsPhrase i part j) : lexemes.Covers part.place := h.holds.here.covers

theorem lt (h : lexemes.IsPhrase i part j) : i < j := by
  have := h.covers.nonempty
  rwa [h.place] at this

theorem tight (h : lexemes.IsPhrase i part j) : part.Tight := h.holds.here.1

/-- A phrase is written by a production. -/
theorem written (h : lexemes.IsPhrase i part j) :
    ∃ symbols, part.Phrased symbols ∧ lexemes.Spells i symbols j := by
  obtain ⟨symbols, hphrased, hspells⟩ := h.holds.here.2
  rw [h.place] at hspells
  exact ⟨symbols, hphrased, hspells⟩

/-- A phrase ends within the input. -/
theorem le_size (h : lexemes.IsPhrase i part j) : j ≤ lexemes.size := by
  obtain ⟨symbols, -, hspells⟩ := h.written
  exact hspells.le_size h.lt

/-- A part that is written by a production is a phrase if all below it are. -/
theorem of_written (hplace : part.place = ⟨i, j⟩) (htight : part.Tight)
    (hphrased : part.Phrased symbols) (hspells : lexemes.Spells i symbols j)
    (hbelow : ∀ field ∈ part.fields, ∀ child ∈ field, child.All lexemes.Holds) :
    lexemes.IsPhrase i part j := by
  refine ⟨hplace, Part.all_iff.mpr ⟨⟨htight, symbols, hphrased, ?_⟩, hbelow⟩⟩
  rw [hplace]
  exact hspells

/-- The parts below a phrase are phrases. -/
theorem below {field : List (Part .parsed)} (h : lexemes.IsPhrase i part j)
    (hfield : field ∈ part.fields) (hchild : child ∈ field) :
    lexemes.IsPhrase child.place.first child child.place.next :=
  ⟨rfl, h.holds.below hfield hchild⟩

/-- A phrase is spelled as a smaller construct of another. -/
theorem spells (h : lexemes.IsPhrase i part k) (hrest : lexemes.Spells k symbols j) :
    lexemes.Spells i (.part part.place :: symbols) j := by
  refine ⟨⟨?_, h.covers⟩, ?_⟩ <;> rw [h.place]
  exact hrest

end IsPhrase

/-- Identifiers are spelled as no keyword is, and the keywords `payable` and `type` as such. -/
def WellSpelled (lexemes : Lexemes) : Prop :=
  ∀ i, lexemes.kindAt i = .ident ∨ lexemes.kindAt i = .kwPayable ∨ lexemes.kindAt i = .kwType →
    Kind.ofWord (lexemes.textAt i) = lexemes.kindAt i

end Lexemes

end SolidityParser
