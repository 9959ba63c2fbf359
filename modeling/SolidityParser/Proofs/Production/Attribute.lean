import SolidityParser.Grammar.Member
import SolidityParser.Proofs.Production.Symbol

/-!
# Attributes as they are written

The attributes of a function or a variable stand in any order, and some of them may stand there more
than once; a tree keeps no more of them than what counts. `Attribute` is one as it is written, and
`FunctionAttributes.set` and `VariableAttributes.set` say what counts after one more. The end of
attributes needs no saying: what follows them begins none.
-/

namespace SolidityParser

open SolidityParser.Symbol (series)

/-- The names of a path, as one text. -/
def dotted (first : String) (more : List String) : String :=
  more.foldl (fun path name => path ++ "." ++ name) first

/-- A path as it is written. -/
structure WrittenPath where
  /-- Where it stands. -/
  place : Extent
  /-- Its first name. -/
  first : String
  /-- The names after points. -/
  more : List String

namespace WrittenPath

/-- The path as a node of a tree. -/
def path (written : WrittenPath) : NamePath Extent :=
  ⟨written.place, dotted written.first written.more⟩

/-- The path as an element of a production. -/
def symbol (written : WrittenPath) : Symbol := .path written.place written.first written.more

end WrittenPath

/-- A visibility is found for its keyword only. -/
theorem Visibility.ofKind?_eq_some {k : Kind} {v : Visibility} :
    Visibility.ofKind? k = some v ↔ k = v.kind := by
  constructor
  · intro h
    unfold ofKind? at h
    split at h <;> cases h <;> rfl
  · rintro rfl
    cases v <;> rfl

/-- A mutability is found for its keyword only. -/
theorem StateMutability.ofKind?_eq_some {k : Kind} {v : StateMutability} :
    StateMutability.ofKind? k = some v ↔ k = v.kind := by
  constructor
  · intro h
    unfold ofKind? at h
    split at h <;> cases h <;> rfl
  · rintro rfl
    cases v <;> rfl

/-- An attribute of a function or a variable, as it is written. -/
inductive Attribute
  /-- Who may use it. -/
  | visibility (value : Visibility)
  /-- What the function does with the state. -/
  | mutability (value : StateMutability)
  /-- It may be overridden. -/
  | isVirtual
  /-- The variable is a constant. -/
  | isConstant
  /-- The variable is set once. -/
  | isImmutable
  /-- It overrides what it has from its bases, or from those that are listed. -/
  | overrides (bases : Option (List WrittenPath))
  /-- A modifier of the function. -/
  | modifier (value : Invocation Extent)

namespace Attribute

/-- The paths after `override`. -/
def baseSymbols : Option (List WrittenPath) → List Symbol
  | none => []
  | some bases => .token .lparen :: series .rparen (bases.map fun base => [base.symbol])

/-- How an attribute is written. -/
def symbols : Attribute → List Symbol
  | visibility value => [.token value.kind]
  | mutability value => [.token value.kind]
  | isVirtual => [.token .kwVirtual]
  | isConstant => [.token .kwConstant]
  | isImmutable => [.token .kwImmutable]
  | overrides bases => .token .kwOverride :: baseSymbols bases
  | modifier value => [.part value.place]

/-- Is this an attribute of a function? -/
def IsOfFunction : Attribute → Prop
  | isConstant | isImmutable => False
  | _ => True

/-- Is this an attribute of a modifier? -/
def IsOfModifier : Attribute → Prop
  | isVirtual | overrides _ => True
  | _ => False

/-- Is this an attribute of a variable of a contract? -/
def IsOfVariable : Attribute → Prop
  | visibility _ | isConstant | isImmutable | overrides _ => True
  | _ => False

/-- The bases that an attribute lists, as nodes of a tree. -/
def bases (listed : Option (List WrittenPath)) : List (NamePath Extent) :=
  (listed.getD []).map (·.path)

end Attribute

/-- The attributes of a function after one more. -/
def FunctionAttributes.set (attributes : FunctionAttributes Extent) :
    Attribute → FunctionAttributes Extent
  | .visibility value => { attributes with visibility := some value }
  | .mutability value => { attributes with mutability := some value }
  | .isVirtual => { attributes with isVirtual := true }
  | .overrides bases => { attributes with overrides := some (Attribute.bases bases) }
  | .modifier value => { attributes with modifiers := attributes.modifiers ++ [value] }
  | .isConstant | .isImmutable => attributes

/-- The attributes of a variable after one more. -/
def Grammar.VariableAttributes.set (attributes : VariableAttributes) :
    Attribute → VariableAttributes
  | .visibility value => { attributes with visibility := some value }
  | .isConstant => { attributes with isConstant := true }
  | .isImmutable => { attributes with isImmutable := true }
  | .overrides bases => { attributes with overrides := some (Attribute.bases bases) }
  | .mutability _ | .isVirtual | .modifier _ => attributes

/-- How attributes are written. -/
def Symbol.attributes (items : List Attribute) : List Symbol := items.flatMap Attribute.symbols

/-! ### What attributes begin with -/

/-- The kinds that begin an attribute. -/
def Kind.beginsAttribute (kind : Kind) : Bool :=
  Grammar.isAttribute kind || kind matches .ident | .kwImmutable

/-- An attribute begins with its keyword, or with the name of a modifier. -/
theorem Attribute.begins {lexemes : Lexemes} {i j : Nat} {item : Attribute}
    (h : lexemes.Spells i item.symbols j)
    (hmodifier : ∀ v, item = .modifier v → lexemes.kindAt v.place.first = .ident) :
    (lexemes.kindAt i).beginsAttribute = true := by
  cases item with
  | visibility v | mutability v =>
    rw [h.1.2]
    cases v <;> rfl
  | isVirtual | isConstant | isImmutable | overrides _ =>
    rw [h.1.2]
    rfl
  | modifier v =>
    rw [← h.1.1, hmodifier v rfl]
    rfl

/-- An attribute stands for at least one token. -/
theorem Attribute.lt {lexemes : Lexemes} {i j : Nat} {item : Attribute}
    (h : lexemes.Spells i item.symbols j) : i < j := by
  refine (h.covers ?_).nonempty
  cases item <;> exact ⟨_, List.mem_cons_self .., rfl⟩

/-- Attributes begin as the first of them does, or there are none. -/
theorem Attribute.begins_of_mem {lexemes : Lexemes} {i j : Nat} {items : List Attribute}
    (h : lexemes.Spells i (Symbol.attributes items) j)
    (hmodifier : ∀ v, .modifier v ∈ items → lexemes.kindAt v.place.first = .ident) :
    items = [] ∧ i = j ∨ (lexemes.kindAt i).beginsAttribute = true := by
  cases items with
  | nil => exact .inl ⟨rfl, h⟩
  | cons item items =>
    obtain ⟨k, hitem, -⟩ := Lexemes.spells_append.mp h
    exact .inr (begins hitem fun v hv => hmodifier v (hv ▸ List.mem_cons_self ..))

/-- The attributes of a function that are written so. -/
def FunctionAttributes.ofItems (items : List Attribute) : FunctionAttributes Extent :=
  items.foldl FunctionAttributes.set {}

/-- The attributes of a variable that are written so. -/
def Grammar.VariableAttributes.ofItems (items : List Attribute) : VariableAttributes :=
  items.foldl VariableAttributes.set {}

end SolidityParser
