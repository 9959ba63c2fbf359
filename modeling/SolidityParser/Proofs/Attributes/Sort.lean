import Mathlib.Data.List.Induction
import SolidityParser.Proofs.Production.Move
import SolidityParser.Proofs.Production.Nested

/-!
# What attributes say together

Each attribute of a function is of one sort, and a tree keeps of each sort what the last attribute
of it says, but for modifiers, of which it keeps all (`FunctionAttributes.ofItems_eq`). So two rows
of attributes say the same if they agree in these (`FunctionAttributes.ofItems_congr`).
-/

namespace SolidityParser

/-- What an attribute of a function says something about. -/
inductive AttributeSort
  /-- Who may use the function. -/
  | visibility
  /-- What it does with the state. -/
  | mutability
  /-- Whether it may be overridden. -/
  | isVirtual
  /-- What it overrides. -/
  | overrides
  /-- What modifies it. -/
  | modifier
deriving DecidableEq

/-- The sort of an attribute that begins with a token. -/
def Kind.attributeSort (kind : Kind) : AttributeSort :=
  if (Visibility.ofKind? kind).isSome then .visibility
  else if (StateMutability.ofKind? kind).isSome then .mutability
  else if kind = .kwVirtual then .isVirtual
  else if kind = .kwOverride then .overrides
  else .modifier

namespace Attribute

/-- The sort of an attribute of a function. -/
def sort? : Attribute → Option AttributeSort
  | visibility _ => some .visibility
  | mutability _ => some .mutability
  | isVirtual => some .isVirtual
  | overrides _ => some .overrides
  | modifier _ => some .modifier
  | isConstant | isImmutable => none

/-- The last attribute of a sort. -/
def last? (items : List Attribute) (sort : AttributeSort) : Option Attribute :=
  (items.filter (·.sort? = some sort)).getLast?

@[simp] theorem sort?_move (f : Nat → Nat) (item : Attribute) :
    (item.move f).sort? = item.sort? := by
  cases item <;> rfl

/-- Moving an attribute twice is moving it once. -/
theorem move_move (f g : Nat → Nat) (item : Attribute) :
    (item.move f).move g = item.move (g ∘ f) := by
  cases item with
  | overrides bases => simp [move, Function.comp_def, WrittenPath.move, Extent.move]
  | modifier v =>
    exact congrArg modifier (Part.invocation.inj
      (Part.relocate_relocate (.move f) (.move g) (.invocation v : Part .parsed)))
  | _ => rfl

end Attribute

namespace FunctionAttributes

variable {items others : List Attribute} {item : Attribute}

theorem ofItems_concat : ofItems (items ++ [item]) = (ofItems items).set item := by
  simp [ofItems]

/-- What is kept of one sort of attributes is what the last of them sets, but for modifiers, of
which all are kept. -/
theorem ofItems_eq (items : List Attribute) :
    ofItems items =
      { visibility := (((Attribute.last? items .visibility).map (set {})).getD {}).visibility
        mutability := (((Attribute.last? items .mutability).map (set {})).getD {}).mutability
        isVirtual := (((Attribute.last? items .isVirtual).map (set {})).getD {}).isVirtual
        overrides := (((Attribute.last? items .overrides).map (set {})).getD {}).overrides
        modifiers := ((items.filter (·.sort? = some .modifier)).foldl set {}).modifiers } := by
  induction items using List.reverseRecOn with
  | nil => rfl
  | append_singleton items item ih =>
    rw [ofItems_concat, ih]
    cases item <;> simp [set, Attribute.last?, Attribute.sort?, List.filter_append]

/-- Attributes say the same together if the last of each sort are the same, and the modifiers are,
in their order. -/
theorem ofItems_congr
    (hlast : ∀ sort ≠ .modifier, Attribute.last? items sort = Attribute.last? others sort)
    (hmodifiers : items.filter (·.sort? = some .modifier) =
      others.filter (·.sort? = some .modifier)) : ofItems items = ofItems others := by
  rw [ofItems_eq items, ofItems_eq others, hmodifiers, hlast _ (by decide), hlast _ (by decide),
    hlast _ (by decide), hlast _ (by decide)]

/-- Bases that are kept are listed by an attribute. -/
theorem exists_of_mem_overrides {p : NamePath Extent}
    (h : p ∈ (ofItems items).overrides.getD []) :
    ∃ listed, .overrides listed ∈ items ∧ p ∈ Attribute.bases listed := by
  rw [ofItems_eq] at h
  dsimp only at h
  cases hlast : Attribute.last? items .overrides with
  | none => simp [hlast] at h
  | some item =>
    obtain ⟨hmem, hsort⟩ := List.mem_filter.mp (List.mem_of_getLast? hlast)
    rw [hlast] at h
    cases item <;> simp [Attribute.sort?] at hsort
    exact ⟨_, hmem, by simpa [set] using h⟩

/-- Attributes that differ in their places only say the same together, but for places. -/
theorem forget_ofItems (h : items.map (·.move fun _ => 0) = others) :
    (ofItems items).relocate (fun _ => ()) = (ofItems others).relocate fun _ => () := by
  subst h
  rw [ofItems_move]
  have hinvocation (v : Invocation Extent) :
      (v.relocate (Extent.move fun _ => 0)).relocate (fun _ => ()) = v.relocate fun _ => () :=
    Part.invocation.inj (Part.relocate_relocate (.move fun _ => 0) (.forget .parsed)
      (.invocation v : Part .parsed))
  simp [relocate, Function.comp_def, hinvocation, NamePath.relocate]

end FunctionAttributes

end SolidityParser
