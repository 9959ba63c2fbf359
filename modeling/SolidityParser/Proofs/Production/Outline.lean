import Mathlib.Data.List.Perm.Subperm
import SolidityParser.Proofs.Production.Phrase

/-!
# Parts in the order in which they are written

A production names the parts of a node from the left to the right. `Part.Outlined` keeps of it no
more than that each field of the node is among them in this order, and no part is named for two,
which is all that matters for where the parts stand: they lie within the node, those of one field
one after the other, and no two overlap (`Outlined.inside`, `Outlined.ordered`, `Outlined.apart`).
-/

namespace SolidityParser

open SolidityParser.Symbol (option separated series parts)

namespace Symbol

/-! ### The parts that symbols name -/

variable {α : Type}

theorem parts_flatMap (items : List α) (symbols : α → List Symbol) :
    parts (items.flatMap symbols) = items.flatMap fun v => parts (symbols v) := by
  induction items with
  | nil => rfl
  | cons v items ih => simp [ih]

@[simp] theorem parts_map_part (items : List α) (place : α → Extent) :
    parts (items.map fun v => .part (place v)) = items.map place := by
  induction items with
  | nil => rfl
  | cons v items ih => simp [parts, ih]

@[simp] theorem parts_map_token (kinds : List Kind) : parts (kinds.map .token) = [] := by
  induction kinds with
  | nil => rfl
  | cons k kinds ih => simpa [parts] using ih

@[simp] theorem parts_map_word (items : List α) (kind : α → Kind) (text : α → String) :
    parts (items.map fun v => .word (kind v) (text v)) = [] := by
  induction items with
  | nil => rfl
  | cons v items ih => simpa [parts] using ih

@[simp] theorem parts_separated (items : List (List Symbol)) :
    parts (separated items) = items.flatMap parts := by
  induction items with
  | nil => rfl
  | cons item items ih =>
    cases items with
    | nil => simp [separated]
    | cons other items => simp [separated, parts, ih]

@[simp] theorem parts_series (close : Kind) (items : List (List Symbol)) :
    parts (series close items) = items.flatMap parts := by
  simp [series, parts]

@[simp] theorem parts_option (place : Option Extent) : parts (option place) = place.toList := by
  cases place <;> rfl

@[simp] theorem parts_name (name : Option String) : parts (Symbol.name name) = [] := by
  cases name <;> rfl

@[simp] theorem parts_location (location : Option StorageLocation) :
    parts (Symbol.location location) = [] := by
  cases location <;> rfl

@[simp] theorem parts_parameters (parameters : List (Parameter Extent)) :
    parts (Symbol.parameters parameters) = parameters.map (·.place) := by
  simp [Symbol.parameters, parts, List.flatMap_map, ← List.map_eq_flatMap]

@[simp] theorem parts_names (first : String) (more : List String) :
    parts (Symbol.names first more) = [] := by
  simp [Symbol.names, parts, parts_flatMap]

@[simp] theorem parts_arguments (arguments : Option (List (Expression Extent))) :
    parts (Symbol.arguments arguments) = (arguments.getD []).map (·.place) := by
  cases arguments <;> simp [Symbol.arguments, parts, List.flatMap_map, ← List.map_eq_flatMap]

@[simp] theorem parts_initialValue (value : Option (Expression Extent)) :
    parts (Symbol.initialValue value) = value.toList.map (·.place) := by
  cases value <;> simp [Symbol.initialValue, parts]

@[simp] theorem parts_newName (name : Option String) : parts (Symbol.newName name) = [] := by
  cases name <;> simp [Symbol.newName, parts]

@[simp] theorem parts_origin (raw : String) : parts (Symbol.origin raw) = [] := rfl

@[simp] theorem parts_attachment (target : Option (TypeName Extent)) (isGlobal : Bool) :
    parts (Symbol.attachment target isGlobal) = target.toList.map (·.place) := by
  cases target <;> cases isGlobal <;> rfl

@[simp] theorem parts_returns (returns : Option (List (Parameter Extent))) :
    parts (Symbol.returns returns) = (returns.getD []).map (·.place) := by
  cases returns <;> simp [Symbol.returns, parts]

end Symbol

/-! ### Spelled parts -/

namespace Lexemes

variable {lexemes : Lexemes} {i j : Nat} {symbols : List Symbol}

namespace Spells

/-- A path covers tokens. -/
theorem path_covers {place : Extent} {first : String} {more : List String}
    (h : lexemes.Spells i (.path place first more :: symbols) j) : lexemes.Covers place := by
  obtain ⟨rfl, hnames, -⟩ := spells_path_iff.mp h
  exact hnames.covers ⟨_, List.mem_cons_self .., rfl⟩

/-- Parts that are spelled lie where they are spelled, and cover tokens. -/
theorem part_inside (h : lexemes.Spells i symbols j) {place : Extent}
    (hplace : place ∈ parts symbols) :
    i ≤ place.first ∧ place.next ≤ j ∧ lexemes.Covers place := by
  induction symbols generalizing i with
  | nil => simp [parts] at hplace
  | cons symbol symbols ih =>
    cases symbol with
    | token | word =>
      obtain ⟨hi, hj, hcovers⟩ := ih h.2 hplace
      exact ⟨by omega, hj, hcovers⟩
    | no | here => exact ih h.2 hplace
    | path first =>
      have hcovers := path_covers h
      obtain ⟨⟨rfl, -, hsteps⟩, hrest⟩ := h
      have hlt := hcovers.nonempty
      rcases List.mem_cons.mp hplace with rfl | hplace
      · exact ⟨Nat.le_refl _, hrest.inside.1, hcovers⟩
      · obtain ⟨hi, hj, hcovers⟩ := ih hrest hplace
        exact ⟨by omega, hj, hcovers⟩
    | part first =>
      obtain ⟨⟨rfl, hcovers⟩, hrest⟩ := h
      have hlt := hcovers.nonempty
      rcases List.mem_cons.mp hplace with rfl | hplace
      · exact ⟨Nat.le_refl _, hrest.inside.1, hcovers⟩
      · obtain ⟨hi, hj, hcovers⟩ := ih hrest hplace
        exact ⟨by omega, hj, hcovers⟩

/-- Each part that is spelled ends where the next one begins, or before. -/
theorem parts_ordered (h : lexemes.Spells i symbols j) :
    (parts symbols).Pairwise fun place other => place.next ≤ other.first := by
  induction symbols generalizing i with
  | nil => exact .nil
  | cons symbol symbols ih =>
    cases symbol with
    | token | word | no | here => exact ih h.2
    | part first | path first =>
      exact .cons (fun place hplace => (part_inside h.2 hplace).1) (ih h.2)

end Spells

end Lexemes

/-! ### Attributes -/

/-- The bases that are listed are named in order. -/
theorem Attribute.parts_baseSymbols (listed : Option (List WrittenPath)) :
    parts (Attribute.baseSymbols listed) = (Attribute.bases listed).map (·.place) := by
  cases listed with
  | none => rfl
  | some bases =>
    simp [Attribute.baseSymbols, Attribute.bases, parts, List.flatMap_map,
      WrittenPath.symbol, WrittenPath.path, ← List.map_eq_flatMap]

/-- What each attribute adds to what is kept, it names in order. -/
theorem Attribute.foldl_sublist {σ : Type} (set : σ → Attribute → σ) (kept : σ → List Extent)
    (hset : ∀ attributes item,
      (kept (set attributes item)).Sublist (kept attributes ++ parts item.symbols))
    (items : List Attribute) (attributes : σ) :
    (kept (items.foldl set attributes)).Sublist
      (kept attributes ++ parts (Symbol.attributes items)) := by
  induction items generalizing attributes with
  | nil => simp
  | cons item items ih =>
    have hitem := (hset attributes item).append_right (parts (Symbol.attributes items))
    exact (ih (set attributes item)).trans (by simpa [Symbol.attributes] using hitem)

/-- The parts that the attributes of a function keep. -/
def FunctionAttributes.places (attributes : FunctionAttributes Extent) : List Extent :=
  attributes.modifiers.map (·.place) ++ (attributes.overrides.getD []).map (·.place)

section Attributes

variable (items : List Attribute)

/-- Of the attributes of a function that are written, the modifiers are kept in order. -/
theorem FunctionAttributes.modifiers_sublist :
    ((FunctionAttributes.ofItems items).modifiers.map (·.place)).Sublist
      (parts (Symbol.attributes items)) :=
  Attribute.foldl_sublist FunctionAttributes.set
    (fun attributes => attributes.modifiers.map (·.place))
    (fun attributes item => by
      cases item <;> simp [FunctionAttributes.set, Attribute.symbols, parts]) items {}

/-- Of the attributes of a function that are written, one list of bases is kept. -/
theorem FunctionAttributes.overrides_sublist :
    (((FunctionAttributes.ofItems items).overrides.getD []).map (·.place)).Sublist
      (parts (Symbol.attributes items)) :=
  Attribute.foldl_sublist FunctionAttributes.set
    (fun attributes => (attributes.overrides.getD []).map (·.place))
    (fun attributes item => by
      cases item <;> simp [FunctionAttributes.set, Attribute.symbols, parts,
        Attribute.parts_baseSymbols]) items {}

/-- Of the attributes of a variable that are written, one list of bases is kept. -/
theorem VariableAttributes.overrides_sublist :
    (((Grammar.VariableAttributes.ofItems items).overrides.getD []).map (·.place)).Sublist
      (parts (Symbol.attributes items)) :=
  Attribute.foldl_sublist Grammar.VariableAttributes.set
    (fun attributes => (attributes.overrides.getD []).map (·.place))
    (fun attributes item => by
      cases item <;> simp [Grammar.VariableAttributes.set, Attribute.symbols, parts,
        Attribute.parts_baseSymbols]) items {}

/-- No part is kept twice. -/
theorem FunctionAttributes.places_subperm :
    (FunctionAttributes.ofItems items).places.Subperm (parts (Symbol.attributes items)) := by
  have from_any (attributes : FunctionAttributes Extent) :
      (items.foldl FunctionAttributes.set attributes).places.Subperm
        (attributes.places ++ parts (Symbol.attributes items)) := by
    induction items generalizing attributes with
    | nil => simpa [Symbol.attributes, parts] using List.Subperm.refl _
    | cons item items ih =>
      refine (ih (attributes.set item)).trans ?_
      have hitem : (attributes.set item).places.Subperm
          (attributes.places ++ parts item.symbols) := by
        cases item with
        | overrides bases =>
          refine List.Sublist.subperm ?_
          simp [places, set, Attribute.symbols, parts, Attribute.parts_baseSymbols]
        | modifier value =>
          refine List.Perm.subperm ?_
          have hlast : ([value.place] ++ (attributes.overrides.getD []).map (·.place)).Perm
              ((attributes.overrides.getD []).map (·.place) ++ [value.place]) :=
            List.perm_append_comm
          simpa [places, set, Attribute.symbols, parts] using
            hlast.append_left (attributes.modifiers.map (·.place))
        | _ => simpa [places, set, Attribute.symbols, parts] using List.Subperm.refl _
      simpa [Symbol.attributes] using (List.subperm_append_right _).mpr hitem
  exact from_any {}

end Attributes

/-! ### Outlines -/

namespace Part

/-- Symbols name the parts of a node. -/
structure Outlined (part : Part .parsed) (symbols : List Symbol) : Prop where
  /-- The parts of each field are among those that symbols name, in this order. -/
  inOrder : ∀ field ∈ part.fields, (field.map place).Sublist (parts symbols)
  /-- No part is named for two. -/
  once : (part.fields.flatten.map place).Subperm (parts symbols)

namespace Outlined

variable {lexemes : Lexemes} {i j : Nat} {part : Part .parsed} {symbols : List Symbol}
  {field : List (Part .parsed)}

/-- Parts that are named in order. -/
theorem of_sublist (h : (part.fields.flatten.map place).Sublist (parts symbols)) :
    part.Outlined symbols :=
  ⟨fun _ hfield => ((List.sublist_flatten_of_mem hfield).map place).trans h, h.subperm⟩

/-- The parts of a node that is spelled lie within it. -/
theorem inside (h : part.Outlined symbols) (hspells : lexemes.Spells i symbols j)
    (hfield : field ∈ part.fields) {child : Part .parsed} (hchild : child ∈ field) :
    i ≤ child.place.first ∧ child.place.next ≤ j := by
  have hmem := (h.inOrder field hfield).subset (List.mem_map_of_mem hchild)
  exact ⟨(hspells.part_inside hmem).1, (hspells.part_inside hmem).2.1⟩

/-- The parts of a field stand one after the other. -/
theorem ordered (h : part.Outlined symbols) (hspells : lexemes.Spells i symbols j)
    (hfield : field ∈ part.fields) :
    field.Pairwise fun child other => child.place.next ≤ other.place.first :=
  List.pairwise_map.mp (hspells.parts_ordered.sublist (h.inOrder field hfield))

/-- No two parts of a node that is spelled overlap. -/
theorem apart (h : part.Outlined symbols) (hspells : lexemes.Spells i symbols j) :
    part.fields.flatten.Pairwise fun child other =>
      child.place.next ≤ other.place.first ∨ other.place.next ≤ child.place.first := by
  obtain ⟨named, hperm, hsub⟩ := h.once
  have hnamed : named.Pairwise fun place other =>
      place.next ≤ other.first ∨ other.next ≤ place.first :=
    (hspells.parts_ordered.imp Or.inl).sublist hsub
  exact List.pairwise_map.mp (hnamed.perm hperm Or.symm)

end Outlined

/-- The elements of a list that are not missing, each put through a function. -/
theorem flatMap_toList_map {α β : Type} (f : α → β) (l : List (Option α)) :
    (l.flatMap fun o => o.toList.map f) = (l.filterMap id).map f := by
  induction l with
  | nil => rfl
  | cons o l ih => cases o <;> simp_all

namespace Phrased

variable {part : Part .parsed} {symbols : List Symbol}

/-- The parts of a phrase, field by field, are among those that its production names. -/
theorem sublist (h : part.Phrased symbols) :
    (part.fields.flatten.map place).Sublist (parts symbols) := by
  induction h with
  | unit hmember _ ih => rwa [SourceUnit.fields_of_member? hmember] at ih
  | _ =>
    simp [fields, expressionFields, typeFields, statementFields, memberFields, unitFields,
      overridesField, baseField, parts, place, Function.comp_def, List.flatMap_map,
      flatMap_toList_map, ← List.map_eq_flatMap, Option.toList_map, List.reduceOption,
      Symbol.parts_flatMap, VariableAttributes.overrides_sublist, TypeName.place]

/-- Every production for a phrase names the parts in order. -/
theorem outlined (h : part.Phrased symbols) : part.Outlined symbols := .of_sublist h.sublist

end Phrased

end Part

end SolidityParser
