import Mathlib.Data.List.Perm.Basic
import SolidityParser.Render.Decoration

/-!
# JSON values whose objects are nodes

In the JSON of a tree every object is a node. `Json.Tree` is such a value with the span of each node
beside its members, which is what nodes are told apart by here: `Tree.decorated` puts marks at the
end of the nodes and looks at nothing else. Where every object of a value is shaped as a node
(`Json.Nodal`), decorating the value is just that (`Json.decorate_eq`), and where no object has
members with the names of the marks (`Json.Unmarked`), taking these away gives the value back
(`Json.erase_decorate`).
-/

namespace SolidityParser

namespace Json

/-! ### Lists of values -/

@[simp] theorem decorateItems_eq (decoration : Decoration) (items : List Json) :
    decorateItems decoration items = items.map (decorate decoration) := by
  induction items with
  | nil => rfl
  | cons item items ih => rw [decorateItems, ih, List.map_cons]

@[simp] theorem decorateMembers_eq (decoration : Decoration) (members : List (String × Json)) :
    decorateMembers decoration members = members.map fun m => (m.1, decorate decoration m.2) := by
  induction members with
  | nil => rfl
  | cons m members ih => rw [decorateMembers, ih, List.map_cons]

/-- What holds of every value whenever it holds of the items or members, holds of all values. -/
@[elab_as_elim]
theorem induction {P : Json → Prop} (null : P null) (bool : ∀ b, P (bool b))
    (number : ∀ n, P (number n)) (string : ∀ s, P (string s))
    (array : ∀ items, (∀ v ∈ items, P v) → P (array items))
    (object : ∀ members : List (String × Json), (∀ m ∈ members, P m.2) → P (object members))
    (value : Json) : P value := by
  cases value with
  | null => exact null
  | bool b => exact bool b
  | number n => exact number n
  | string s => exact string s
  | array items => exact array items fun v _ => induction null bool number string array object v
  | object members =>
    exact object members fun m _ => induction null bool number string array object m.2
termination_by value
decreasing_by
  · have := List.sizeOf_lt_of_mem ‹v ∈ items›
    simp
    omega
  · have := List.sizeOf_lt_of_mem ‹m ∈ members›
    cases m
    simp_all
    omega

/-! ### Objects of a value -/

mutual

/-- The objects in a value at any depth, each before those in it. -/
def objects : Json → List Json
  | array items => objectsOfItems items
  | object members => object members :: objectsOfMembers members
  | _ => []

/-- The objects in items. -/
def objectsOfItems : List Json → List Json
  | [] => []
  | item :: items => objects item ++ objectsOfItems items

/-- The objects in members. -/
def objectsOfMembers : List (String × Json) → List Json
  | [] => []
  | (_, value) :: members => objects value ++ objectsOfMembers members

end

@[simp] theorem objectsOfItems_eq (items : List Json) :
    objectsOfItems items = items.flatMap objects := by
  induction items with
  | nil => rfl
  | cons item items ih => rw [objectsOfItems, ih, List.flatMap_cons]

@[simp] theorem objectsOfMembers_eq (members : List (String × Json)) :
    objectsOfMembers members = members.flatMap fun m => m.2.objects := by
  induction members with
  | nil => rfl
  | cons m members ih => rw [objectsOfMembers, ih, List.flatMap_cons]

/-- Where the node stands that a value is by its shape. -/
def span? : Json → Option Span
  | object members => nodeSpan? members
  | _ => none

/-- Every object in a value has the shape of a node. -/
def Nodal (value : Json) : Prop := ∀ v ∈ value.objects, v.span?.isSome

/-! ### Values whose objects are nodes -/

/-- A value in which all objects are nodes, with the span of each. -/
inductive Tree
  | null
  | bool (value : Bool)
  | number (value : NumberValue)
  | string (value : String)
  | array (items : List Tree)
  | node (span : Span) (members : List (String × Tree))

namespace Tree

mutual

/-- The value. -/
def plain : Tree → Json
  | null => .null
  | bool value => .bool value
  | number value => .number value
  | string value => .string value
  | array items => .array (plainItems items)
  | node _ members => .object (plainMembers members)

/-- The values of items. -/
def plainItems : List Tree → List Json
  | [] => []
  | item :: items => item.plain :: plainItems items

/-- The values of members. -/
def plainMembers : List (String × Tree) → List (String × Json)
  | [] => []
  | (key, value) :: members => (key, value.plain) :: plainMembers members

end

mutual

/-- The value with the marks of its span at the end of each node, and nothing else. -/
def decorated (marks : Span → List (String × Json)) : Tree → Json
  | null => .null
  | bool value => .bool value
  | number value => .number value
  | string value => .string value
  | array items => .array (decoratedItems marks items)
  | node span members => .object (decoratedMembers marks members ++ marks span)

/-- The values of items with marks. -/
def decoratedItems (marks : Span → List (String × Json)) : List Tree → List Json
  | [] => []
  | item :: items => item.decorated marks :: decoratedItems marks items

/-- The values of members with marks. -/
def decoratedMembers (marks : Span → List (String × Json)) :
    List (String × Tree) → List (String × Json)
  | [] => []
  | (key, value) :: members => (key, value.decorated marks) :: decoratedMembers marks members

end

mutual

/-- The nodes at any depth, each as the object that it is without marks, and with its span. -/
def nodes : Tree → List (Json × Span)
  | array items => nodesOfItems items
  | node span members => (.object (plainMembers members), span) :: nodesOfMembers members
  | _ => []

/-- The nodes in items. -/
def nodesOfItems : List Tree → List (Json × Span)
  | [] => []
  | item :: items => item.nodes ++ nodesOfItems items

/-- The nodes in members. -/
def nodesOfMembers : List (String × Tree) → List (Json × Span)
  | [] => []
  | (_, value) :: members => value.nodes ++ nodesOfMembers members

end

@[simp] theorem plainItems_eq (items : List Tree) : plainItems items = items.map plain := by
  induction items with
  | nil => rfl
  | cons item items ih => rw [plainItems, ih, List.map_cons]

@[simp] theorem plainMembers_eq (members : List (String × Tree)) :
    plainMembers members = members.map fun m => (m.1, m.2.plain) := by
  induction members with
  | nil => rfl
  | cons m members ih => rw [plainMembers, ih, List.map_cons]

@[simp] theorem decoratedItems_eq (marks : Span → List (String × Json)) (items : List Tree) :
    decoratedItems marks items = items.map (decorated marks) := by
  induction items with
  | nil => rfl
  | cons item items ih => rw [decoratedItems, ih, List.map_cons]

@[simp] theorem decoratedMembers_eq (marks : Span → List (String × Json))
    (members : List (String × Tree)) :
    decoratedMembers marks members = members.map fun m => (m.1, m.2.decorated marks) := by
  induction members with
  | nil => rfl
  | cons m members ih => rw [decoratedMembers, ih, List.map_cons]

@[simp] theorem nodesOfItems_eq (items : List Tree) : nodesOfItems items = items.flatMap nodes := by
  induction items with
  | nil => rfl
  | cons item items ih => rw [nodesOfItems, ih, List.flatMap_cons]

@[simp] theorem nodesOfMembers_eq (members : List (String × Tree)) :
    nodesOfMembers members = members.flatMap fun m => m.2.nodes := by
  induction members with
  | nil => rfl
  | cons m members ih => rw [nodesOfMembers, ih, List.flatMap_cons]

end Tree

mutual

/-- A value as a tree: every object is taken for a node, which stands where it says. -/
def toTree : Json → Tree
  | null => .null
  | bool value => .bool value
  | number value => .number value
  | string value => .string value
  | array items => .array (treesOfItems items)
  | object members => .node ((nodeSpan? members).getD (.point 0)) (treesOfMembers members)

/-- Items as trees. -/
def treesOfItems : List Json → List Tree
  | [] => []
  | item :: items => item.toTree :: treesOfItems items

/-- Members as trees. -/
def treesOfMembers : List (String × Json) → List (String × Tree)
  | [] => []
  | (key, value) :: members => (key, value.toTree) :: treesOfMembers members

end

@[simp] theorem treesOfItems_eq (items : List Json) : treesOfItems items = items.map toTree := by
  induction items with
  | nil => rfl
  | cons item items ih => rw [treesOfItems, ih, List.map_cons]

@[simp] theorem treesOfMembers_eq (members : List (String × Json)) :
    treesOfMembers members = members.map fun m => (m.1, m.2.toTree) := by
  induction members with
  | nil => rfl
  | cons m members ih => rw [treesOfMembers, ih, List.map_cons]

/-- Members whose values stay as they are stay as they are. -/
theorem map_members_eq (f : Json → Json) {members : List (String × Json)}
    (h : ∀ m ∈ members, f m.2 = m.2) : members.map (fun m => (m.1, f m.2)) = members :=
  (List.map_congr_left (g := id) fun m hm => by rw [h m hm, id]).trans (List.map_id members)

/-- A value is what its tree is. -/
@[simp] theorem plain_toTree (value : Json) : value.toTree.plain = value := by
  induction value using Json.induction with
  | array items ih =>
    have hitems : items.map (Tree.plain ∘ toTree) = items :=
      (List.map_congr_left ih).trans (List.map_id items)
    simp [toTree, Tree.plain, hitems]
  | object members ih =>
    simp [toTree, Tree.plain, Function.comp_def, map_members_eq (fun v => v.toTree.plain) ih]
  | _ => rfl

/-- The nodes of the tree of a value are the objects of the value. -/
theorem nodes_toTree (value : Json) :
    value.toTree.nodes = value.objects.map fun v => (v, v.span?.getD (.point 0)) := by
  induction value using Json.induction with
  | array items ih =>
    simpa [toTree, Tree.nodes, objects, List.flatMap_map, List.map_flatMap] using
      List.flatMap_congr ih
  | object members ih =>
    have hbelow := List.flatMap_congr ih
    simp only [← List.map_flatMap] at hbelow
    simp [toTree, Tree.nodes, objects, span?, List.flatMap_map, Function.comp_def, hbelow]
  | _ => rfl

section Nodal

variable {items : List Json} {members : List (String × Json)}

/-- If the objects of a list are those of nodes, so are those of an item. -/
theorem Nodal.item (h : (array items).Nodal) {v : Json} (hv : v ∈ items) : v.Nodal :=
  fun o ho => h o (by simpa [objects] using ⟨v, hv, ho⟩)

/-- So are those of a member of an object. -/
theorem Nodal.member (h : (object members).Nodal) {m : String × Json} (hm : m ∈ members) :
    m.2.Nodal :=
  fun o ho => h o (by simpa [objects] using .inr ⟨m.1, m.2, hm, ho⟩)

/-- Where every object is a node by its shape, decorating puts marks on the nodes of the tree. -/
theorem decorate_eq (decoration : Decoration) {value : Json} (h : value.Nodal) :
    value.decorate decoration = value.toTree.decorated decoration.marks := by
  induction value using Json.induction with
  | array items ih =>
    simpa [decorate, toTree, Tree.decorated] using fun v hv => ih v hv (h.item hv)
  | object members ih =>
    obtain ⟨span, hspan⟩ := Option.isSome_iff_exists.mp (h _ (List.mem_cons_self ..))
    have hshape : nodeSpan? members = some span := hspan
    have hmembers := List.map_congr_left fun m hm =>
      congrArg (m.1, ·) (ih m hm (h.member hm))
    simp [decorate, toTree, Tree.decorated, hshape, Function.comp_def, hmembers]
  | _ => rfl

end Nodal

/-! ### Taking marks away -/

mutual

/-- The value without the marks of the objects in it. -/
def erase : Json → Json
  | array items => array (eraseItems items)
  | object members => object (eraseMembers members)
  | value => value

/-- Items without marks. -/
def eraseItems : List Json → List Json
  | [] => []
  | item :: items => item.erase :: eraseItems items

/-- Members without those that are marks, and without marks in them. -/
def eraseMembers : List (String × Json) → List (String × Json)
  | [] => []
  | (key, value) :: members =>
    if key = "range" ∨ key = "loc" then eraseMembers members
    else (key, value.erase) :: eraseMembers members

end

@[simp] theorem eraseItems_eq (items : List Json) : eraseItems items = items.map erase := by
  induction items with
  | nil => rfl
  | cons item items ih => rw [eraseItems, ih, List.map_cons]

@[simp] theorem eraseMembers_append (members others : List (String × Json)) :
    eraseMembers (members ++ others) = eraseMembers members ++ eraseMembers others := by
  induction members with
  | nil => rfl
  | cons m members ih =>
    obtain ⟨key, value⟩ := m
    rw [List.cons_append, eraseMembers, eraseMembers, ih]
    split <;> rfl

/-- No member has the name of a mark. -/
def Unmarked : Json → Prop
  | object members => ∀ m ∈ members, m.1 ≠ "range" ∧ m.1 ≠ "loc"
  | _ => True

/-- Of members that are no marks, none is taken away. -/
theorem eraseMembers_eq {members : List (String × Json)} (h : (object members).Unmarked) :
    eraseMembers members = members.map fun m => (m.1, m.2.erase) := by
  induction members with
  | nil => rfl
  | cons m members ih =>
    obtain ⟨hm, hmembers⟩ := List.forall_mem_cons.mp h
    rw [eraseMembers, if_neg (by simpa using hm), ih hmembers, List.map_cons]

/-- All that is put on a node is taken away. -/
@[simp] theorem eraseMembers_marks (decoration : Decoration) (span : Span) :
    eraseMembers (decoration.marks span) = [] := by
  unfold Decoration.marks
  cases decoration.range <;> cases decoration.lines <;> simp [eraseMembers]

/-- Where no object has members with the names of marks, taking marks away undoes decorating. -/
theorem erase_decorate (decoration : Decoration) {value : Json}
    (h : ∀ v ∈ value.objects, v.Unmarked) : (value.decorate decoration).erase = value := by
  induction value using Json.induction with
  | array items ih =>
    have hitems : items.map (erase ∘ decorate decoration) = items := by
      refine (List.map_congr_left fun v hv => ih v hv fun o ho => h o ?_).trans (List.map_id items)
      simpa [objects] using ⟨v, hv, ho⟩
    simp [decorate, erase, hitems]
  | object members ih =>
    have hbelow (m) (hm : m ∈ members) : (decorate decoration m.2).erase = m.2 :=
      ih m hm fun o ho => h o (by simpa [objects] using .inr ⟨m.1, m.2, hm, ho⟩)
    have hkeys : (object (members.map fun m => (m.1, decorate decoration m.2))).Unmarked :=
      List.forall_mem_map.mpr (h _ (List.mem_cons_self ..))
    cases hspan : nodeSpan? members <;>
      simp [decorate, erase, hspan, eraseMembers_eq hkeys, Function.comp_def,
        map_members_eq (fun v => (v.decorate decoration).erase) hbelow]
  | _ => rfl

end Json

end SolidityParser
