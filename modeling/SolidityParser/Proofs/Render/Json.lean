import Mathlib.Data.List.Nodup
import SolidityParser.Render.Decoration

/-!
# What JSON values tell

Which values a JSON value was made of: a node tells its type, its place and its fields
(`Json.node_inj`), a list its elements (`Json.map_inj`), and a keyword or an operator what it stands
for. Without marks, decorating leaves a value as it is (`Program.render_plain`).
-/

namespace SolidityParser

open Json (node ofText? of? ofList?)

namespace Json

variable {α : Type} {f : α → Json}

/-- Nodes are equal if their types, places and fields are. -/
@[simp] theorem node_inj {type type' : String} {span span' : Span}
    {fields fields' : List (String × Json)} :
    node type span fields = node type' span' fields' ↔
      type = type' ∧ span = span' ∧ fields = fields' := by
  constructor
  · intro h
    simp only [node, object.injEq, List.cons_append, List.cons.injEq, Prod.mk.injEq, string.injEq,
      true_and] at h
    obtain ⟨rfl, h⟩ := h
    obtain ⟨rfl, hends⟩ := List.append_inj' h rfl
    obtain ⟨start, stop⟩ := span
    obtain ⟨start', stop'⟩ := span'
    simp [ofNat] at hends
    simp [hends]
  · rintro ⟨rfl, rfl, rfl⟩
    rfl

@[simp] theorem node_ne_null {type : String} {span : Span} {fields : List (String × Json)} :
    node type span fields ≠ null := by
  simp [node]

/-- The type of a node. -/
def type? : Json → Option String
  | object ((_, string type) :: _) => some type
  | _ => none

@[simp] theorem type?_node {type : String} {span : Span} {fields : List (String × Json)} :
    (node type span fields).type? = some type := by
  rfl

@[simp] theorem ofText?_inj {o o' : Option String} : ofText? o = ofText? o' ↔ o = o' := by
  cases o <;> cases o' <;> simp [ofText?]

/-- Values that may be missing are equal if their JSON values are. -/
theorem of?_inj (hnull : ∀ v, f v ≠ null) {o o' : Option α} (h : of? f o = of? f o')
    (inj : ∀ v ∈ o, ∀ w ∈ o', f v = f w → v = w) : o = o' := by
  cases o with
  | none =>
    cases o' with
    | none => rfl
    | some w => exact absurd h.symm (hnull w)
  | some v =>
    cases o' with
    | none => exact absurd h (hnull v)
    | some w => exact congrArg some (inj v rfl w rfl h)

/-- Lists are equal if the JSON values of their elements are. -/
theorem map_inj {l l' : List α} (h : l.map f = l'.map f)
    (inj : ∀ v ∈ l, ∀ w ∈ l', f v = f w → v = w) : l = l' := by
  induction l generalizing l' with
  | nil => exact (List.map_eq_nil_iff.mp h.symm).symm
  | cons v l ih =>
    obtain ⟨w, l', rfl, hw, hl⟩ := List.map_eq_cons_iff.mp h.symm
    rw [inj v (List.mem_cons_self ..) w (List.mem_cons_self ..) hw.symm,
      ih hl.symm fun v hv w hw => inj v (List.mem_cons_of_mem _ hv) w (List.mem_cons_of_mem _ hw)]

/-- Lists that may be missing are equal if the JSON values of their elements are. -/
theorem ofList?_inj {o o' : Option (List α)} (h : ofList? f o = ofList? f o')
    (inj : ∀ v w, f v = f w → v = w) : o = o' := by
  cases o <;> cases o' <;> simp [ofList?] at h ⊢
  exact map_inj h fun v _ w _ => inj v w

end Json

@[simp] theorem Expression.optionToJson_eq (o : Option (Expression Span)) :
    Expression.optionToJson o = of? Expression.toJson o := by
  cases o <;> rfl

@[simp] theorem Expression.slotsToJson_eq (slots : List (Option (Expression Span))) :
    Expression.slotsToJson slots = slots.map (of? Expression.toJson) := by
  induction slots with
  | nil => rfl
  | cons slot slots ih => simp [Expression.slotsToJson, ih]

@[simp] theorem Expression.listToJson_eq (es : List (Expression Span)) :
    Expression.listToJson es = es.map Expression.toJson := by
  induction es with
  | nil => rfl
  | cons e es ih => simp [Expression.listToJson, ih]

@[simp] theorem NamedArgument.listToJson_eq (as : List (NamedArgument Span)) :
    NamedArgument.listToJson as = as.map NamedArgument.toJson := by
  induction as with
  | nil => rfl
  | cons a as ih => simp [NamedArgument.listToJson, ih]

@[simp] theorem Parameter.listToJson_eq (ps : List (Parameter Span)) :
    Parameter.listToJson ps = ps.map Parameter.toJson := by
  induction ps with
  | nil => rfl
  | cons p ps ih => simp [Parameter.listToJson, ih]

@[simp] theorem Statement.optionToJson_eq (o : Option (Statement .located)) :
    Statement.optionToJson o = of? Statement.toJson o := by
  cases o <;> rfl

@[simp] theorem Statement.listToJson_eq (ss : List (Statement .located)) :
    Statement.listToJson ss = ss.map Statement.toJson := by
  induction ss with
  | nil => rfl
  | cons s ss ih => simp [Statement.listToJson, ih]

@[simp] theorem CatchClause.listToJson_eq (cs : List (CatchClause .located)) :
    CatchClause.listToJson cs = cs.map CatchClause.toJson := by
  induction cs with
  | nil => rfl
  | cons c cs ih => simp [CatchClause.listToJson, ih]

@[simp] theorem Block.toJson_eq (b : Block .located) :
    b.toJson = node "Block" b.place [("body", .array (b.body.map Statement.toJson))] := by
  cases b
  simp [Block.toJson, Block.place, Block.body]

/-! ### Words -/

@[simp] theorem Visibility.map_text_inj {o o' : Option Visibility} :
    o.map Visibility.text = o'.map Visibility.text ↔ o = o' := by
  have hinj : Function.Injective Visibility.text := by
    intro v w h
    cases v <;> cases w <;> first | rfl | simp [text, kind, Kind.text] at h
  exact (Option.map_injective hinj).eq_iff

@[simp] theorem StateMutability.map_text_inj {o o' : Option StateMutability} :
    o.map StateMutability.text = o'.map StateMutability.text ↔ o = o' := by
  have hinj : Function.Injective StateMutability.text := by
    intro v w h
    cases v <;> cases w <;> first | rfl | simp [text, kind, Kind.text] at h
  exact (Option.map_injective hinj).eq_iff

@[simp] theorem StorageLocation.map_text_inj {o o' : Option StorageLocation} :
    o.map StorageLocation.text = o'.map StorageLocation.text ↔ o = o' := by
  have hinj : Function.Injective StorageLocation.text := by
    intro v w h
    cases v <;> cases w <;> first | rfl | simp [text, kind, Kind.text] at h
  exact (Option.map_injective hinj).eq_iff

@[simp] theorem ContractKind.text_inj {v w : ContractKind} : v.text = w.text ↔ v = w := by
  cases v <;> cases w <;> decide

@[simp] theorem StringKind.text_inj {v w : StringKind} : v.text = w.text ↔ v = w := by
  cases v <;> cases w <;> decide

@[simp] theorem UnaryOp.symbol_inj {v w : UnaryOp} : v.symbol = w.symbol ↔ v = w := by
  cases v <;> cases w <;> decide

@[simp] theorem BinaryOp.symbol_inj {v w : BinaryOp} : v.symbol = w.symbol ↔ v = w := by
  have hmem (op : BinaryOp) : op ∈ BinaryOp.all := by cases op <;> decide
  have hnodup : (BinaryOp.all.map symbol).Nodup := by decide
  exact ⟨List.inj_on_of_nodup_map hnodup (hmem v) (hmem w), congrArg symbol⟩

@[simp] theorem AssignOp.symbol_inj {v w : AssignOp} : v.symbol = w.symbol ↔ v = w := by
  cases v <;> cases w <;> decide

/-! ### Values without marks -/

/-- No marks. -/
def Decoration.plain : Decoration := ⟨false, none⟩

@[simp] theorem Decoration.marks_plain (span : Span) : plain.marks span = [] := rfl

namespace Json

mutual

theorem decorate_plain : (value : Json) → value.decorate .plain = value
  | null | bool _ | number _ | string _ => rfl
  | array items => by rw [decorate, decorateItems_plain items]
  | object members => by
    rw [decorate, decorateMembers_plain members]
    cases nodeSpan? members <;> simp

theorem decorateItems_plain : (items : List Json) → decorateItems .plain items = items
  | [] => rfl
  | item :: items => by
    rw [decorateItems, decorate_plain item, decorateItems_plain items]

theorem decorateMembers_plain :
    (members : List (String × Json)) → decorateMembers .plain members = members
  | [] => rfl
  | (_, value) :: members => by
    rw [decorateMembers, decorate_plain value, decorateMembers_plain members]

end

end Json

@[simp] theorem Program.render_plain (program : Program) :
    program.render .plain = program.toJson :=
  Json.decorate_plain _

end SolidityParser
