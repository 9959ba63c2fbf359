import SolidityParser.Proofs.Production.Outline

/-!
# What stands before a part

In the productions for expressions and types a smaller construct is the first symbol, or has a token
right before it that is no string (`Phrased.leads`). So wherever an expression stands within
another, it is not a string that it stands after (`leads_of_within`), and strings that a literal
begins with are not cut off on the left.
-/

namespace SolidityParser

open SolidityParser.Symbol

namespace Symbol

/-- Each smaller construct has a token right before it that is no string. `allowed` tells whether
one may come first. -/
def Leads : Bool → List Symbol → Prop
  | _, [] => True
  | allowed, .part _ :: rest | allowed, .path _ _ _ :: rest => allowed = true ∧ Leads false rest
  | _, .token kind :: rest | _, .word kind _ :: rest => Leads (!kind.isString) rest
  | allowed, .no _ :: rest | allowed, .here _ :: rest => Leads allowed rest

variable {allowed : Bool} {left right : List Symbol} {items : List (List Symbol)}

@[simp] theorem leads_nil : Leads allowed [] := trivial

@[simp] theorem leads_part {place : Extent} {rest : List Symbol} :
    Leads allowed (.part place :: rest) ↔ allowed = true ∧ Leads false rest := Iff.rfl

@[simp] theorem leads_token {kind : Kind} {rest : List Symbol} :
    Leads allowed (.token kind :: rest) ↔ Leads (!kind.isString) rest := Iff.rfl

@[simp] theorem leads_word {kind : Kind} {text : String} {rest : List Symbol} :
    Leads allowed (.word kind text :: rest) ↔ Leads (!kind.isString) rest := Iff.rfl

@[simp] theorem leads_no {ahead : Lookahead} {rest : List Symbol} :
    Leads allowed (.no ahead :: rest) ↔ Leads allowed rest := Iff.rfl

/-- What begins with a token may come after anything. -/
theorem Leads.append (h : Leads allowed left) (hright : ∀ allowed, Leads allowed right) :
    Leads allowed (left ++ right) := by
  induction left generalizing allowed with
  | nil => exact hright allowed
  | cons symbol left ih =>
    cases symbol with
    | part | path => exact ⟨h.1, ih h.2⟩
    | token | word | no | here => exact ih h

/-- Tokens may come after anything. -/
theorem leads_of_parts (h : parts left = []) (allowed : Bool) : Leads allowed left := by
  induction left generalizing allowed with
  | nil => trivial
  | cons symbol left ih =>
    cases symbol with
    | part | path => cases h
    | token | word | no | here => exact ih h _

/-- A part that may be missing leads as one does. -/
theorem leads_option (place : Option Extent) : Leads true (option place) := by
  cases place <;> simp [option]

/-- Behind a comma anything may come. -/
theorem leads_separated (h : ∀ item ∈ items, Leads true item) : Leads true (separated items) := by
  induction items with
  | nil => trivial
  | cons item items ih =>
    obtain ⟨hitem, hitems⟩ := List.forall_mem_cons.mp h
    cases items with
    | nil => exact hitem
    | cons next items => exact hitem.append fun _ => ih hitems

/-- The token that closes a list leads whatever comes next. -/
theorem leads_series (h : ∀ item ∈ items, Leads true item) (close : Kind) :
    Leads true (series close items) :=
  (leads_separated h).append fun _ => trivial

/-- Parts with commas between. -/
theorem leads_series_parts {α : Type} (place : α → Extent) (values : List α) (close : Kind) :
    Leads true (series close (values.map fun v => [.part (place v)])) :=
  leads_series (List.forall_mem_map.mpr fun _ _ => leads_part.mpr ⟨rfl, leads_nil⟩) close

/-- Parameters are led by the parenthesis in front of them. -/
theorem leads_parameters (parameters : List (Parameter Extent)) (allowed : Bool) :
    Leads allowed (Symbol.parameters parameters) :=
  leads_series_parts _ parameters .rparen

/-- So are results. -/
theorem leads_returns (returns : Option (List (Parameter Extent))) (allowed : Bool) :
    Leads allowed (Symbol.returns returns) := by
  cases returns with
  | none => trivial
  | some parameters => exact leads_parameters parameters true

end Symbol

/-! ### Expressions and types -/

namespace Part

/-- Is the part one that an expression may have in it? -/
def IsInner : Part .parsed → Prop
  | .identifier _ | .expression _ | .namedArgument _ | .typeName _ | .parameter _ => True
  | _ => False

/-- What is in an expression has no other parts in it. -/
theorem IsInner.below {part child : Part .parsed} {field : List (Part .parsed)} (h : part.IsInner)
    (hfield : field ∈ part.fields) (hchild : child ∈ field) : child.IsInner := by
  have hmem : child ∈ part.fields.flatten := List.mem_flatten.mpr ⟨field, hfield, hchild⟩
  cases part with
  | identifier => simp [fields] at hmem
  | expression value =>
    cases value
    case call given =>
      cases given <;> simp [fields, expressionFields] at hmem <;>
        rcases hmem with rfl | ⟨_, _, rfl⟩ <;> trivial
    all_goals simp [fields, expressionFields] at hmem
    all_goals grind [IsInner]
  | namedArgument value | parameter value =>
    cases value
    simp [fields] at hmem
    exact hmem ▸ trivial
  | typeName value =>
    cases value <;> simp [fields, typeFields] at hmem <;> grind [IsInner]
  | _ => cases h

/-- In an expression, each part that is not the first has a token before it that is no string. -/
theorem Phrased.leads {part : Part .parsed} {symbols : List Symbol} (h : part.Phrased symbols)
    (hinner : part.IsInner) : Symbol.Leads true symbols := by
  cases h with
  | identifier | name | number | numberWithUnit | boolean | payableAddress => trivial
  | string | userDefined =>
    exact leads_of_parts (by simp [parts, Symbol.parts_flatMap]) true
  | @elementary _ name =>
    refine leads_of_parts ?_ true
    split <;> rfl
  | new | member | namedArgument | conditional => simp [Kind.isString]
  | after => exact ⟨rfl, trivial⟩
  | @before _ operator _ => cases operator <;> simp [UnaryOp.kind, Kind.isString]
  | @binary _ operator _ _ => cases operator <;> simp [BinaryOp.kind, Kind.isString]
  | @assignment _ operator _ _ => cases operator <;> simp [AssignOp.kind, Kind.isString]
  | tuple => exact leads_series (List.forall_mem_map.mpr fun _ _ => leads_option _) .rparen
  | array => exact leads_series_parts _ _ _
  | call => exact ⟨rfl, leads_series_parts _ _ _⟩
  | callOptions => exact ⟨rfl, leads_series_parts _ _ _⟩
  | callByName => exact ⟨rfl, (leads_series_parts _ _ _).append fun _ => trivial⟩
  | index | arrayType => exact ⟨rfl, (leads_option _).append fun _ => trivial⟩
  | slice =>
    refine .append (.append ⟨rfl, ?_⟩ fun allowed => leads_token.mpr ?_) fun _ => trivial
    all_goals exact leads_option _
  | mapping =>
    refine .append (.append ⟨rfl, ?_⟩ fun _ => ⟨rfl, ?_⟩) fun _ => trivial
    all_goals exact leads_of_parts (parts_name _) false
  | @functionType _ parameters returns kinds =>
    refine .append (.append (leads_parameters parameters true) fun allowed => ?_) fun allowed => ?_
    · exact leads_of_parts (parts_map_token kinds) allowed
    · exact leads_returns returns allowed
  | parameter =>
    refine .append (.append ⟨rfl, ?_⟩ fun allowed => ?_) fun allowed => ?_
    · exact leads_of_parts (parts_location _) false
    · refine leads_of_parts ?_ allowed
      split <;> rfl
    · exact leads_of_parts (parts_name _) allowed
  | _ => cases hinner

end Part

/-! ### The token before an expression -/

namespace Lexemes

variable {lexemes : Lexemes} {i j n : Nat} {symbols : List Symbol} {allowed : Bool}
  {part child : Part .parsed}

/-- There is no string right before an index. -/
def Leads (lexemes : Lexemes) (i : Nat) : Prop :=
  ∀ n, n + 1 = i → (lexemes.kindAt n).isString = false

/-- After a token that is no string an expression may begin. -/
theorem leads_succ {kind : Kind} (hkind : lexemes.kindAt i = kind)
    (hstring : (!kind.isString) = true) : lexemes.Leads (i + 1) := by
  intro n hn
  obtain rfl := Nat.succ.inj hn
  rw [hkind]
  simpa using hstring

/-- A smaller construct stands where the node does, or after a token that is no string. -/
theorem Spells.leads (h : lexemes.Spells i symbols j) (hsymbols : Symbol.Leads allowed symbols)
    (hi : allowed = true → lexemes.Leads i) :
    ∀ place ∈ parts symbols, lexemes.Leads place.first := by
  intro place hplace
  induction symbols generalizing i allowed with
  | nil => cases hplace
  | cons symbol symbols ih =>
    cases symbol with
    | token kind => exact ih h.2 hsymbols (leads_succ h.1.2) hplace
    | word kind text => exact ih h.2 hsymbols (leads_succ h.1.2.1) hplace
    | no | here => exact ih h.2 hsymbols hi hplace
    | part | path =>
      rcases List.mem_cons.mp hplace with rfl | hplace
      · exact h.1.1 ▸ hi hsymbols.1
      · exact ih h.2 hsymbols.2 nofun hplace

/-- No part of an expression stands right after a string, unless the expression does. -/
theorem leads_of_within (hall : part.All lexemes.Holds) (hinner : part.IsInner)
    (hfirst : lexemes.Leads part.place.first) (hwithin : part.Within child) :
    lexemes.Leads child.place.first := by
  induction hwithin with
  | self => exact hfirst
  | @step top child _ field hfield hchild _ ih =>
    obtain ⟨-, symbols, hphrased, hspells⟩ := hall.here
    have hplace : child.place ∈ parts symbols :=
      (hphrased.outlined.inOrder field hfield).subset (List.mem_map_of_mem hchild)
    exact ih (hall.below hfield hchild) (hinner.below hfield hchild)
      (hspells.leads (hphrased.leads hinner) (fun _ => hfirst) _ hplace)

end Lexemes

end SolidityParser
