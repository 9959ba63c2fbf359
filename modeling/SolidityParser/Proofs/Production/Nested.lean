import SolidityParser.Proofs.Complete.Block
import SolidityParser.Proofs.Production.Prune
import SolidityParser.Proofs.Production.Token

/-!
# Parts of statements and declarations

What a production for statements or declarations names as smaller constructs are the parts of the
node, and each part with statements or declarations in it is named (`Composed.child_of_part`,
`Composed.part_of_child`). Each of these ends the node, or has a keyword, a brace or another of them
after it (`Composed.followed`); any other part has more of the node after it (`Composed.last`).
-/

namespace SolidityParser

open SolidityParser.Symbol (option separated series parts)

/-! ### Parts that are named -/

namespace Symbol

variable {place : Extent}

@[simp] theorem part_mem_option {o : Option Extent} : .part place ∈ option o ↔ o = some place := by
  cases o <;> simp [option, eq_comm]

@[simp] theorem part_mem_parameters {parameters : List (Parameter Extent)} :
    .part place ∈ Symbol.parameters parameters ↔ ∃ p ∈ parameters, p.place = place := by
  simp [Symbol.parameters, mem_series, eq_comm]

@[simp] theorem part_mem_returns {parameters : Option (List (Parameter Extent))} :
    .part place ∈ Symbol.returns parameters ↔ ∃ p ∈ parameters.getD [], p.place = place := by
  cases parameters <;> simp [Symbol.returns]

@[simp] theorem part_mem_row {places : List Extent} :
    .part place ∈ row places ↔ place ∈ places := by
  simp [row]

@[simp] theorem part_mem_orElse {o : Option Extent} : .part place ∈ orElse o ↔ o = some place := by
  cases o <;> simp [orElse, eq_comm]

@[simp] theorem part_mem_initial {o : Option Extent} :
    .part place ∈ initial o ↔ o = some place := by
  cases o <;> simp [initial, eq_comm]

@[simp] theorem part_mem_body {o : Option Extent} :
    .part place ∈ Symbol.body o ↔ o = some place := by
  cases o <;> simp [Symbol.body, eq_comm]

@[simp] theorem part_mem_given {parameters : Option (List (Parameter Extent))} :
    .part place ∈ Symbol.given parameters ↔ ∃ p ∈ parameters.getD [], p.place = place := by
  cases parameters <;> simp [Symbol.given]

end Symbol

/-- All modifiers of a function that are written are kept. -/
theorem FunctionAttributes.mem_modifiers_ofItems {items : List Attribute} {v : Invocation Extent} :
    v ∈ (FunctionAttributes.ofItems items).modifiers ↔ .modifier v ∈ items := by
  have from_any (attributes : FunctionAttributes Extent) :
      v ∈ (items.foldl FunctionAttributes.set attributes).modifiers ↔
        v ∈ attributes.modifiers ∨ .modifier v ∈ items := by
    induction items generalizing attributes with
    | nil => simp
    | cons item items ih =>
      rw [List.foldl_cons, ih]
      cases item <;> simp [FunctionAttributes.set, or_assoc]
  rw [ofItems, from_any]
  simp

namespace Part

/-- A production names each part with statements or declarations in it. -/
theorem Composed.part_of_child {part : Part .parsed} {symbols : List Symbol}
    (h : part.Composed symbols) : ∀ field ∈ part.fields, ∀ child ∈ field, ¬ child.IsOpen →
      .part child.place ∈ symbols := by
  induction h with
  | unit hmember _ ih => exact SourceUnit.fields_of_member? hmember ▸ ih
  | _ =>
    simp [fields, statementFields, memberFields, functionFields, attributeFields, parametersField,
      overridesField, unitFields, IsOpen, Part.place, Block.body]
    try grind

/-- Each part of a node is in one of its fields. -/
theorem child_of_mem_flatten {part : Part .parsed} (child : Part .parsed)
    (h : child ∈ part.fields.flatten) :
    ∃ field ∈ part.fields, ∃ c ∈ field, c.place = child.place := by
  obtain ⟨field, hfield, hchild⟩ := List.mem_flatten.mp h
  exact ⟨field, hfield, child, hchild, rfl⟩

/-- What a production names as a smaller construct is a part of the node. -/
theorem Composed.child_of_part {part : Part .parsed} {symbols : List Symbol} {place : Extent}
    (h : part.Composed symbols) (hplace : .part place ∈ symbols) :
    ∃ field ∈ part.fields, ∃ child ∈ field, child.place = place := by
  induction h with
  | unit hmember _ ih => exact SourceUnit.fields_of_member? hmember ▸ ih hplace
  | @constructor _ parameters items body =>
    simp [Symbol.part_mem_attributes, ← FunctionAttributes.mem_modifiers_ofItems] at hplace
    rcases hplace with ⟨p, hp, rfl⟩ | ⟨v, hv, rfl⟩ | rfl
    · exact child_of_mem_flatten (.parameter p) (by simp [fields, memberFields, hp])
    · exact child_of_mem_flatten (.invocation v) (by simp [fields, memberFields, hv])
    · exact child_of_mem_flatten (.block body) (by simp [fields, memberFields])
  | @receive _ items body =>
    simp [Symbol.part_mem_attributes, ← FunctionAttributes.mem_modifiers_ofItems] at hplace
    rcases hplace with ⟨v, hv, rfl⟩ | ⟨body, rfl, rfl⟩
    · exact child_of_mem_flatten (.invocation v)
        (by simp [fields, memberFields, attributeFields, hv])
    · exact child_of_mem_flatten (.block body) (by simp [fields, memberFields])
  | @fallback _ word _ _ _ _ hword =>
    have hplace' : Symbol.part place ≠ word := by rcases hword with rfl | rfl <;> simp
    simp [hplace', Symbol.signature, Symbol.part_mem_attributes,
      ← FunctionAttributes.mem_modifiers_ofItems] at hplace
    rcases hplace with ⟨p, hp, rfl⟩ | ⟨v, hv, rfl⟩ | ⟨p, hp, rfl⟩ | ⟨body, rfl, rfl⟩
    · exact child_of_mem_flatten (.parameter p) (by simp [fields, memberFields, hp])
    · exact child_of_mem_flatten (.invocation v)
        (by simp [fields, memberFields, attributeFields, hv])
    · exact child_of_mem_flatten (.parameter p)
        (by simp [fields, memberFields, parametersField, hp])
    · exact child_of_mem_flatten (.block body) (by simp [fields, memberFields])
  | function =>
    simp [Symbol.signature, Symbol.part_mem_attributes,
      ← FunctionAttributes.mem_modifiers_ofItems] at hplace
    rcases hplace with ⟨p, hp, rfl⟩ | ⟨v, hv, rfl⟩ | ⟨p, hp, rfl⟩ | ⟨body, rfl, rfl⟩
    · exact child_of_mem_flatten (.parameter p)
        (by simp [fields, memberFields, functionFields, hp])
    · exact child_of_mem_flatten (.invocation v)
        (by simp [fields, memberFields, functionFields, attributeFields, hv])
    · exact child_of_mem_flatten (.parameter p)
        (by simp [fields, memberFields, functionFields, parametersField, hp])
    · exact child_of_mem_flatten (.block body)
        (by simp [fields, memberFields, functionFields])
  | @modifier _ _ given items _ _ hitems =>
    have hnone (v : Invocation Extent) : Attribute.modifier v ∉ items := fun hv => hitems _ hv
    simp [Symbol.part_mem_attributes, hnone] at hplace
    rcases hplace with ⟨p, hp, rfl⟩ | ⟨body, rfl, rfl⟩
    · exact child_of_mem_flatten (.parameter p)
        (by simp [fields, memberFields, parametersField, hp])
    · exact child_of_mem_flatten (.block body) (by simp [fields, memberFields])
  | @assembly _ _ language flags =>
    cases language <;> cases flags <;> simp [Symbol.flags, Symbol.mem_series] at hplace
  | _ =>
    refine child_of_parts_eq ?_ hplace
    simp [fields, statementFields, unitFields, parts, Part.place, Function.comp_def,
      Option.toList_map, apply_ite parts, Block.body, parametersField]

/-! ### What is looked ahead for -/

/-- Is this a `try` statement? -/
def IsTry {F : Form} : Part F → Prop
  | statement (.tryCatch ..) => True
  | _ => False

/-- What a statement or a declaration looks ahead for: one of three keywords, or options after what
is tried. -/
theorem Composed.lookahead {part : Part .parsed} {symbols : List Symbol} {tests : Lookahead}
    (h : part.Composed symbols) (hno : .no tests ∈ symbols) :
    (∃ k, (k = .kwElse ∨ k = .kwCatch ∨ k = .kwReturns) ∧ tests = .kinds [k]) ∨
      tests = .options ∧ part.IsTry := by
  induction h with
  | unit _ _ ih => simpa [IsTry] using ih hno
  | @ifElse _ _ _ alternate =>
    cases alternate <;> simp [Symbol.orElse] at hno
    exact .inl ⟨_, .inl rfl, hno⟩
  | @forLoop _ initial => cases initial <;> simp [Symbol.initial, option] at hno
  | tryCatch =>
    simp [Symbol.row] at hno
    rcases hno with hno | ⟨-, hno⟩ | hno
    · exact .inr ⟨hno, trivial⟩
    · exact .inl ⟨_, .inr (.inr rfl), hno⟩
    · exact .inl ⟨_, .inr (.inl rfl), hno⟩
  | @assembly _ _ language flags =>
    cases language <;> cases flags <;> simp [Symbol.flags, Symbol.mem_series] at hno
  | clause =>
    rename_i given _ _
    cases given <;> simp [Symbol.given, Symbol.name] at hno
  | receive =>
    rename_i body _
    cases body <;> simp [Symbol.body] at hno
  | fallback hword =>
    rename_i body _ _
    rcases hword with rfl | rfl <;>
    cases body <;> simp [Symbol.body, Symbol.signature] at hno
    all_goals exact .inl ⟨_, .inr (.inr rfl), hno.2⟩
  | function =>
    rename_i body _ _
    cases body <;> simp [Symbol.body, Symbol.signature] at hno
    all_goals exact .inl ⟨_, .inr (.inr rfl), hno.2⟩
  | modifier =>
    rename_i given items body _ _
    cases given <;> cases body <;> simp [Symbol.body, Symbol.given] at hno
  | contract =>
    rename_i bases body
    cases bases <;> simp [Symbol.bases, Symbol.row, Symbol.mem_separated] at hno
  | _ => simp [Symbol.row, option] at hno


/-! ### Statements -/

/-- A statement right below a part stands in a block, or where any may stand, or it is what a loop
does first. -/
theorem statement_mem {F : Form} {part : Part F} (hblock : ¬ part.IsBlock) :
    ∀ field ∈ part.fields, ∀ s, .statement s ∈ field → s ∈ part.branches ∨ s ∈ part.initial? := by
  cases part with
  | expression value =>
    cases value
    case call given => cases given <;> simp [fields, expressionFields]
    all_goals simp [fields, expressionFields]
  | typeName value => cases value <;> simp [fields, typeFields]
  | statement value =>
    cases value <;> simp +contextual [fields, statementFields, branches, initial?,
      parametersField]
  | namedArgument value | parameter value | clause value =>
    cases value
    simp [fields, parametersField]
  | block value => exact absurd trivial hblock
  | member value =>
    cases value <;> simp [fields, memberFields, functionFields, attributeFields, parametersField,
      overridesField, baseField]
  | unit value =>
    cases value <;> simp [fields, unitFields, functionFields, attributeFields, parametersField,
      overridesField, baseField]
  | _ => simp [fields]

/-- What a loop does first is simple. -/
theorem Composed.initial_isSimple {part : Part .parsed} {symbols : List Symbol}
    (h : part.Composed symbols) : ∀ s ∈ part.initial?, s.IsSimple := by
  cases h with
  | forLoop hinitial => exact hinitial
  | _ => simp [initial?]

/-- No part of a production but a block is a statement that could not be read. -/
theorem Composed.child_complete {lexemes : Lexemes} {part : Part .parsed} {symbols : List Symbol}
    (h : part.Composed symbols) (hdecided : lexemes.Decided part) (hblock : ¬ part.IsBlock) :
    ∀ field ∈ part.fields, ∀ child ∈ field, ¬ child.IsIncomplete := by
  intro field hfield child hchild hincomplete
  cases child with
  | statement s =>
    rcases statement_mem hblock field hfield s hchild with hs | hs
    · exact hdecided.complete s hs hincomplete
    · have hsimple := h.initial_isSimple s hs
      cases s <;> first | exact hsimple | exact hincomplete
  | _ => exact hincomplete

/-! ### What comes after a part -/

/-- What stands last in a statement or a declaration with parts of its own: a token that is no
point, or a block, a statement or a clause. -/
theorem Composed.last {part : Part .parsed} {symbols : List Symbol} (h : part.Composed symbols) :
    part.fields.flatten = [] ∨
    (∃ k, k ≠ .dot ∧ (symbols.filter (·.isSolid)).getLast? = some (.token k)) ∨
      ∃ child ∈ part.fields.flatten, ¬ child.IsOpen ∧
        (symbols.filter (·.isSolid)).getLast? = some (.part child.place) := by
  induction h with
  | unit hmember _ ih => exact SourceUnit.fields_of_member? hmember ▸ ih
  | assembly => exact .inl rfl
  | @forLoop _ _ _ _ body =>
    refine .inr (.inr ⟨.statement body, by simp [fields, statementFields], id, ?_⟩)
    simp [Symbol.isSolid, List.getLast?_append, List.getLast?_cons, Part.place]
  | @constructor _ _ _ body =>
    refine .inr (.inr ⟨.block body, by simp [fields, memberFields], id, ?_⟩)
    simp [Symbol.isSolid, List.getLast?_append, List.getLast?_cons, Part.place]
  | @clause _ _ _ body =>
    refine .inr (.inr ⟨.block body, by simp [fields], id, ?_⟩)
    simp [Symbol.isSolid, List.getLast?_append, List.getLast?_cons, Part.place]
  | blockStatement | whileLoop | unchecked =>
    refine .inr (.inr ?_)
    simp [fields, statementFields, IsOpen, Symbol.isSolid, Part.place]
  | @ifElse _ _ _ alternate =>
    refine .inr (.inr ?_)
    cases alternate <;>
      simp [fields, statementFields, IsOpen, Symbol.isSolid, List.getLast?_cons, Part.place,
        Symbol.orElse]
  | @tryCatch _ _ _ _ clauses _ hclauses =>
    obtain rfl | ⟨clauses, clause, rfl⟩ := List.eq_nil_or_concat clauses
    · exact absurd rfl hclauses
    · refine .inr (.inr ⟨.clause clause, by simp [fields, statementFields], id, ?_⟩)
      simp [Symbol.isSolid, List.getLast?_append, List.getLast?_cons, Symbol.row, Part.place,
        List.filter_map, Function.comp_def]
  | @receive _ _ body | @fallback _ _ _ _ _ body | @function _ _ _ _ _ body
  | @modifier _ _ _ _ body =>
    cases body with
    | none =>
      refine .inr (.inl ⟨.semicolon, by decide, ?_⟩)
      simp [Symbol.isSolid, List.getLast?_append, List.getLast?_cons, Symbol.body]
    | some body =>
      refine .inr (.inr ⟨.block body, ?_, id, ?_⟩)
      · simp [fields, memberFields, functionFields]
      · simp [Symbol.isSolid, List.getLast?_append, List.getLast?_cons, Symbol.body, Part.place]
  | _ =>
    refine .inr (.inl ?_)
    simp [Symbol.isSolid, List.getLast?_append, List.getLast?_cons, option]

/-- Is this a declaration of variables or an expression, as a statement? -/
def IsSimple {F : Form} : Part F → Prop
  | statement s => s.IsSimple
  | _ => False

end Part

namespace Lexemes

variable {lexemes : Lexemes} {i j k : Nat}

/-- Parts in a row: each has another one after it, or is the last. -/
theorem Spells.row_next {places : List Extent} {place : Extent} {rest : List Symbol}
    (h : lexemes.Spells i (Symbol.row places ++ rest) j) (hplace : place ∈ places) :
    (∃ next ∈ places, next.first = place.next) ∨ lexemes.Spells place.next rest j := by
  induction places generalizing i with
  | nil => cases hplace
  | cons first places ih =>
    obtain ⟨⟨-, -⟩, hrest⟩ := h
    rcases List.mem_cons.mp hplace with rfl | hplace
    · cases places with
      | nil => exact .inr hrest
      | cons next places => exact .inl ⟨next, by simp, hrest.1.1⟩
    · rcases ih hrest hplace with ⟨next, hnext, hfirst⟩ | hlast
      · exact .inl ⟨next, .tail _ hnext, hfirst⟩
      · exact .inr hlast

/-- What comes after a part of a statement or a declaration, whose tokens end at an index: nothing,
`else`, `while` or a brace, or another part with statements or declarations in it. -/
def Followed (lexemes : Lexemes) (part : Part .parsed) (j : Nat) (child : Part .parsed) : Prop :=
  child.place.next = j ∨
    (child.place.next < j ∧ (lexemes.kindAt child.place.next = .kwElse ∨
      lexemes.kindAt child.place.next = .kwWhile ∨
        lexemes.kindAt child.place.next = .rbrace)) ∨
    ∃ field ∈ part.fields, ∃ sibling ∈ field, ¬ sibling.IsOpen ∧
      sibling.place.first = child.place.next

/-- After the block of a `try` statement, or one of its clauses, comes the next clause, if any. -/
theorem followed_of_try {place : Extent} {call : Expression Extent}
    {returns : Option (List (Parameter Extent))} {body : Block .parsed}
    {clauses : List (CatchClause .parsed)} {child : Part .parsed}
    (hrow : lexemes.Spells i
      (Symbol.row (body.place :: clauses.map (·.place)) ++ [.no (.kinds [.kwCatch])]) j)
    (hplace : child.place ∈ body.place :: clauses.map (·.place)) :
    lexemes.Followed (.statement (.tryCatch place call returns body clauses)) j child := by
  rcases hrow.row_next hplace with ⟨next, hnext, hfirst⟩ | hlast
  · rcases List.mem_cons.mp hnext with rfl | hnext
    · exact .inr (.inr ⟨[.block body], by simp [Part.fields, Part.statementFields], _,
        List.mem_singleton_self _, id, hfirst⟩)
    · obtain ⟨clause, hclause, rfl⟩ := List.mem_map.mp hnext
      exact .inr (.inr ⟨clauses.map .clause, by simp [Part.fields, Part.statementFields], _,
        List.mem_map_of_mem hclause, id, hfirst⟩)
  · exact .inl hlast.2

/-- After a member of a contract comes the next, or the brace that ends the contract. -/
theorem followed_of_contract {contract : Contract .parsed} {member : ContractPart .parsed}
    (hrow : lexemes.Spells i (Symbol.row (contract.body.map (·.place)) ++ [.token .rbrace]) j)
    (hmember : member ∈ contract.body) :
    lexemes.Followed (.unit (.contract contract)) j (.member member) := by
  rcases hrow.row_next (List.mem_map_of_mem hmember) with ⟨next, hnext, hfirst⟩ | hlast
  · obtain ⟨other, hother, rfl⟩ := List.mem_map.mp hnext
    exact .inr (.inr ⟨contract.body.map .member, by simp [Part.fields, Part.unitFields],
      .member other, List.mem_map_of_mem hother, id, hfirst⟩)
  · obtain ⟨⟨-, hk⟩, hend⟩ := hlast
    refine .inr (.inl ⟨?_, .inr (.inr hk)⟩)
    change member.place.next + 1 = j at hend
    change member.place.next < j
    omega

end Lexemes

/-- Each part with statements or declarations in it ends what it is part of, or has one of these
after it. A declaration or an expression, as a statement, needs nothing after it. -/
theorem Part.Composed.followed {lexemes : Lexemes} {i j : Nat} {part : Part .parsed}
    {symbols : List Symbol} (h : part.Composed symbols) (hspells : lexemes.Spells i symbols j)
    (hblock : ¬ part.IsBlock) :
    ∀ field ∈ part.fields, ∀ child ∈ field, ¬ child.IsOpen → ¬ child.IsSimple →
      lexemes.Followed part j child := by
  -- what is spelled last ends with all
  have atEnd {place : Extent} {front : List Symbol}
      (hspells : lexemes.Spells i (front ++ [.part place]) j) : place.next = j := by
    obtain ⟨_, -, -, hnext⟩ := Lexemes.spells_append.mp hspells
    exact hnext
  induction h with
  | unit hmember _ ih =>
    simpa only [Lexemes.Followed, SourceUnit.fields_of_member? hmember] using ih hspells id
  | block => exact absurd trivial hblock
  | @ifElse _ _ consequent alternate =>
    obtain ⟨-, -, -, -, ⟨-, -⟩, helse⟩ := hspells
    cases alternate with
    | none =>
      simp [fields, statementFields, IsOpen, IsSimple]
      exact fun _ => .inl helse.2
    | some alternate =>
      obtain ⟨⟨-, hk⟩, ⟨hfirst, hcovers⟩, hnext⟩ := helse
      have hlt : alternate.place.first < alternate.place.next := hcovers.nonempty
      have hnext : alternate.place.next = j := hnext
      have hfirst : alternate.place.first = consequent.place.next + 1 := hfirst
      simp [fields, statementFields, IsOpen, IsSimple]
      refine ⟨fun _ => .inr (.inl ⟨?_, .inl hk⟩), fun _ => .inl hnext⟩
      change consequent.place.next < j
      omega
  | @forLoop _ initial test update body hinitial =>
    simp [fields, statementFields, IsOpen, IsSimple]
    refine ⟨fun s hs hsimple => absurd (hinitial s hs) hsimple, fun _ => .inl ?_⟩
    obtain ⟨_, -, _, -, hnext⟩ := Lexemes.spells_append.mp hspells
    exact hnext
  | @tryCatch place call returns body clauses =>
    rw [List.append_assoc] at hspells
    obtain ⟨k, -, hrow⟩ := Lexemes.spells_append.mp hspells
    simp [fields, statementFields, IsOpen, IsSimple, parametersField]
    exact ⟨Lexemes.followed_of_try hrow (List.mem_cons_self ..), fun clause hclause =>
      Lexemes.followed_of_try hrow (.tail _ (List.mem_map.mpr ⟨clause, hclause, rfl⟩))⟩
  | @contract _ _ _ _ bases body =>
    simp [fields, unitFields, IsOpen, IsSimple]
    rw [List.append_assoc] at hspells
    obtain ⟨_, -, -, hrow⟩ := Lexemes.spells_append.mp hspells
    exact fun m hm => Lexemes.followed_of_contract hrow hm
  | @doWhile _ body =>
    obtain ⟨-, ⟨-, -⟩, ⟨-, hk⟩, hrest⟩ := hspells
    have hle := hrest.inside.1
    simp [fields, statementFields, IsOpen, IsSimple]
    refine fun _ => .inr (.inl ⟨?_, .inr (.inl hk)⟩)
    change body.place.next < j
    omega
  | receive | fallback | function | modifier =>
    simp [fields, memberFields, functionFields, attributeFields, overridesField, IsOpen, IsSimple,
      parametersField]
    rintro body rfl
    exact .inl (atEnd hspells)
  | constructor =>
    simp [fields, memberFields, IsOpen, IsSimple]
    exact .inl (atEnd hspells)
  | clause =>
    simp [fields, IsOpen, IsSimple, parametersField]
    exact .inl (atEnd hspells)
  | whileLoop =>
    simp [fields, statementFields, IsOpen, IsSimple]
    exact fun _ => .inl hspells.2.2.2.2.2
  | blockStatement =>
    simp [fields, statementFields, IsOpen, IsSimple]
    exact .inl hspells.2
  | unchecked =>
    simp [fields, statementFields, IsOpen, IsSimple]
    exact .inl hspells.2.2
  | _ =>
    simp [fields, statementFields, IsOpen]

end SolidityParser
