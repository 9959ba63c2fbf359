import SolidityParser.Proofs.Production.Compound

/-!
# Trees without incomplete statements

`Part.prune` takes every statement that could not be read out of the block it stands in, and leaves
all else as it is, places included. So a tree without such statements stays the same
(`Part.prune_of_complete`), and what is no block is still written by the same production
(`Part.Composed.prune`).
-/

namespace SolidityParser

variable {F G : Form}

/-! ### Taking statements out -/

mutual

/-- The statement, with no incomplete statement in its blocks. -/
def Statement.prune : Statement F → Statement F
  | .block body => .block body.prune
  | .ifElse place test consequent alternate =>
    .ifElse place test consequent.prune (Statement.pruneOption alternate)
  | .forLoop place initial test update body =>
    .forLoop place (Statement.pruneOption initial) test update body.prune
  | .whileLoop place test body => .whileLoop place test body.prune
  | .doWhile place body test => .doWhile place body.prune test
  | .tryCatch place call returns body clauses =>
    .tryCatch place call returns body.prune (CatchClause.pruneList clauses)
  | .unchecked place body => .unchecked place body.prune
  | .expression place value => .expression place value
  | .declaration place slots initial => .declaration place slots initial
  | .returned place argument => .returned place argument
  | .emit place event => .emit place event
  | .revert place error => .revert place error
  | .breakLoop place => .breakLoop place
  | .continueLoop place => .continueLoop place
  | .throwError place => .throwError place
  | .assembly place language flags body => .assembly place language flags body
  | .placeholder place => .placeholder place
  | .incomplete place => .incomplete place

/-- Prunes a statement that may be missing. -/
def Statement.pruneOption : Option (Statement F) → Option (Statement F)
  | none => none
  | some statement => some statement.prune

/-- Prunes the statements of a block, without those that are incomplete. -/
def Statement.pruneList : List (Statement F) → List (Statement F)
  | [] => []
  | .incomplete _ :: statements => Statement.pruneList statements
  | statement :: statements => statement.prune :: Statement.pruneList statements

/-- The block without incomplete statements. -/
def Block.prune : Block F → Block F
  | .mk place body => .mk place (Statement.pruneList body)

/-- The clause, with no incomplete statement in its block. -/
def CatchClause.prune : CatchClause F → CatchClause F
  | .mk place kind parameters body => .mk place kind parameters body.prune

/-- Prunes each clause of a list. -/
def CatchClause.pruneList : List (CatchClause F) → List (CatchClause F)
  | [] => []
  | clause :: clauses => clause.prune :: CatchClause.pruneList clauses

end

/-- The member, with no incomplete statement in its body. -/
def ContractPart.prune : ContractPart F → ContractPart F
  | .constructor declaration => .constructor { declaration with body := declaration.body.prune }
  | .receive declaration => .receive { declaration with body := declaration.body.map (·.prune) }
  | .fallback declaration => .fallback { declaration with body := declaration.body.map (·.prune) }
  | .function declaration => .function { declaration with body := declaration.body.map (·.prune) }
  | .modifier declaration => .modifier { declaration with body := declaration.body.map (·.prune) }
  | member => member

/-- The unit, with no incomplete statement in its bodies. -/
def SourceUnit.prune : SourceUnit F → SourceUnit F
  | .contract declaration => .contract { declaration with body := declaration.body.map (·.prune) }
  | .function declaration => .function { declaration with body := declaration.body.map (·.prune) }
  | unit => unit

/-! ### Lists of nodes -/

/-- Could the statement be read? -/
def Statement.isComplete : Statement F → Bool
  | .incomplete _ => false
  | _ => true

@[simp] theorem Statement.pruneOption_eq (s : Option (Statement F)) :
    Statement.pruneOption s = s.map (·.prune) := by
  cases s <;> rfl

@[simp] theorem Statement.pruneList_eq : (ss : List (Statement F)) →
    Statement.pruneList ss = (ss.filter (·.isComplete)).map (·.prune)
  | [] => rfl
  | s :: ss => by
    cases s with
    | incomplete => exact pruneList_eq ss
    | _ => exact congrArg (_ :: ·) (pruneList_eq ss)

@[simp] theorem CatchClause.pruneList_eq : (cs : List (CatchClause F)) →
    CatchClause.pruneList cs = cs.map (·.prune)
  | [] => rfl
  | c :: cs => congrArg (c.prune :: ·) (pruneList_eq cs)

/-! ### Places -/

@[simp] theorem Block.place_prune (b : Block F) : b.prune.place = b.place := by
  cases b
  rfl

@[simp] theorem Statement.place_prune (s : Statement F) : s.prune.place = s.place := by
  cases s with
  | block body => exact body.place_prune
  | _ => rfl

@[simp] theorem CatchClause.place_prune (c : CatchClause F) : c.prune.place = c.place := by
  cases c
  rfl

@[simp] theorem ContractPart.place_prune (m : ContractPart F) : m.prune.place = m.place := by
  cases m <;> rfl

@[simp] theorem SourceUnit.place_prune (u : SourceUnit F) : u.prune.place = u.place := by
  cases u <;> rfl

@[simp] theorem Statement.isComplete_prune (s : Statement F) :
    s.prune.isComplete = s.isComplete := by
  cases s <;> rfl

namespace Part

/-- The part, with no incomplete statement in its blocks. -/
def prune : Part F → Part F
  | statement value => statement value.prune
  | block value => block value.prune
  | clause value => clause value.prune
  | member value => member value.prune
  | unit value => unit value.prune
  | part => part

variable {part : Part F}

@[simp] theorem place_prune (part : Part F) : part.prune.place = part.place := by
  cases part with
  | statement value => exact value.place_prune
  | block value => exact value.place_prune
  | clause value => exact value.place_prune
  | member value => exact value.place_prune
  | unit value => exact value.place_prune
  | _ => rfl

theorem isIncomplete_statement {s : Statement F} :
    (statement s).IsIncomplete ↔ s.isComplete = false := by
  cases s <;> simp [IsIncomplete, Statement.isComplete]

/-- Is this a block? -/
def IsBlock : Part F → Prop
  | block _ => True
  | _ => False

/-- What is no block has the same parts as before, each pruned. -/
theorem fields_prune (h : ¬ part.IsBlock) : part.prune.fields = part.fields.map (List.map prune) := by
  cases part with
  | statement value =>
    cases value <;> simp [prune, Statement.prune, fields, statementFields, parametersField,
      Option.toList_map]
  | clause value =>
    cases value
    simp [prune, CatchClause.prune, fields, parametersField]
  | member value =>
    cases value <;> simp [prune, ContractPart.prune, fields, memberFields, functionFields,
      attributeFields, parametersField, overridesField, baseField, Option.toList_map]
  | unit value =>
    cases value <;> simp [prune, SourceUnit.prune, fields, unitFields, functionFields,
      attributeFields, parametersField, overridesField, baseField, Option.toList_map]
  | block => exact absurd trivial h
  | expression value =>
    cases value
    case call given => cases given <;> simp [prune, fields, expressionFields]
    all_goals simp [prune, fields, expressionFields]
  | typeName value => cases value <;> simp [prune, fields, typeFields]
  | namedArgument value | parameter value | declared value | invocation value =>
    cases value
    simp [prune, fields]
  | _ => rfl

/-- A part that only productions for phrases write has no statement to be taken out. -/
theorem prune_of_isPhrasal (h : part.IsPhrasal) : part.prune = part := by
  cases part with
  | statement value => cases value <;> first | rfl | exact h.elim
  | member value => cases value <;> first | rfl | exact h.elim
  | unit value => cases value <;> first | rfl | exact h.elim
  | block | clause => exact h.elim
  | _ => rfl

theorem eq_expression_of_prune {child : Part F} {e : Expression F.Place}
    (h : child.prune = expression e) : child = expression e := by
  cases child <;> first | exact h | cases h

/-- The expressions right below a part stay there. -/
theorem tight_prune (h : part.Tight) : part.prune.Tight := by
  by_cases hblock : part.IsBlock
  · cases part <;> cases hblock
    rename_i value
    cases value
    simp [prune, Block.prune, Tight, fields]
  · have hfields (he : ∀ field ∈ part.fields, ∀ e, expression e ∈ field → e.IsWhole) :
        ∀ field ∈ part.prune.fields, ∀ e, expression e ∈ field → e.IsWhole := by
      rw [fields_prune hblock, List.forall_mem_map]
      intro field hfield e hmem
      obtain ⟨child, hchild, heq⟩ := List.mem_map.mp hmem
      exact he field hfield e (eq_expression_of_prune heq ▸ hchild)
    cases part with
    | expression value => exact h
    | _ => exact hfields h

/-! ### Complete trees -/

private theorem option_map_eq_self {α : Type} {f : α → α} {o : Option α} :
    o.map f = o ↔ ∀ v, o = some v → f v = v := by
  cases o <;> simp

private theorem list_map_eq_self {α : Type} {f : α → α} {l : List α} :
    l.map f = l ↔ ∀ v ∈ l, f v = v := by
  have := @List.map_inj_left α α l f id
  rwa [List.map_id] at this

/-- A tree without incomplete statements stays the same. -/
theorem prune_of_complete (h : part.All fun part => ¬ part.IsIncomplete) : part.prune = part := by
  induction part using Part.induction with
  | step part ih =>
    replace ih : ∀ field ∈ part.fields, ∀ child ∈ field, child.prune = child :=
      fun field hfield child hchild => ih field hfield child hchild (h.below hfield hchild)
    cases part with
    | block value =>
      obtain ⟨place, body⟩ := value
      have hcomplete (s : Statement F) (hs : s ∈ body) : s.isComplete = true := by
        have := (h.below (List.mem_singleton_self _) (List.mem_map_of_mem hs)).here
        rwa [isIncomplete_statement, Bool.not_eq_false] at this
      have hbody : ∀ s ∈ body, s.prune = s := by
        simpa [fields, Block.body, prune] using ih
      simp [prune, Block.prune, List.filter_eq_self.mpr hcomplete, list_map_eq_self.mpr hbody]
    | statement value =>
      cases value <;>
        simp_all [prune, Statement.prune, fields, statementFields, option_map_eq_self,
          list_map_eq_self]
    | clause value =>
      cases value
      simp_all [prune, CatchClause.prune, fields]
    | member value =>
      cases value <;> rename_i declaration <;> cases declaration <;>
        simp_all [prune, ContractPart.prune, fields, memberFields, functionFields,
          option_map_eq_self]
    | unit value =>
      cases value <;> rename_i declaration <;> cases declaration <;>
        simp_all [prune, SourceUnit.prune, fields, unitFields, functionFields, option_map_eq_self,
          list_map_eq_self]
    | _ => rfl

/-! ### Forms -/

theorem isComplete_relocate (r : Relocation F G) (s : Statement F) :
    (s.relocate r).isComplete = s.isComplete := by
  cases s <;> rfl

/-- It does not matter in which form the statements are taken out. -/
theorem relocate_prune (r : Relocation F G) (part : Part F) :
    (part.relocate r).prune = part.prune.relocate r := by
  induction part using Part.induction with
  | step part ih =>
    have hbody {o : Option (Block F)} (ho : o.toList.map block ∈ part.fields) :
        (o.map (·.relocate r)).map (·.prune) = (o.map (·.prune)).map (·.relocate r) := by
      have := ih _ ho
      cases o <;> simp_all [prune, relocate]
    cases part with
    | block value =>
      obtain ⟨place, body⟩ := value
      simp_all [prune, relocate, Block.prune, Block.relocate, fields, Block.body,
        isComplete_relocate, List.filter_map, Function.comp_def]
    | statement value =>
      cases value <;>
        simp_all [prune, relocate, Statement.prune, Statement.relocate, fields, statementFields,
          map_eq_map_iff]
    | clause value =>
      cases value
      simp_all [prune, relocate, CatchClause.prune, CatchClause.relocate, fields]
    | member value =>
      cases value with
      | constructor declaration =>
        have := ih [block declaration.body] (by simp [fields, memberFields])
        simp_all [prune, relocate, ContractPart.prune, ContractPart.relocate, Constructor.relocate]
      | receive declaration | fallback declaration | function declaration
      | modifier declaration =>
        simp [prune, relocate, ContractPart.prune, ContractPart.relocate, ReceiveFunction.relocate,
          FallbackFunction.relocate, FunctionDeclaration.relocate, ModifierDeclaration.relocate,
          hbody (o := declaration.body) (by simp [fields, memberFields, functionFields])]
      | _ => rfl
    | unit value =>
      cases value with
      | contract declaration =>
        have := ih (declaration.body.map member) (by simp [fields, unitFields])
        simp_all [prune, relocate, SourceUnit.prune, SourceUnit.relocate, Contract.relocate]
      | function declaration =>
        simp [prune, relocate, SourceUnit.prune, SourceUnit.relocate,
          FunctionDeclaration.relocate,
          hbody (o := declaration.body) (by simp [fields, unitFields, functionFields])]
      | _ => rfl
    | _ => rfl

/-! ### Productions -/

/-- A unit that may be a member is pruned as the member is. -/
theorem member?_prune {unit : SourceUnit F} {member : ContractPart F}
    (h : unit.member? = some member) : unit.prune.member? = some member.prune := by
  cases unit <;> cases h <;> rfl

/-- What is no block is written as before. -/
theorem Composed.prune {part : Part .parsed} {symbols : List Symbol} (h : part.Composed symbols)
    (hblock : ¬ part.IsBlock) : part.prune.Composed symbols := by
  induction h with
  | block => exact absurd trivial hblock
  | unit hmember _ ih => exact .unit (member?_prune hmember) (ih id)
  | @blockStatement body => simpa [Part.prune, Statement.prune] using @blockStatement body.prune
  | @ifElse place test consequent alternate =>
    simpa [Part.prune, Statement.prune, Function.comp_def] using
      @ifElse place test consequent.prune (alternate.map (·.prune))
  | @forLoop place initial test update body h =>
    have hsimple : ∀ s ∈ initial, s.prune = s := fun s hs => by
      cases s <;> first | rfl | exact (h _ hs).elim
    have hinitial : initial.map (·.prune) = initial := by
      cases initial <;> simp_all
    simpa [Part.prune, Statement.prune, hinitial] using
      @forLoop place initial test update body.prune h
  | @whileLoop place test body =>
    simpa [Part.prune, Statement.prune] using @whileLoop place test body.prune
  | @doWhile place body test =>
    simpa [Part.prune, Statement.prune] using @doWhile place body.prune test
  | @tryCatch place call returns body clauses hreturns hclauses =>
    simpa [Part.prune, Statement.prune, Function.comp_def] using
      @tryCatch place call returns body.prune (clauses.map (·.prune)) hreturns (by simpa)
  | @clause place kind given body hgiven =>
    simpa [Part.prune, CatchClause.prune] using @clause place kind given body.prune hgiven
  | @unchecked place body =>
    simpa [Part.prune, Statement.prune] using @unchecked place body.prune
  | @constructor place parameters items body hparameters hitems =>
    simpa [Part.prune, ContractPart.prune] using
      @constructor place parameters items body.prune hparameters hitems
  | @receive place items body hitems =>
    simpa [Part.prune, ContractPart.prune, Function.comp_def] using
      @receive place items (body.map (·.prune)) hitems
  | @fallback place word parameters returns items body hword hparameters hitems =>
    simpa [Part.prune, ContractPart.prune, Function.comp_def] using
      @fallback place word parameters returns items (body.map (·.prune)) hword hparameters hitems
  | @function place name parameters returns items body hparameters hitems =>
    simpa [Part.prune, ContractPart.prune, Function.comp_def] using
      @function place name parameters returns items (body.map (·.prune)) hparameters hitems
  | @modifier place name given items body hgiven hitems =>
    simpa [Part.prune, ContractPart.prune, Function.comp_def] using
      @modifier place name given items (body.map (·.prune)) hgiven hitems
  | @contract place name kind isAbstract bases body =>
    simpa [Part.prune, SourceUnit.prune, Function.comp_def] using
      @contract place name kind isAbstract bases (body.map (·.prune))
  | _ => constructor <;> assumption

end Part

end SolidityParser
