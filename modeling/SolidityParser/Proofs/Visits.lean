import SolidityParser.Proofs.Spans
import SolidityParser.Proofs.Tree.Walk

/-!
# The order of a walk

**Theorem** (`Program.visit_each`): a walk over any program meets each node that is found in it,
as often as it is found there and no more; and over a program that a source parses to, in either
mode, it meets no node twice, and never one that begins before a node met earlier.

The fields of a node are not in the order of the source: the modifiers of a function are written
before its results. A walk takes them in the order in which they are written
(`Lexemes.Supports.inOrder_ordered`), and what is below a node lies inside it.
-/

namespace SolidityParser

/-! ### Nodes below a part -/

namespace Part

variable {F : Form} {part child top : Part .located} {n : Node}

/-- A part that is found in another is no larger. -/
theorem Within.sizeOf_le {top part : Part F} (h : Within top part) :
    sizeOf part ≤ sizeOf top := by
  induction h with
  | self => exact Nat.le_refl _
  | step hfield hchild _ ih => exact Nat.le_of_lt (Nat.lt_of_le_of_lt ih (sizeOf_lt hfield hchild))

/-- The nodes below a part are right below the parts that are found in it. -/
theorem mem_nodes_iff :
    n ∈ part.nodes ↔ ∃ top child, Within part top ∧ child ∈ top.fields.flatten ∧
      top.nodeBelow? child = some n := by
  induction part using Part.induction with
  | step part ih =>
    rw [nodes_eq, List.mem_flatMap]
    constructor
    · rintro ⟨child, hchild, hn⟩
      rcases List.mem_append.mp hn with hn | hn
      · exact ⟨part, child, .self part, hchild, Option.mem_toList.mp hn⟩
      · obtain ⟨field, hfield, hmem⟩ := List.mem_flatten.mp hchild
        obtain ⟨top, below, hwithin, h⟩ := (ih field hfield child hmem).mp hn
        exact ⟨top, below, .step hfield hmem hwithin, h⟩
    · rintro ⟨top, child, hwithin, hchild, hn⟩
      cases hwithin with
      | self => exact ⟨child, hchild, List.mem_append_left _ (Option.mem_toList.mpr hn)⟩
      | step hfield hmem hrest =>
        exact ⟨_, List.mem_flatten.mpr ⟨_, hfield, hmem⟩, List.mem_append_right _
          ((ih _ hfield _ hmem).mpr ⟨top, child, hrest, hchild, hn⟩)⟩

/-- A part is no other node below another than by itself. -/
theorem node?_of_nodeBelow? (h : part.nodeBelow? child = some n) : child.node? = some n := by
  unfold nodeBelow? at h
  split at h <;> first | cases h | exact h

/-- A node has the span of its part. -/
theorem node?_span (h : part.node? = some n) : n.span = part.place := by
  cases part <;> cases h <;> rfl

/-- No two parts are the same node. -/
theorem node?_inj (h : part.node? = some n) (h' : child.node? = some n) : part = child := by
  cases part <;> cases h <;> cases child <;> cases h' <;> rfl

/-- A node below a part is a smaller part. -/
theorem exists_lt_of_mem_nodes (h : n ∈ part.nodes) :
    ∃ below : Part .located, below.node? = some n ∧ sizeOf below < sizeOf part := by
  obtain ⟨top, child, hwithin, hchild, hn⟩ := mem_nodes_iff.mp h
  obtain ⟨field, hfield, hchild⟩ := List.mem_flatten.mp hchild
  exact ⟨child, node?_of_nodeBelow? hn,
    Nat.lt_of_lt_of_le (sizeOf_lt hfield hchild) hwithin.sizeOf_le⟩

/-- A node is not found below itself. -/
theorem not_mem_nodes (h : part.node? = some n) : n ∉ part.nodes := by
  intro hmem
  obtain ⟨below, hbelow, hlt⟩ := exists_lt_of_mem_nodes hmem
  exact Nat.lt_irrefl _ (node?_inj h hbelow ▸ hlt)

end Part

/-! ### Order -/

/-- A node may be met before another: it is another one, and does not begin later. -/
structure Node.Before (n m : Node) : Prop where
  /-- It does not begin later. -/
  start : n.span.start ≤ m.span.start
  /-- It is another one. -/
  ne : n ≠ m

/-- Of two spans that do not overlap, a node in the first is met before one in the second. -/
theorem Node.Before.of_apart {n m : Node} {first second : Span}
    (hn : n.span.Inside first ∧ n.span.start < n.span.stop) (hm : m.span.Inside second)
    (h : first.stop ≤ second.start) : n.Before m := by
  have hlt : n.span.start < m.span.start :=
    Nat.lt_of_lt_of_le hn.2 (Nat.le_trans hn.1.stop (Nat.le_trans h hm.start))
  exact ⟨Nat.le_of_lt hlt, fun heq => Nat.lt_irrefl _ (heq ▸ hlt)⟩

namespace Part

/-- A part covers text, what is right below lies inside, and a walk comes to it from the left to
the right. -/
structure Lined (part : Part .located) : Prop where
  /-- It covers text. -/
  nonempty : part.place.start < part.place.stop
  /-- What is right below lies inside. -/
  nested : ∀ child ∈ part.fields.flatten, child.place.Inside part.place
  /-- A walk comes to it from the left to the right. -/
  ordered : part.inOrder.Pairwise fun child other => child.place.stop ≤ other.place.start

variable {part child : Part .located} {n : Node}

/-- What is found in a part lies inside. -/
theorem Within.inside {top : Part .located} (hwithin : Within top part) (h : top.All Lined) :
    part.place.Inside top.place := by
  induction hwithin with
  | self part => exact ⟨Nat.le_refl _, Nat.le_of_lt h.here.nonempty, Nat.le_refl _⟩
  | step hfield hchild _ ih =>
    exact (ih (h.below hfield hchild)).trans
      (h.here.nested _ (List.mem_flatten.mpr ⟨_, hfield, hchild⟩))

/-- A node below a part lies inside, and covers text. -/
theorem All.node_inside (h : part.All Lined) (hn : n ∈ part.nodes) :
    n.span.Inside part.place ∧ n.span.start < n.span.stop := by
  obtain ⟨top, child, hwithin, hchild, hnode⟩ := mem_nodes_iff.mp hn
  have htop := h.within hwithin
  obtain ⟨field, hfield, hmem⟩ := List.mem_flatten.mp hchild
  rw [node?_span (node?_of_nodeBelow? hnode)]
  exact ⟨(htop.here.nested child hchild).trans (hwithin.inside h),
    (htop.below hfield hmem).here.nonempty⟩

/-- What is met below a part is met from the left to the right. -/
theorem All.visits_ordered (h : part.All Lined) :
    (Visit.nodesOfList part.visits).Pairwise Node.Before := by
  induction part using Part.induction with
  | step part ih =>
    have hbelow (child) (hchild : child ∈ part.inOrder) : child.All Lined := by
      obtain ⟨field, hfield, hchild⟩ := List.mem_flatten.mp (inOrder_subset hchild)
      exact h.below hfield hchild
    -- what is met of a part right below lies inside it
    have hinside (child) (hchild : child ∈ part.inOrder) (n)
        (hn : n ∈ (part.nodeBelow? child).toList ++ Visit.nodesOfList child.visits) :
        n.span.Inside child.place ∧ n.span.start < n.span.stop := by
      rcases List.mem_append.mp hn with hn | hn
      · rw [node?_span (node?_of_nodeBelow? (Option.mem_toList.mp hn))]
        have hnonempty := (hbelow child hchild).here.nonempty
        exact ⟨⟨Nat.le_refl _, Nat.le_of_lt hnonempty, Nat.le_refl _⟩, hnonempty⟩
      · exact (hbelow child hchild).node_inside (child.visits_perm.subset hn)
    rw [visits_nodes, List.pairwise_flatMap]
    constructor
    · intro child hchild
      obtain ⟨field, hfield, hmem⟩ := List.mem_flatten.mp (inOrder_subset hchild)
      rw [List.pairwise_append]
      refine ⟨?_, ih field hfield child hmem (hbelow child hchild), fun n hn m hm => ?_⟩
      · cases part.nodeBelow? child <;> simp
      · have hn := node?_of_nodeBelow? (Option.mem_toList.mp hn)
        have hm := child.visits_perm.subset hm
        refine ⟨?_, ?_⟩
        · rw [node?_span hn]
          exact ((hbelow child hchild).node_inside hm).1.start
        · rintro rfl
          exact not_mem_nodes hn hm
    · exact h.here.ordered.imp_of_mem fun {child other} hchild hother hle n hn m hm =>
        .of_apart (hinside child hchild n hn) (hinside other hother m hm).1 hle

end Part

/-! ### The order in which parts are written -/

/-- A unit that may be a member has the same parts in the same order. -/
theorem SourceUnit.inOrder_of_member? {F : Form} {unit : SourceUnit F} {member : ContractPart F}
    (h : unit.member? = some member) : (Part.member member).inOrder = (Part.unit unit).inOrder := by
  cases unit <;> cases h <;> rfl

namespace Part

variable {part : Part .parsed} {symbols : List Symbol}

/-- A phrase has no modifiers: a walk comes to its parts field by field. -/
theorem Phrased.inOrder_eq (h : part.Phrased symbols) : part.inOrder = part.fields.flatten := by
  induction h with
  | unit hmember _ ih =>
    rw [← SourceUnit.inOrder_of_member? hmember, ih, SourceUnit.fields_of_member? hmember]
  | _ => rfl

/-- The modifiers of a function are written between its parameters and its results. -/
theorem callableParts_sublist (parameters : List (Parameter Extent)) (items : List Attribute)
    (returns : Option (List (Parameter Extent))) (body : Option (Block .parsed)) :
    ((callableParts parameters (FunctionAttributes.ofItems items).modifiers returns body).map
      place).Sublist (parameters.map (·.place) ++ Symbol.parts (Symbol.attributes items) ++
        (returns.getD []).map (·.place) ++ body.toList.map (·.place)) := by
  have hmodifiers := FunctionAttributes.modifiers_sublist items
  simpa [callableParts, parametersField, place, Function.comp_def] using hmodifiers

/-- Productions name the parts that a walk comes to in the order in which it comes to them. -/
theorem Composed.inOrder_sublist (h : part.Composed symbols) :
    (part.inOrder.map place).Sublist (Symbol.parts symbols) := by
  induction h with
  | unit hmember _ ih => rwa [← SourceUnit.inOrder_of_member? hmember]
  | @fallback _ _ parameters returns items body hword =>
    have hparts := callableParts_sublist parameters items returns body
    rcases hword with rfl | rfl <;>
      simpa [inOrder, Symbol.parts, Option.toList_map] using hparts
  | @function _ _ parameters returns items body =>
    have hparts := callableParts_sublist parameters items returns body
    simpa [inOrder, Symbol.parts, Option.toList_map] using hparts
  | @receive _ items body =>
    have hparts := callableParts_sublist [] items none body
    simpa [inOrder, Symbol.parts, Option.toList_map] using hparts
  | _ =>
    simp [inOrder, fields, statementFields, memberFields, unitFields, parametersField,
      overridesField, Symbol.parts, place, Block.body, Function.comp_def, Option.toList_map,
      FunctionAttributes.modifiers_sublist, FunctionAttributes.overrides_sublist]

section Form

variable {F G : Form}

/-- The parts that a walk comes to in a tree in another form are those in that form. -/
theorem inOrder_relocate (r : Relocation F G) (part : Part F) :
    (part.relocate r).inOrder = part.inOrder.map (relocate r) := by
  have hfields : (part.relocate r).fields.flatten = part.fields.flatten.map (relocate r) := by
    rw [fields_relocate, List.map_flatten]
  have hparts (parameters : List (Parameter F.Place)) (modifiers : List (Invocation F.Place))
      (returns : Option (List (Parameter F.Place))) (body : Option (Block F)) :
      callableParts (Parameter.relocateList r.place parameters)
          (modifiers.map (·.relocate r.place)) (returns.map (Parameter.relocateList r.place))
          (body.map (·.relocate r)) =
        (callableParts parameters modifiers returns body).map (relocate r) := by
    simp [callableParts, parametersField_relocate, Function.comp_def, relocate, Option.toList_map]
  cases part with
  | member value =>
    cases value
    case receive declaration => exact hparts [] _ none _
    case fallback | function => exact hparts _ _ _ _
    all_goals exact hfields
  | unit value =>
    cases value
    case function => exact hparts _ _ _ _
    all_goals exact hfields
  | _ => exact hfields

end Form

end Part

/-! ### Programs -/

section Programs

variable {layout : Layout} {size : Nat} {tolerant : Bool}

/-- A walk comes to the parts right below what stands in the input in the order of the tokens. -/
theorem Lexemes.Supports.inOrder_ordered {lexemes : Lexemes} {repairs : Repairs}
    {part : Part .parsed} (h : lexemes.Supports repairs part) :
    part.inOrder.Pairwise fun child other => child.place.next ≤ other.place.first := by
  -- the parts are among those that the production names
  have of_sublist {symbols : List Symbol} {i j : Nat} (hspells : lexemes.Spells i symbols j)
      (hsub : (part.inOrder.map Part.place).Sublist (Symbol.parts symbols)) :
      part.inOrder.Pairwise fun child other => child.place.next ≤ other.place.first :=
    List.pairwise_map.mp (hspells.parts_ordered.sublist hsub)
  cases h with
  | phrase holds =>
    obtain ⟨-, symbols, hphrased, hspells⟩ := holds
    exact of_sublist hspells (hphrased.inOrder_eq ▸ hphrased.sublist)
  | composed _ _ composed spells => exact of_sublist spells composed.inOrder_sublist
  | recovered recovered =>
    cases recovered with
    | skipped => exact .nil
    | @cut place body _ _ spells =>
      refine of_sublist spells ?_
      simp [Part.inOrder, Part.fields, Part.place, Symbol.parts, Block.body, Function.comp_def]

/-- A node of a tree that stands in the input is met from the left to the right. -/
theorem Lexemes.Supports.lined {part : Part .parsed} (hp : layout.tokens.Placed size)
    (h : layout.tokens.lexemes.Supports (.ofTolerance tolerant) part)
    (hbelow : ∀ field ∈ part.fields, ∀ child ∈ field,
      layout.tokens.lexemes.Supports (.ofTolerance tolerant) child) :
    (part.relocate layout.relocation).Lined := by
  have hlaid := h.laidOut hp hbelow
  refine ⟨hlaid.nonempty, fun child hchild => ?_, ?_⟩
  · obtain ⟨field, hfield, hchild⟩ := List.mem_flatten.mp hchild
    exact hlaid.nested field hfield child hchild
  · rw [Part.inOrder_relocate, List.pairwise_map]
    have hruns (child) (hchild : child ∈ part.inOrder) :
        layout.tokens.Runs child.place.first (layout.span child.place) child.place.next := by
      obtain ⟨field, hfield, hchild⟩ := List.mem_flatten.mp (Part.inOrder_subset hchild)
      exact Layout.runs_span hp (hbelow field hfield child hchild).covers
    refine h.inOrder_ordered.imp_of_mem fun {child other} hchild hother hle => ?_
    rw [Part.place_relocate, Part.place_relocate]
    exact (hruns child hchild).before hp (hruns other hother) hle

/-- No program is met in a unit. -/
theorem SourceUnit.program_not_mem {program : Program} (unit : SourceUnit .located) :
    Node.program program ∉ unit.visit.nodes := by
  rw [visit_nodes, List.mem_append, not_or]
  refine ⟨by cases unit <;> simp [own], fun hmem => ?_⟩
  obtain ⟨below, hbelow, -⟩ := Part.exists_lt_of_mem_nodes ((Part.visits_perm _).subset hmem)
  cases below <;> cases hbelow

/-- A unit and what is below it are met from the left to the right, and lie inside the unit. -/
theorem SourceUnit.visit_ordered {unit : SourceUnit .located}
    (h : (Part.unit unit).All Part.Lined) :
    unit.visit.nodes.Pairwise Node.Before ∧
      ∀ n ∈ unit.visit.nodes, n.span.Inside unit.place ∧ n.span.start < n.span.stop := by
  have hself : unit.place.Inside unit.place ∧ unit.place.start < unit.place.stop :=
    ⟨⟨Nat.le_refl _, Nat.le_of_lt h.here.nonempty, Nat.le_refl _⟩, h.here.nonempty⟩
  -- the unit is met first, and the import or contract that it is stands where it does
  have hown (n) (hn : n ∈ unit.own) :
      n.span = unit.place ∧ n ∉ (Part.unit unit).nodes := by
    cases unit with
    | importDirective | contract =>
      rcases List.mem_pair.mp hn with rfl | rfl
      · exact ⟨rfl, Part.not_mem_nodes rfl⟩
      · refine ⟨rfl, fun hmem => ?_⟩
        obtain ⟨below, hbelow, -⟩ := Part.exists_lt_of_mem_nodes hmem
        cases below <;> cases hbelow
    | _ =>
      obtain rfl := List.mem_singleton.mp hn
      exact ⟨rfl, Part.not_mem_nodes rfl⟩
  have hinside (n) (hn : n ∈ Visit.nodesOfList (Part.unit unit).visits) :=
    h.node_inside ((Part.visits_perm _).subset hn)
  rw [visit_nodes]
  constructor
  · rw [List.pairwise_append]
    refine ⟨?_, h.visits_ordered, fun n hn m hm => ⟨?_, ?_⟩⟩
    · cases unit <;> simp [own]
      all_goals exact ⟨Nat.le_refl _, by simp⟩
    · rw [(hown n hn).1]
      exact (hinside m hm).1.start
    · rintro rfl
      exact (hown n hn).2 ((Part.visits_perm _).subset hm)
  · intro n hn
    rcases List.mem_append.mp hn with hn | hn
    · rw [(hown n hn).1]
      exact hself
    · exact hinside n hn

end Programs

namespace Source

/-- In every program that a source parses to, nodes are met from the left to the right. -/
theorem visit_ordered {source : String} {tolerant : Bool} {program : Program}
    (h : parse source tolerant = .ok program) : program.visit.nodes.Pairwise Node.Before := by
  have hp : (layout source).tokens.Placed (Text.byteLength source.toList) := lex_placed source
  have hlaid := parse_laidOut h
  obtain ⟨-, units, hunits, rfl⟩ := parse_eq_ok_iff.mp h
  obtain ⟨j, -, -, hstands, -⟩ := Grammar.parseUnits_isSource (lex_wellSpelled source) hunits
  have hlined (u) (hu : u ∈ ((layout source).program units).body) :
      (Part.unit u).All Part.Lined := by
    obtain ⟨v, hv, rfl⟩ := List.mem_map.mp hu
    have hall := @Part.all_relocate _ _ (layout source).relocation Part.Lined (.unit v)
    refine hall.mpr fun part hpart => ?_
    exact (hstands v hv part hpart).lined hp fun field hfield child hchild =>
      ((hstands v hv).within hpart).below hfield hchild |>.here
  rw [Program.visit_nodes, List.pairwise_cons, List.pairwise_flatMap]
  refine ⟨fun n hn => ?_, fun u hu => (SourceUnit.visit_ordered (hlined u hu)).1, ?_⟩
  · obtain ⟨u, -, hn⟩ := List.mem_flatMap.mp hn
    exact ⟨Nat.zero_le _, fun heq => u.program_not_mem (heq ▸ hn)⟩
  · exact hlaid.ordered.imp_of_mem fun {u v} hu hv hle n hn m hm =>
      .of_apart ((SourceUnit.visit_ordered (hlined u hu)).2 n hn)
        ((SourceUnit.visit_ordered (hlined v hv)).2 m hm).1 hle

end Source

/-- A walk over a program meets each node that is found in it, as often as it is found. Over a
program that a source parses to it meets no node twice, and goes from the left to the right. -/
theorem Program.visit_each (program : Program) :
    program.visit.nodes.Perm program.nodes ∧
      ∀ (source : String) (tolerant : Bool), Source.parse source tolerant = .ok program →
        program.visit.nodes.Nodup ∧ (program.visit.nodes.map (·.span.start)).Pairwise (· ≤ ·) := by
  refine ⟨program.visit_perm, fun source tolerant h => ?_⟩
  have hordered := Source.visit_ordered h
  exact ⟨hordered.imp Node.Before.ne, List.pairwise_map.mpr (hordered.imp Node.Before.start)⟩

/-- A function with a modifier before its results, and a call with options and named arguments. -/
def modifiedSource : String :=
  "contract C \x7b function f(int a) m(2) returns (int b) \x7b g\x7bh: 1\x7d(\x7bx: y\x7d); \x7d \x7d"

/-- The walk over a function with a modifier. -/
theorem Program.visit_each_modified :
    ∃ program, Source.parse modifiedSource false = .ok program ∧
      program.visit.nodes.Perm program.nodes ∧ program.visit.nodes.Nodup ∧
      (program.visit.nodes.map (·.span.start)).Pairwise (· ≤ ·) := by
  have hok : (Source.parse modifiedSource false).isOk = true := by
    rw [modifiedSource, Source.parse, Source.read_ofList]
    decide +kernel
  cases h : Source.parse modifiedSource false with
  | error e =>
    rw [h] at hok
    cases hok
  | ok program =>
    obtain ⟨hperm, hparsed⟩ := visit_each program
    exact ⟨program, rfl, hperm, hparsed modifiedSource false h⟩

end SolidityParser
