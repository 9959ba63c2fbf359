import SolidityParser.Proofs.Production.Decided

/-!
# Trees in thinned inputs

A statement or a declaration stands in every input that has its words but for those of the
statements in it that could not be read; there it stands without them (`Lexemes.thin`). What comes
next must be nothing that it would go on with. Inside, each part has a word after it that is kept,
or another part that begins anew, or it ends with what it is part of.
-/

namespace SolidityParser

open SolidityParser.Symbol (option separated series parts)

/-- Symbols that stand for no token spell nothing. -/
theorem Lexemes.Spells.eq_of_not_solid {lexemes : Lexemes} {i j : Nat} {symbols : List Symbol}
    (h : lexemes.Spells i symbols j) (hsolid : ∀ symbol ∈ symbols, symbol.isSolid = false) :
    i = j := by
  induction symbols with
  | nil => exact h
  | cons symbol symbols ih =>
    obtain ⟨hsymbol, hsymbols⟩ := List.forall_mem_cons.mp hsolid
    cases symbol with
    | no | here => exact ih h.2 hsymbols
    | _ => cases hsymbol

/-- Symbols up to the last one that stands for a token. -/
theorem Symbol.exists_last {symbols : List Symbol} {symbol : Symbol}
    (h : (symbols.filter (·.isSolid)).getLast? = some symbol) :
    ∃ front rest, symbols = front ++ symbol :: rest ∧ ∀ s ∈ rest, s.isSolid = false := by
  induction symbols with
  | nil => cases h
  | cons first symbols ih =>
    by_cases hnone : symbols.filter (·.isSolid) = []
    · have hrest : ∀ s ∈ symbols, s.isSolid = false := by simpa using hnone
      cases hfirst : first.isSolid with
      | true =>
        simp [hfirst, hnone] at h
        exact ⟨[], symbols, by rw [h]; rfl, hrest⟩
      | false => simp [hfirst, hnone] at h
    · have hlast : (symbols.filter (·.isSolid)).getLast? = some symbol := by
        rw [List.filter_cons] at h
        split at h
        · rwa [List.getLast?_cons_of_ne_nil hnone] at h
        · exact h
      obtain ⟨front, rest, rfl, hrest⟩ := ih hlast
      exact ⟨first :: front, rest, rfl, hrest⟩

/-- Symbols that stand for no token name no smaller construct. -/
theorem Symbol.parts_of_not_solid {symbols : List Symbol}
    (h : ∀ symbol ∈ symbols, symbol.isSolid = false) : parts symbols = [] := by
  induction symbols with
  | nil => rfl
  | cons symbol symbols ih =>
    obtain ⟨hsymbol, hsymbols⟩ := List.forall_mem_cons.mp h
    cases symbol with
    | no | here => exact ih hsymbols
    | _ => cases hsymbol

namespace Lexemes

variable {lexemes other : Lexemes} {f : Nat → Nat} {repairs : Repairs} {i j k m n : Nat}
  {part child : Part .parsed} {field : List (Part .parsed)} {symbols : List Symbol}

/-- No part that could be read begins with a point. -/
theorem kindAt_first_ne_dot (h : part.All (lexemes.Supports repairs))
    (hpart : ¬ part.IsIncomplete) : lexemes.kindAt part.place.first ≠ .dot := by
  by_cases hclause : part.IsClause
  · cases part with
    | clause value =>
      obtain ⟨symbols, hcomposed, -, hspells⟩ := h.here.composed_of id id id
      cases hcomposed
      rw [hspells.1.2]
      decide
    | _ => exact hclause.elim
  · intro hdot
    have hjoins := joins_first h hpart hclause
    rw [hdot] at hjoins
    cases hjoins

/-- A part of a statement or a declaration, that is none itself, has more of it after it, and if
that is a point, not only that. -/
theorem after_open (h : part.All (lexemes.Supports repairs)) (hcomposed : part.Composed symbols)
    (hspells : lexemes.Spells part.place.first symbols part.place.next)
    (hcomplete : ∀ field ∈ part.fields, ∀ child ∈ field, ¬ child.IsIncomplete)
    (hfield : field ∈ part.fields) (hchild : child ∈ field) (hopen : child.IsOpen) :
    child.place.next < part.place.next ∧
      (lexemes.kindAt child.place.next = .dot → child.place.next + 1 < part.place.next) := by
  have hmem : child ∈ part.fields.flatten := List.mem_flatten_of_mem hfield hchild
  have hnonempty := (h.below hfield hchild).here.covers.nonempty
  have hinside := h.here.inside hfield hchild
  rcases hcomposed.last with hnone | ⟨k, hk, hlast⟩ | ⟨sibling, hsibling, hclosed, hlast⟩
  · rw [hnone] at hmem
    cases hmem
  · obtain ⟨front, rest, rfl, hrest⟩ := Symbol.exists_last hlast
    obtain ⟨l, hfront, ⟨-, hl⟩, hspells⟩ := spells_append.mp hspells
    have hend := hspells.eq_of_not_solid hrest
    have hplace := (hcomposed.outlined.inOrder field hfield).subset (List.mem_map_of_mem hchild)
    rw [Symbol.parts_append, parts, Symbol.parts_of_not_solid hrest, List.append_nil] at hplace
    have hnext := (hfront.part_inside hplace).2.1
    refine ⟨by omega, fun hdot => ?_⟩
    by_contra hlt
    rw [show child.place.next = l by omega, hl] at hdot
    exact hk hdot
  · obtain ⟨field', hfield', hsibling⟩ := List.mem_flatten.mp hsibling
    obtain ⟨front, rest, rfl, hrest⟩ := Symbol.exists_last hlast
    obtain ⟨l, hfront, ⟨hfirst, hcovers⟩, hspells⟩ := spells_append.mp hspells
    have hend := hspells.eq_of_not_solid hrest
    have hne : child ≠ sibling := fun heq => hclosed (heq ▸ hopen)
    have hapart := h.here.apart hfield hchild hfield' hsibling hne
    have hnonempty' := (h.below hfield' hsibling).here.covers.nonempty
    refine ⟨by omega, fun hdot => ?_⟩
    -- a point that comes next and last would begin the last part
    by_contra hlt
    rw [show child.place.next = sibling.place.first by omega] at hdot
    exact kindAt_first_ne_dot (h.below hfield' hsibling) (hcomplete field' hfield' sibling hsibling)
      hdot

/-- A word is kept if it begins each statement or declaration right below that has it. -/
theorem Thins.kept_of_boundary (hthins : lexemes.Thins other f part)
    (h : part.All (lexemes.Supports repairs)) (hpart : ¬ part.IsIncomplete)
    (hblock : ¬ part.IsBlock) (hn : part.place.first ≤ n) (hlt : n < part.place.next)
    (hboundary : ∀ field ∈ part.fields, ∀ child ∈ field, ¬ child.IsOpen →
      ¬ (child.place.first < n ∧ n < child.place.next)) : lexemes.Keeps other f n :=
  hthins.kept n hn hlt (spares_of_boundary h hpart hblock hboundary)

/-- Below a statement or a declaration, all that is none itself is kept. -/
theorem thin_open (h : part.All (lexemes.Supports repairs)) (hpart : ¬ part.IsIncomplete)
    (hblock : ¬ part.IsBlock) (hcomposed : part.Composed symbols)
    (hspells : lexemes.Spells part.place.first symbols part.place.next)
    (hthins : lexemes.Thins other f part) (hfield : field ∈ part.fields) (hchild : child ∈ field)
    (hopen : child.IsOpen) : (child.relocate (.move f)).All other.Holds := by
  have hcomplete (field) (hfield : field ∈ part.fields) (child) (hchild : child ∈ field) :=
    h.here.child_complete hblock hfield hchild
  obtain ⟨hnext, hdot⟩ := after_open h hcomposed hspells hcomplete hfield hchild hopen
  have hinside := h.here.inside hfield hchild
  have hbelow := h.below hfield hchild
  have hnonempty := hbelow.here.covers.nonempty
  have hkept (n : Nat) (hn : child.place.first ≤ n) (hlt : n < child.place.next) :=
    (hthins.below h hpart hfield hchild).kept_of_isPhrasal hopen.isPhrasal n hn hlt
  -- what comes right after the part is kept, since it begins what it stands in
  have hafter : lexemes.Keeps other f child.place.next := by
    refine hthins.kept_of_boundary h hpart hblock (by omega) hnext ?_
    intro field' hfield' sibling hsibling hclosed
    have hapart := h.here.apart hfield hchild hfield' hsibling
      fun heq => hclosed (heq ▸ hopen)
    omega
  refine carry_holds (all_holds hbelow hopen.isPhrasal) hkept fun n hn hle => ?_
  rcases Nat.eq_or_lt_of_le hle with rfl | hlt
  · refine hafter.sees fun hk => .inl ?_
    refine hthins.kept_of_boundary h hpart hblock (by omega) (hdot hk) ?_
    intro field' hfield' sibling hsibling hclosed hin
    have hapart := h.here.apart hfield hchild hfield' hsibling
      fun heq => hclosed (heq ▸ hopen)
    rw [show child.place.next = sibling.place.first by omega] at hk
    exact kindAt_first_ne_dot (h.below hfield' hsibling)
      (hcomplete field' hfield' sibling hsibling) hk
  · refine (hkept n hn hlt).sees fun hk => .inl ?_
    rcases Nat.eq_or_lt_of_le (Nat.succ_le_of_lt hlt) with heq | hlt
    · rw [show n + 1 = child.place.next from heq]
      exact hafter
    · exact hkept _ (Nat.le_succ_of_le hn) hlt

/-! ### Blocks -/

/-- What comes next in another input begins anew there. -/
structure Fresh (lexemes other : Lexemes) (f : Nat → Nat) (repairs : Repairs) (n : Nat) : Prop where
  /-- It does not go on with what is before it. -/
  joins : (other.kindAt (f n)).joins = false
  /-- A member begins where it did. -/
  member : repairs.cutsBlocks = true → Grammar.atMember lexemes n = true →
    Grammar.atMember other (f n) = true

theorem Fresh.follows (h : lexemes.Fresh other f repairs n) :
    lexemes.Follows other f repairs n := by
  refine ⟨fun k hk heq => ?_, h.member⟩
  have hjoins := h.joins
  rw [heq] at hjoins
  rcases hk with rfl | rfl | rfl <;> cases hjoins

/-- A member begins with a token that does not go on with what is before it. -/
theorem joins_of_atMember (h : Grammar.atMember lexemes n = true) :
    (lexemes.kindAt n).joins = false := by
  unfold Kind.joins
  unfold Grammar.atMember at h
  split <;> simp_all [Grammar.beginsMember]

/-- After each statement of a block, what comes next begins anew, if it does after the last. -/
theorem fresh_row {body : List (Statement .parsed)}
    (hrow : lexemes.Spells i (Symbol.row (body.map (·.place))) k)
    (hbody : ∀ s ∈ body, (Part.statement s).All (lexemes.Supports repairs) ∧
      lexemes.Thins other f (.statement s))
    (hend : lexemes.Fresh other f repairs k) :
    lexemes.Fresh other f repairs i ∧ ∀ s ∈ body, lexemes.Fresh other f repairs s.place.next := by
  induction body generalizing i with
  | nil =>
    obtain rfl : i = k := hrow
    exact ⟨hend, by simp⟩
  | cons s body ih =>
    obtain ⟨⟨hs, hthins⟩, hbody⟩ := List.forall_mem_cons.mp hbody
    obtain ⟨⟨hfirst, hcovers⟩, hrest⟩ := hrow
    obtain ⟨hnext, hrest⟩ := ih hrest hbody
    obtain rfl : s.place.first = i := hfirst
    refine ⟨?_, List.forall_mem_cons.mpr ⟨hnext, hrest⟩⟩
    by_cases hpart : (Part.statement s).IsIncomplete
    · have hskip : f s.place.next = f s.place.first := hthins.next_eq hpart hcovers.nonempty
      refine ⟨hskip ▸ hnext.joins, fun _ hmember => ?_⟩
      cases s with
      | incomplete => exact absurd hmember (by simp [hs.here.skipped.2, Statement.place])
      | _ => exact hpart.elim
    · have hkept := hthins.kept _ (Nat.le_refl _) hcovers.nonempty (spares_first hs hpart)
      refine ⟨?_, (hthins.follows hs id hpart).member⟩
      have hjoins := joins_first hs hpart id
      rwa [← hkept.kindAt] at hjoins

/-- The statements of a block that could be read stand in a row in another input. -/
theorem Spells.row_thin {body : List (Statement .parsed)}
    (hrow : lexemes.Spells i (Symbol.row (body.map (·.place))) k)
    (hcovers : ∀ s ∈ body, s.isComplete = true → other.Covers (s.place.move f))
    (hskip : ∀ s ∈ body, s.isComplete = false → f s.place.next = f s.place.first) :
    other.Spells (f i) (Symbol.row ((body.filter (·.isComplete)).map fun s => s.place.move f))
      (f k) := by
  induction body generalizing i with
  | nil => exact congrArg f hrow
  | cons s body ih =>
    obtain ⟨hhead, hcovers⟩ := List.forall_mem_cons.mp hcovers
    obtain ⟨hgap, hskip⟩ := List.forall_mem_cons.mp hskip
    obtain ⟨⟨hfirst, -⟩, hrest⟩ := hrow
    obtain rfl : s.place.first = i := hfirst
    have htail := ih hrest hcovers hskip
    cases hs : s.isComplete with
    | true =>
      rw [List.filter_cons_of_pos hs]
      exact ⟨⟨rfl, hhead hs⟩, htail⟩
    | false =>
      rw [List.filter_cons_of_neg (by simp [hs])]
      rwa [hgap hs] at htail

/-- The word right after the statements of a block is kept, if it is part of the block. -/
theorem kept_after_row {place : Extent} {body : List (Statement .parsed)}
    (h : (Part.block (.mk place body)).All (lexemes.Supports repairs))
    (hthins : lexemes.Thins other f (.block (.mk place body)))
    (hrow : lexemes.Spells (place.first + 1) (Symbol.row (body.map (·.place))) k)
    (hnext : place.next = k + 1) : lexemes.Keeps other f k := by
  have hle := hrow.inside.1
  refine hthins.kept k (show place.first ≤ k by omega) (show k < place.next by omega)
    (Part.all_iff.mpr ⟨False.elim, ?_⟩)
  intro field hfield child hchild
  obtain rfl := List.mem_singleton.mp hfield
  obtain ⟨s, hs, rfl⟩ := List.mem_map.mp hchild
  have hplace : s.place ∈ parts (Symbol.row (body.map (·.place))) := by
    rw [Symbol.parts_row]
    exact List.mem_map_of_mem hs
  have hnext : s.place.next ≤ k := (hrow.part_inside hplace).2.1
  exact spares_of_outside (h.below (List.mem_singleton_self _) (List.mem_map_of_mem hs))
    (.inr hnext)

/-- A block stands in another input without the statements that could not be read. -/
theorem thin_block {b : Block .parsed} (h : (Part.block b).All (lexemes.Supports repairs))
    (hthins : lexemes.Thins other f (.block b))
    (hfollows : lexemes.Follows other f repairs b.place.next)
    (ih : ∀ s ∈ b.body, s.isComplete = true → lexemes.Follows other f repairs s.place.next →
      ((Part.statement s).prune.relocate (.move f)).All (other.Supports repairs.pruned)) :
    ((Part.block b).prune.relocate (.move f)).All (other.Supports repairs.pruned) := by
  obtain ⟨place, body⟩ := b
  obtain ⟨hchosen, hbrace, k, hrow, hend⟩ := h.here.block
  have hbelow (s : Statement .parsed) (hs : s ∈ body) :
      (Part.statement s).All (lexemes.Supports repairs) ∧ lexemes.Thins other f (.statement s) :=
    ⟨h.below (List.mem_singleton_self _) (List.mem_map_of_mem hs),
      hthins.below h id (List.mem_singleton_self _) (List.mem_map_of_mem hs)⟩
  have hfirst := hthins.kept place.first (Nat.le_refl _) h.here.covers.nonempty (spares_first h id)
  have hfresh : lexemes.Fresh other f repairs k := by
    rcases hend with ⟨hk, hnext⟩ | ⟨hcut, hmember, hnext⟩
    · have hkept := kept_after_row h hthins hrow hnext
      refine ⟨by rw [hkept.kindAt, hk]; rfl, fun _ hmember => ?_⟩
      simp [Grammar.atMember, hk, Grammar.beginsMember] at hmember
    · have hmember' : Grammar.atMember other (f k) = true := by
        rw [← hnext]
        exact hfollows.member hcut (hnext ▸ hmember)
      exact ⟨joins_of_atMember hmember', fun _ _ => hmember'⟩
  have hstatements (s : Statement .parsed) (hs : s ∈ body) (hcomplete : s.isComplete = true) :=
    ih s hs hcomplete ((fresh_row hrow hbelow hfresh).2 s hs).follows
  have hspells : other.Spells (f (place.first + 1))
      (Symbol.row ((body.filter (·.isComplete)).map fun s => s.place.move f)) (f k) := by
    refine hrow.row_thin (fun s hs hcomplete => ?_) fun s hs hskipped => ?_
    · have hcovers := (hstatements s hs hcomplete).here.covers
      rwa [Part.place_relocate, Part.place_prune] at hcovers
    · refine (hbelow s hs).2.next_eq ?_ (hbelow s hs).1.here.covers.nonempty
      rw [Part.isIncomplete_statement, hskipped]
  have hprune : (Part.block (.mk place body)).prune.relocate (.move f) =
      .block (.mk (place.move f) ((body.filter (·.isComplete)).map fun s =>
        s.prune.relocate (.move f))) := by
    simp [Part.prune, Block.prune, Part.relocate, Block.relocate, Relocation.move]
  have hplaces : ((body.filter (·.isComplete)).map fun s => s.prune.relocate (.move f)).map
      (·.place) = (body.filter (·.isComplete)).map fun s => s.place.move f := by
    simp [Statement.place_relocate, Relocation.move]
  have hopen : other.Spells (f place.first) (.token .lbrace :: Symbol.row
      (((body.filter (·.isComplete)).map fun s => s.prune.relocate (.move f)).map (·.place)))
      (f k) := by
    rw [hplaces]
    refine ⟨⟨by decide, hfirst.kindAt.trans hbrace⟩, ?_⟩
    rwa [← hfirst.next]
  have hchosen' : ∀ s ∈ (body.filter (·.isComplete)).map fun s => s.prune.relocate (.move f),
      other.Chosen s := by
    refine List.forall_mem_map.mpr fun s hs => ?_
    have hs := (List.mem_filter.mp hs).1
    exact (hchosen s hs).thin (hbelow s hs).1 (hbelow s hs).2
  rw [hprune]
  refine Part.all_iff.mpr ⟨?_, ?_⟩
  · rcases hend with ⟨hk, hnext⟩ | ⟨hcut, hmember, hnext⟩
    · have hkept := kept_after_row h hthins hrow hnext
      refine .composed (by simp [Part.Tight, Part.fields]) ⟨hchosen', by simp [Part.branches],
        by simp [Part.initial?], by simp [Part.members]⟩ .block ?_
      refine hopen.append ⟨⟨by decide, hkept.kindAt.trans hk⟩, ?_⟩
      rw [← hkept.next, ← hnext]
      rfl
    · refine .recovered (.cut (by rwa [Repairs.cutsBlocks_pruned]) hchosen' ?_ ?_)
      · rwa [← hnext] at hopen
      · exact hfollows.member hcut (hnext ▸ hmember)
  · intro field hfield child hchild
    obtain rfl := List.mem_singleton.mp hfield
    obtain ⟨_, hs, rfl⟩ := List.mem_map.mp hchild
    obtain ⟨s, hmem, rfl⟩ := List.mem_map.mp hs
    exact hstatements s (List.mem_filter.mp hmem).1 (List.mem_filter.mp hmem).2

end Lexemes

/-- Below a declaration of variables or an expression, as a statement, there is neither a statement
nor a declaration. -/
theorem Part.IsSimple.below_isOpen {F : Form} {part : Part F} (h : part.IsSimple) :
    ∀ field ∈ part.fields, ∀ child ∈ field, child.IsOpen := by
  cases part with
  | statement s => cases s <;> simp [fields, statementFields, IsOpen] <;> exact h.elim
  | _ => exact h.elim

/-- Neither of them looks ahead. -/
theorem Part.Composed.no_not_mem_of_isSimple {part : Part .parsed} {symbols : List Symbol}
    {tests : Lookahead} (h : part.Composed symbols) (hsimple : part.IsSimple) :
    .no tests ∉ symbols := by
  cases h with
  | expression => simp
  | _ => exact hsimple.elim

namespace Lexemes

variable {lexemes other : Lexemes} {f : Nat → Nat} {repairs : Repairs} {i j k m n : Nat}
  {part child : Part .parsed} {field : List (Part .parsed)} {symbols : List Symbol}

/-- What a `try` statement looks ahead for after what is tried, is ahead of its block only. -/
theorem options_of_try {call : Expression Extent}
    {returns : Option (List (Parameter Extent))} {body : Block .parsed}
    {clauses : List (CatchClause .parsed)} {front rest : List Symbol}
    (hsplit : .token .kwTry :: .part call.place :: .no .options :: Symbol.returns returns ++
      .part body.place :: Symbol.row (clauses.map (·.place)) ++ [.no (.kinds [.kwCatch])] =
        front ++ .no .options :: rest)
    (hspells : lexemes.Spells i (front ++ .no .options :: rest) j)
    (hfront : lexemes.Spells i front k) :
    body.place.first = k ∨ k < j ∧ lexemes.kindAt k = .kwReturns := by
  have hbefore : Symbol.no .options ∉ [Symbol.token .kwTry, Symbol.part call.place] := by simp
  have hafter : Symbol.no .options ∉ Symbol.returns returns ++ .part body.place ::
      Symbol.row (clauses.map (·.place)) ++ [.no (.kinds [.kwCatch])] := by
    have hne (k : Kind) : Lookahead.options ≠ .kinds [k] :=
      fun h => by simpa [Lookahead.options, Lookahead.kinds] using congrArg List.length h
    simp [hne, Symbol.row]
  obtain ⟨rfl, -, rfl⟩ := (List.append_cons_inj_of_notMem hbefore hafter).mp (by simpa using hsplit)
  obtain ⟨l, hfront', -, hrest⟩ := spells_append.mp hspells
  obtain ⟨-, -, rfl⟩ := hfront
  obtain ⟨-, -, rfl⟩ := hfront'
  cases returns with
  | none => exact .inl hrest.2.1.1
  | some parameters =>
    exact .inr ⟨(hrest.covers ⟨_, List.mem_cons_self .., rfl⟩).nonempty, hrest.1.2⟩

/-! ### Trees -/

/-- What comes right after a statement or a declaration within another begins anew: it ends with
that one, or a word that is kept comes next, or a part that begins anew. -/
theorem follows_below (h : part.All (lexemes.Supports repairs)) (hpart : ¬ part.IsIncomplete)
    (hblock : ¬ part.IsBlock) (hcomposed : part.Composed symbols)
    (hspells : lexemes.Spells part.place.first symbols part.place.next)
    (hthins : lexemes.Thins other f part)
    (hnext : ¬ part.IsSimple → lexemes.Follows other f repairs part.place.next)
    (hfield : field ∈ part.fields) (hchild : child ∈ field) (hopen : ¬ child.IsOpen)
    (hsimple : ¬ child.IsSimple) : lexemes.Follows other f repairs child.place.next := by
  rcases hcomposed.followed hspells hblock field hfield child hchild hopen hsimple with
    hend | ⟨hlt, hk⟩ | ⟨field', hfield', sibling, hsibling, hclosed, hfirst⟩
  · rw [hend]
    exact hnext fun hpart => hopen (hpart.below_isOpen field hfield child hchild)
  · have hnonempty := (h.below hfield hchild).here.covers.nonempty
    have hinside := h.here.inside hfield hchild
    have hkept : lexemes.Keeps other f child.place.next := by
      refine hthins.kept_of_boundary h hpart hblock (by omega) hlt ?_
      intro field' hfield' sibling hsibling hclosed hin
      by_cases heq : child = sibling
      · subst heq
        omega
      · have hapart := h.here.apart hfield hchild hfield' hsibling heq
        omega
    refine ⟨fun k _ hk => hkept.kindAt.symm.trans hk, fun _ hmember => ?_⟩
    rcases hk with hk | hk | hk <;> simp [Grammar.atMember, hk, Grammar.beginsMember] at hmember
  · rw [← hfirst]
    exact (hthins.below h hpart hfield' hsibling).follows (h.below hfield' hsibling) hclosed
      (h.here.child_complete hblock hfield' hsibling)

/-- What must not come next within a statement or a declaration does not come next in the other
input. -/
theorem not_ahead_thin {front rest : List Symbol} {tests : Lookahead}
    (h : part.All (lexemes.Supports repairs)) (hpart : ¬ part.IsIncomplete)
    (hblock : ¬ part.IsBlock) (hcomposed : part.Composed (front ++ .no tests :: rest))
    (hthins : lexemes.Thins other f part)
    (hnext : ¬ part.IsSimple → lexemes.Follows other f repairs part.place.next)
    (hbelow : ∀ field ∈ part.fields, ∀ child ∈ field,
      (child.prune.relocate (.move f)).All (other.Supports repairs.pruned))
    (hfront : lexemes.Spells part.place.first front k)
    (hrest : lexemes.Spells k rest part.place.next) (hno : ¬ lexemes.Ahead k tests) :
    ¬ other.Ahead (f k) tests := by
  intro hahead
  have hmem : .no tests ∈ front ++ .no tests :: rest :=
    List.mem_append_right _ (List.mem_cons_self ..)
  -- no part reaches over the place where the test is made
  have hkept (hlt : k < part.place.next) : lexemes.Keeps other f k := by
    refine hthins.kept_of_boundary h hpart hblock hfront.inside.1 hlt ?_
    intro field hfield child hchild hopen hin
    have hplace := hcomposed.part_of_child field hfield child hchild hopen
    rcases List.mem_append.mp hplace with hplace | hplace
    · have := (hfront.part_inside (mem_parts_of_part hplace)).2.1
      omega
    · have hplace := List.mem_of_ne_of_mem (by simp) hplace
      have := (hrest.part_inside (mem_parts_of_part hplace)).1
      omega
  rcases hcomposed.lookahead hmem with ⟨kind, hkind, rfl⟩ | ⟨rfl, htry⟩
  · have hne : kind ≠ .eof ∧ kind ≠ .semicolon := by
      rcases hkind with rfl | rfl | rfl <;> decide
    have hk := (ahead_kind hne).mp hahead
    refine hno ((ahead_kind hne).mpr ?_)
    rcases Nat.eq_or_lt_of_le hrest.inside.1 with rfl | hlt
    · exact (hnext fun hsimple => hcomposed.no_not_mem_of_isSimple hsimple hmem).keyword
        kind hkind hk
    · exact (hkept hlt).kindAt.symm.trans hk
  · generalize hsplit : front ++ .no .options :: rest = symbols at hcomposed
    cases hcomposed with
    | @tryCatch place call returns body clauses =>
      have hspells : lexemes.Spells place.first (front ++ .no .options :: rest) place.next :=
        spells_append.mpr ⟨k, hfront, hno, hrest⟩
      rcases options_of_try hsplit.symm hspells hfront with hbody | ⟨hlt, hk⟩
      · have hmoved := hbelow [.block body] (by simp [Part.fields, Part.statementFields]) _
          (List.mem_singleton_self _)
        have hoptions := not_ahead_options (b := body.prune.relocate (.move f)) hmoved
          repairs.pruned_ne_all
        rw [Block.place_relocate, Block.place_prune] at hoptions
        change ¬ other.Ahead (f body.place.first) .options at hoptions
        rw [hbody] at hoptions
        exact hoptions hahead
      · have hbrace := (ahead_options.mp hahead).1
        rw [(hkept hlt).kindAt, hk] at hbrace
        cases hbrace
    | _ => exact htry.elim

/-- What could be read stands in another input without the statements that could not, if what comes
next there is nothing that it would go on with. -/
theorem thin (h : part.All (lexemes.Supports repairs)) (hpart : ¬ part.IsIncomplete)
    (hclosed : ¬ part.IsOpen) (hthins : lexemes.Thins other f part)
    (hfollows : part.IsSimple ∨ lexemes.Follows other f repairs part.place.next) :
    (part.prune.relocate (.move f)).All (other.Supports repairs.pruned) := by
  induction part using Part.induction with
  | step part ih =>
    by_cases hphrasal : part.IsPhrasal
    · have hphrase : lexemes.IsPhrase part.place.first part part.place.next :=
        ⟨rfl, all_holds h hphrasal⟩
      have hcarried := hphrase.carry_of_closed (by cases part <;> trivial)
        (hthins.kept_of_isPhrasal hphrasal)
      rw [Part.prune_of_isPhrasal hphrasal]
      exact hcarried.holds.mono fun _ => .phrase
    have hnext (hsimple : ¬ part.IsSimple) : lexemes.Follows other f repairs part.place.next :=
      hfollows.resolve_left hsimple
    by_cases hblock : part.IsBlock
    · cases part with
      | block b =>
        refine thin_block h hthins (hnext id) fun s hs hcomplete hfollows => ?_
        refine ih _ (List.mem_singleton_self _) (.statement s) (List.mem_map_of_mem hs)
          (h.below (List.mem_singleton_self _) (List.mem_map_of_mem hs)) ?_ id
          (hthins.below h id (List.mem_singleton_self _) (List.mem_map_of_mem hs)) (.inr hfollows)
        rw [Part.isIncomplete_statement, hcomplete]
        decide
      | _ => exact hblock.elim
    obtain ⟨symbols, hcomposed, hdecided, hspells⟩ := h.here.composed_of hphrasal hblock hpart
    -- each part below is there
    have hbelow (field) (hfield : field ∈ part.fields) (child) (hchild : child ∈ field) :
        (child.prune.relocate (.move f)).All (other.Supports repairs.pruned) := by
      by_cases hopen : child.IsOpen
      · rw [Part.prune_of_isPhrasal hopen.isPhrasal]
        exact (thin_open h hpart hblock hcomposed hspells hthins hfield hchild hopen).mono
          fun _ => .phrase
      · refine ih field hfield child hchild (h.below hfield hchild)
          (h.here.child_complete hblock hfield hchild) hopen (hthins.below h hpart hfield hchild) ?_
        by_cases hsimple : child.IsSimple
        · exact .inl hsimple
        · exact .inr <| follows_below h hpart hblock hcomposed hspells hthins hnext hfield hchild
            hopen hsimple
    have hplace : (part.prune.relocate (.move f)).place = part.place.move f := by
      rw [Part.place_relocate, Part.place_prune]
      rfl
    refine Part.all_iff.mpr ⟨?_, ?_⟩
    · refine .composed ((Part.tight_relocate _ _).mpr (Part.tight_prune h.here.tight)) ?_
        (hcomposed.prune hblock).move ?_
      · exact hdecided.thin h hpart hblock hthins hbelow
      · rw [hplace]
        refine hspells.carry (fun n hn hlt hout => ?_) (fun place hplace => ?_) ?_
        · refine hthins.kept_of_boundary h hpart hblock hn hlt ?_
          intro field hfield child hchild hopen hin
          exact hout child.place (hcomposed.part_of_child field hfield child hchild hopen)
            ⟨Nat.le_of_lt hin.1, hin.2⟩
        · obtain ⟨field, hfield, child, hchild, rfl⟩ := hcomposed.child_of_part hplace
          have hcovers := (hbelow field hfield child hchild).here.covers
          rwa [Part.place_relocate, Part.place_prune] at hcovers
        · rintro front tests rest k rfl hfront hrest hno
          exact not_ahead_thin h hpart hblock hcomposed hthins hnext hbelow hfront hrest hno
    · rw [Part.fields_relocate, Part.fields_prune hblock, List.map_map, List.forall_mem_map]
      intro field hfield child hchild
      simp only [Function.comp_apply, List.map_map, List.mem_map] at hchild
      obtain ⟨child, hchild, rfl⟩ := hchild
      exact hbelow field hfield child hchild

end Lexemes

end SolidityParser
