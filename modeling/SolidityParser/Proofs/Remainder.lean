import SolidityParser.Proofs.Production.Units
import SolidityParser.Proofs.Unread

/-!
# What is left without the statements that were skipped

Skipped statements account for all that is dropped: without the tokens that they take up, a source
parses to what it parsed to with tolerance, but for these statements and the places of nodes, and
nothing is skipped any more (`Source.parse_without_skipped`). The text and the places of the other
tokens stay as they are, and so do the passages that are left unread.
-/

namespace SolidityParser

/-! ### Some of the tokens -/

/-- Where a list has an element with a property, or none, the elements with it have the same after
those that come before. -/
theorem getElem?_filter_take {α : Type} {test : α → Bool} {l : List α} {n : Nat}
    (h : ∀ a ∈ l[n]?, test a = true) :
    (l.filter test)[((l.take n).filter test).length]? = l[n]? := by
  conv_lhs => rw [← List.take_append_drop n l, List.filter_append]
  rw [List.take_append_drop, List.getElem?_append_right (Nat.le_refl _), Nat.sub_self]
  rw [← Nat.add_zero n, ← List.getElem?_drop]
  cases hl : l.drop n with
  | nil => rfl
  | cons a rest =>
    have ha : l[n]? = some a := by
      rw [← Nat.add_zero n, ← List.getElem?_drop, hl]
      rfl
    simp [h a ha]

namespace TokenList

variable {list : TokenList} {test : Nat → Bool} {n : Nat}

/-- The tokens at the indices for which a test holds, in order. -/
def keep (list : TokenList) (test : Nat → Bool) : TokenList where
  tokens := ((list.tokens.toList.zipIdx.filter fun entry => test entry.2).map (·.1)).toArray

/-- How many tokens before an index are kept. -/
def rank (list : TokenList) (test : Nat → Bool) (n : Nat) : Nat :=
  ((list.tokens.toList.zipIdx.take n).filter fun entry => test entry.2).length

/-- The tokens of a list with their indices. -/
theorem getElem?_zipIdx (list : TokenList) (n : Nat) :
    list.tokens.toList.zipIdx[n]? = (list.get? n).map fun token => (token, n) := by
  simp [get?, List.getElem?_zipIdx]

@[simp] theorem rank_zero : list.rank test 0 = 0 := rfl

/-- An index goes to the next one if and only if there is a token at it, and it is kept. -/
theorem rank_succ :
    list.rank test (n + 1) = list.rank test n + if n < list.size ∧ test n then 1 else 0 := by
  unfold rank
  rw [List.take_add_one, List.filter_append, List.length_append, getElem?_zipIdx]
  by_cases hn : n < list.size
  · obtain ⟨token, htoken⟩ := list.exists_get? hn
    by_cases htest : test n <;> simp [htoken, hn, htest]
  · have hnone : list.get? n = none := Array.getElem?_eq_none (Nat.le_of_not_lt hn)
    simp [hnone, hn]

/-- A token that is kept comes after those before it that are. So does the end of the input. -/
theorem get?_keep (h : n < list.size → test n = true) :
    (list.keep test).get? (list.rank test n) = list.get? n := by
  have hget : ((list.tokens.toList.zipIdx.filter fun entry => test entry.2).map
      (·.1))[list.rank test n]? = list.get? n := by
    rw [List.getElem?_map, rank, getElem?_filter_take, getElem?_zipIdx, Option.map_map]
    · cases list.get? n <;> rfl
    · intro entry hentry
      rw [getElem?_zipIdx] at hentry
      obtain ⟨token, htoken, rfl⟩ := Option.map_eq_some_iff.mp hentry
      exact h (Array.getElem?_eq_some_iff.mp htoken).1
  rw [← hget]
  simp [get?, keep]

/-- A token that is kept is found at the number of those before it. -/
theorem lexemeAt_keep (h : n < list.size → test n = true) :
    (list.keep test).lexemes.lexemeAt (list.rank test n) = list.lexemes.lexemeAt n := by
  rw [lexemeAt_eq, lexemeAt_eq, get?_keep h]

/-- So the words of these are kept, with all that is kept between them. -/
theorem keeps_of_keep (hn : n < list.size) (h : test n = true) :
    list.lexemes.Keeps (list.keep test).lexemes (list.rank test) n :=
  ⟨lexemeAt_keep fun _ => h, by simp [rank_succ, hn, h]⟩

/-- A token that is kept stays where it stands. -/
theorem span_keep (h : list.rank test (n + 1) = list.rank test n + 1) :
    (list.keep test).span (list.rank test n) = list.span n := by
  have htest : n < list.size ∧ test n = true := by
    by_contra hnot
    rw [rank_succ, if_neg hnot] at h
    omega
  obtain ⟨token, htoken⟩ := list.exists_get? htest.1
  unfold span
  rw [get?_keep fun _ => htest.2, htoken]

/-- The words that are kept are spelled as they were. -/
theorem wellSpelled_keep (h : list.lexemes.WellSpelled) : (list.keep test).lexemes.WellSpelled := by
  intro i
  refine Lexemes.lexemeAt_of_forall (P := fun lexeme =>
    lexeme.kind = .ident ∨ lexeme.kind = .kwPayable ∨ lexeme.kind = .kwType →
      Kind.ofWord lexeme.text = lexeme.kind) (fun lexeme hmem => ?_) (by decide) i
  have hmem : lexeme ∈ list.lexemes := by
    simp only [lexemes, keep, List.map_toArray, List.map_map, List.mem_toArray, List.mem_map,
      List.mem_filter] at hmem
    obtain ⟨entry, ⟨hentry, -⟩, rfl⟩ := hmem
    rw [lexemes, Array.mem_map]
    exact ⟨entry.1, by simpa using List.fst_mem_of_mem_zipIdx hentry, rfl⟩
  obtain ⟨n, hn, rfl⟩ := Array.mem_iff_getElem.mp hmem
  simpa [Lexemes.kindAt, Lexemes.textAt, hn] using h n

end TokenList

/-! ### Layouts -/

namespace Layout

variable {layout : Layout} {test : Nat → Bool} {size : Nat}

/-- The tree of a text whose tokens are given. -/
def parse (layout : Layout) (tolerant : Bool) : Except SyntaxError Program :=
  match Grammar.parseUnits layout.tokens.lexemes tolerant with
  | .ok units => .ok (layout.program units)
  | .error failure => .error (Source.syntaxError layout failure)

/-- A layout is parsed as its tokens are, and the program is made from the units. -/
theorem parse_eq_ok_iff {tolerant : Bool} {program : Program} :
    layout.parse tolerant = .ok program ↔
      ∃ units, Grammar.parseUnits layout.tokens.lexemes tolerant = .ok units ∧
        program = layout.program units := by
  unfold parse
  cases Grammar.parseUnits layout.tokens.lexemes tolerant with
  | error failure => simp
  | ok units => simp [eq_comm]

/-- The same text with some of its tokens only. -/
def keep (layout : Layout) (test : Nat → Bool) : Layout :=
  { layout with tokens := layout.tokens.keep test }

/-- Where the first and the last token of an extent are kept, it has the same place. -/
theorem span_keep {place : Extent} (hpos : 0 < place.next)
    (hkept : ∀ n, n = place.first ∨ n + 1 = place.next →
      layout.tokens.rank test (n + 1) = layout.tokens.rank test n + 1) :
    (layout.keep test).span (place.move (layout.tokens.rank test)) = layout.span place := by
  obtain ⟨first, next⟩ := place
  cases next with
  | zero => exact absurd hpos (Nat.lt_irrefl 0)
  | succ last =>
    have hlast := hkept last (.inr rfl)
    have hstart := TokenList.span_keep (hkept first (.inl rfl))
    have hstop := TokenList.span_keep hlast
    simp [span, keep, Extent.move, TokenList.spanBefore, hlast, hstart, hstop]

end Layout

/-! ### Trees without their places -/

/-- The change that forgets the places of nodes, and keeps the passages that are left unread. -/
def Relocation.unplace : Relocation .located ⟨Unit, PragmaValue, String⟩ where
  place := fun _ => ()
  value := id
  body := id

namespace Program

/-- The program without the statements that were skipped. -/
def prune (program : Program) : Program := { program with body := program.body.map (·.prune) }

/-- The units of the program, but for the places of nodes. -/
def unplaced (program : Program) : List (SourceUnit ⟨Unit, PragmaValue, String⟩) :=
  program.body.map (·.relocate .unplace)

end Program

namespace Part

variable {F : Form} {part : Part F}

/-- What is below a tree without incomplete statements was below the tree. -/
theorem within_of_prune {q : Part F} (h : part.prune.Within q) :
    ∃ p, part.Within p ∧ p.prune = q := by
  induction part using Part.induction with
  | step part ih =>
    cases h with
    | self => exact ⟨part, .self _, rfl⟩
    | @step _ child _ field hfield hchild rest =>
      suffices hbelow : ∃ field ∈ part.fields, ∃ before ∈ field, before.prune = child by
        obtain ⟨field', hfield', before, hbefore, rfl⟩ := hbelow
        obtain ⟨p, hp, hq⟩ := ih field' hfield' before hbefore rest
        exact ⟨p, .step hfield' hbefore hp, hq⟩
      by_cases hblock : part.IsBlock
      · cases part with
        | block b =>
          obtain ⟨place, body⟩ := b
          obtain rfl := List.mem_singleton.mp hfield
          obtain ⟨s, hs, rfl⟩ := List.mem_map.mp hchild
          simp only [Block.prune, Block.body, Statement.pruneList_eq, List.mem_map,
            List.mem_filter] at hs
          obtain ⟨s, ⟨hs, -⟩, rfl⟩ := hs
          exact ⟨_, List.mem_singleton_self _, _, List.mem_map_of_mem hs, rfl⟩
        | _ => exact hblock.elim
      · rw [fields_prune hblock] at hfield
        obtain ⟨before, hbefore, rfl⟩ := List.mem_map.mp hfield
        exact ⟨before, hbefore, List.mem_map.mp hchild⟩

end Part

namespace Lexemes

variable {lexemes other : Lexemes} {f : Nat → Nat} {repairs : Repairs} {part p : Part .parsed}

/-- Of any part of a tree, the same words are kept. -/
theorem Thins.within (h : lexemes.Thins other f part) (hs : part.All (lexemes.Supports repairs))
    (hp : part.Within p) : lexemes.Thins other f p := by
  induction hp with
  | self => exact h
  | @step top child _ field hfield hchild _ ih =>
    refine ih (h.below hs (fun hincomplete => ?_) hfield hchild) (hs.below hfield hchild)
    cases top with
    | statement s => cases s <;> first | exact hincomplete.elim | cases hfield
    | _ => exact hincomplete.elim

/-- What is left of a tree has no incomplete statement, where none is allowed. -/
theorem Supports.complete_of_ne (h : lexemes.Supports repairs part) (hne : repairs ≠ .all) :
    ¬ part.IsIncomplete := fun hincomplete => hne (h.allowed hincomplete)

end Lexemes

namespace Source

variable {source : String} {program : Program}

/-- The tokens in statements that were skipped are not spared. -/
theorem skips_iff {layout : Layout} {size n : Nat} {repairs : Repairs}
    {units : List (SourceUnit .parsed)} (hp : layout.tokens.Placed size)
    (h : ∀ u ∈ units, (Part.unit u).All (layout.tokens.lexemes.Supports repairs)) :
    (layout.program units).Skips layout.tokens n ↔ ∃ u ∈ units, ¬ (Part.unit u).Spares n := by
  constructor
  · rintro ⟨_, hmem, part, hwithin, hincomplete, i, j, hruns, hn⟩
    obtain ⟨u, hu, rfl⟩ := List.mem_map.mp hmem
    have hwithin : ((Part.unit u).relocate layout.relocation).Within part := hwithin
    obtain ⟨p, hp', rfl⟩ := Part.within_relocate.mp hwithin
    rw [Part.place_relocate] at hruns
    obtain ⟨rfl, rfl⟩ := hruns.unique hp (Layout.runs_span hp (h u hu p hp').covers)
    exact ⟨u, hu, fun hspares => hspares p hp' ((Part.isIncomplete_relocate _).mp hincomplete) hn⟩
  · rintro ⟨u, hu, hspares⟩
    obtain ⟨p, hwithin, hp'⟩ : ∃ p, (Part.unit u).Within p ∧
        ¬ (p.IsIncomplete → ¬ (p.place.first ≤ n ∧ n < p.place.next)) := by
      simpa [Part.Spares, Part.All] using hspares
    rw [Classical.not_imp, Classical.not_not] at hp'
    refine ⟨_, List.mem_map_of_mem hu, p.relocate layout.relocation,
      Part.within_relocate.mpr ⟨p, hwithin, rfl⟩, (Part.isIncomplete_relocate _).mpr hp'.1, _, _,
      ?_, hp'.2⟩
    rw [Part.place_relocate]
    exact Layout.runs_span hp (h u hu p hwithin).covers

end Source

namespace Lexemes

variable {layout : Layout} {test : Nat → Bool} {repairs : Repairs} {j : Nat}
  {units : List (SourceUnit .parsed)} {u : SourceUnit .parsed}

/-- Without the tokens of statements that could not be read, each unit keeps its other words. -/
theorem IsSource.thins {tokens : TokenList} (h : tokens.lexemes.IsSource repairs units j)
    (htest : ∀ n, test n = true ↔ ∀ u ∈ units, (Part.unit u).Spares n) (hu : u ∈ units) :
    tokens.lexemes.Thins (tokens.keep test).lexemes (tokens.rank test) (.unit u) := by
  constructor
  case kept =>
    intro n hn hlt hspares
    refine TokenList.keeps_of_keep ?_ ((htest n).mpr fun v hv => ?_)
    · have hlt := lt_size_of_kindAt ((h.stands u hu).here.covers.inside n hn hlt)
      rwa [TokenList.lexemes, Array.size_map] at hlt
    · by_cases heq : v = u
      · exact heq ▸ hspares
      · have hapart := h.apart hv hu heq
        refine spares_of_outside (h.stands v hv) ?_
        dsimp only [Part.place] at hn hlt ⊢
        omega
  case skipped =>
    intro n hspares
    have hnot : ¬ test n = true := fun hkept => hspares ((htest n).mp hkept u hu)
    simp [TokenList.rank_succ, hnot]

/-- A source is one without the statements that could not be read. -/
theorem IsSource.keep {tokens : TokenList} (h : tokens.lexemes.IsSource repairs units j)
    (htest : ∀ n, test n = true ↔ ∀ u ∈ units, (Part.unit u).Spares n) :
    (tokens.keep test).lexemes.IsSource repairs.pruned
      (units.map fun u => u.prune.relocate (.move (tokens.rank test))) (tokens.rank test j) := by
  have hkept : test j = true := (htest j).mpr fun u hu =>
    spares_of_outside (h.stands u hu) (.inr (h.next_le hu))
  have hends : (tokens.keep test).lexemes.kindAt (tokens.rank test j) = .eof :=
    (congrArg Lexeme.kind (TokenList.lexemeAt_keep fun _ => hkept)).trans h.ends
  have hend : tokens.lexemes.Follows (tokens.keep test).lexemes (tokens.rank test) repairs j := by
    refine ⟨fun k hk hkind => ?_, fun _ hmember => ?_⟩
    · rw [hends] at hkind
      rcases hk with rfl | rfl | rfl <;> cases hkind
    · simp [Grammar.atMember, h.ends, Grammar.beginsMember] at hmember
  obtain ⟨hrow, -, hmoved⟩ :=
    units_thin h.row (fun u hu => ⟨h.stands u hu, h.thins htest hu⟩) hend
  refine ⟨?_, hends, List.forall_mem_map.mpr hmoved, List.forall_mem_map.mpr fun u hu =>
    (h.chosen u hu).thin (h.stands u hu) (h.thins htest hu)⟩
  have hplaces : (units.map fun u => u.prune.relocate (.move (tokens.rank test))).map (·.place) =
      units.map fun u => u.place.move (tokens.rank test) := by
    rw [List.map_map]
    refine List.map_congr_left fun u _ => ?_
    exact (Part.place_relocate _ (.unit u.prune)).trans (congrArg _ (Part.place_prune (.unit u)))
  rwa [hplaces]

/-- The passages that are left unread stay as they are. -/
theorem IsSource.unplace_keep (h : layout.tokens.lexemes.IsSource repairs units j)
    (htest : ∀ n, test n = true ↔ ∀ u ∈ units, (Part.unit u).Spares n) (hu : u ∈ units) :
    ((u.prune.relocate (.move (layout.tokens.rank test))).relocate
      (layout.keep test).relocation).relocate .unplace =
        (u.relocate layout.relocation).prune.relocate .unplace := by
  have hpassage {p : Part .parsed} {e : Extent} (hwithin : (Part.unit u).Within p)
      (hfields : p.fields = []) (hcomplete : ¬ p.IsIncomplete) (hfirst : p.place.first ≤ e.first)
      (hnext : p.place.first < e.next) (hlt : e.first < p.place.next)
      (hle : e.next ≤ p.place.next) :
      (layout.keep test).span (e.move (layout.tokens.rank test)) = layout.span e := by
    have hkept := ((h.thins htest hu).within (h.stands u hu) hwithin).kept_of_open hcomplete
      (by simp [hfields])
    refine Layout.span_keep (by omega) fun n hn => (hkept n ?_ ?_).next <;> omega
  have hmoved : (((Part.unit u).prune.relocate (.move (layout.tokens.rank test))).relocate
      ((layout.keep test).relocation.comp .unplace)) =
        (Part.unit u).prune.relocate (layout.relocation.comp .unplace) := by
    refine Part.relocate_relocate_of_sameAt fun q hq => ?_
    obtain ⟨p, hwithin, rfl⟩ := Part.within_of_prune hq
    refine ⟨rfl, fun body hbody => ?_, fun value hvalue => ?_⟩
    · obtain ⟨place, language, flags, rfl⟩ : ∃ place language flags,
          p = .statement (.assembly place language flags body) := by
        cases p with
        | statement s => cases s <;> simp_all [Part.bodies, Part.prune, Statement.prune]
        | _ => cases hbody
      obtain ⟨-, hinside, -, -, hlt, -, hnext⟩ := (h.stands u hu _ hwithin).assembly
      have hspan := hpassage hwithin rfl id (Nat.le_of_lt hinside)
        (show place.first < body.next by omega) (show body.first < place.next by omega)
        (show body.next ≤ place.next by omega)
      exact congrArg (fun span => String.ofList (Text.slice layout.text span)) hspan
    · obtain ⟨directive, rfl, rfl⟩ : ∃ directive, p = .unit (.pragma directive) ∧
          directive.value = value := by
        cases p with
        | unit v => cases v <;> simp_all [Part.values, Part.prune, SourceUnit.prune]
        | _ => cases hvalue
      obtain ⟨-, -, hfirst, hle, hnext, -⟩ := (h.stands u hu _ hwithin).pragma
      have hspan := hpassage hwithin rfl id
        (show directive.place.first ≤ directive.value.first by omega)
        (show directive.place.first < directive.value.next by omega)
        (show directive.value.first < directive.place.next by omega)
        (show directive.value.next ≤ directive.place.next by omega)
      exact congrArg (fun span => PragmaValue.ofText span.start (Text.slice layout.text span)) hspan
  rw [← Part.relocate_relocate, ← Part.relocate_relocate,
    ← Part.relocate_prune layout.relocation] at hmoved
  exact Part.unit.inj hmoved

end Lexemes

/-- Without the statements that were skipped, a layout parses to what it did, but for these. -/
theorem Layout.parse_keep {layout : Layout} {size : Nat} {program : Program} {test : Nat → Bool}
    (hw : layout.tokens.lexemes.WellSpelled) (hp : layout.tokens.Placed size)
    (h : layout.parse true = .ok program)
    (htest : ∀ n, test n = true ↔ ¬ program.Skips layout.tokens n) :
    ∃ rest, (layout.keep test).parse true = .ok rest ∧
      (∀ u ∈ rest.body, (Part.unit u).All fun part => ¬ part.IsIncomplete) ∧
        rest.unplaced = program.prune.unplaced := by
  obtain ⟨units, hunits, rfl⟩ := parse_eq_ok_iff.mp h
  obtain ⟨j, hsource⟩ := Grammar.parseUnits_isSource hw hunits
  have hspares (n : Nat) : test n = true ↔ ∀ u ∈ units, (Part.unit u).Spares n := by
    rw [htest, Source.skips_iff hp hsource.stands]
    push Not
    rfl
  have hrest := hsource.keep hspares
  have hok : Grammar.parseUnits (layout.keep test).tokens.lexemes true = .ok _ :=
    Grammar.parseUnits_of_isSource (TokenList.wellSpelled_keep hw)
      ⟨Repairs.pruned_ne_all _, fun _ => rfl⟩ hrest
  refine ⟨_, parse_eq_ok_iff.mpr ⟨_, hok, rfl⟩, List.forall_mem_map.mpr fun u hu => ?_, ?_⟩
  · refine (Part.all_relocate _).mpr ((hrest.stands u hu).mono fun p hp hincomplete => ?_)
    exact hp.complete_of_ne (Repairs.pruned_ne_all _)
      ((Part.isIncomplete_relocate _).mp hincomplete)
  · simp only [Program.unplaced, Program.prune, Layout.program, List.map_map]
    exact List.map_congr_left fun u hu => hsource.unplace_keep hspares hu

namespace Source

variable {source : String} {program : Program}

/-- A source that is not too long parses to what its layout does. -/
theorem parse_eq_parse_layout (hsize : WithinLimit source) {tolerant : Bool} :
    parse source tolerant = (layout source).parse tolerant := by
  unfold parse Layout.parse
  rw [read_of_withinLimit hsize, show (layout source).tokens = (lex source).tokens from rfl]
  cases Grammar.parseUnits (lex source).tokens.lexemes tolerant <;> rfl

open Classical in
/-- A source without the tokens in statements of a program that were skipped. -/
noncomputable def withoutSkipped (source : String) (program : Program) : Layout :=
  (layout source).keep fun n => ¬ program.Skips (layout source).tokens n

/-- Without the statements that were skipped, a source parses to what it did, but for these. -/
theorem parse_without_skipped (h : parse source true = .ok program) :
    ∃ rest, (withoutSkipped source program).parse true = .ok rest ∧
      (∀ u ∈ rest.body, (Part.unit u).All fun part => ¬ part.IsIncomplete) ∧
        rest.unplaced = program.prune.unplaced := by
  classical
  rw [parse_eq_parse_layout (withinLimit_of_read h)] at h
  exact Layout.parse_keep (lex_wellSpelled source) (lex_placed source) h
    fun _ => decide_eq_true_iff

/-- Statements that are broken after a brace, before another statement, and where a block ends that
has no closing brace. -/
def damaged : String :=
  "pragma p ^1; contract C \x7b function f() \x7b try a.b() \x7b c d e; \x7d " ++
    "catch \x7b f g h; \x7d if (i) j; k l m; assembly \x7b n \x7d o p " ++
      "function q() \x7b \x7d \x7d"

/-- A source with broken statements, and what is left without them. -/
theorem parse_without_skipped_damaged :
    ∃ program, parse damaged true = .ok program ∧
      ∃ rest, (withoutSkipped damaged program).parse true = .ok rest ∧
        (∀ u ∈ rest.body, (Part.unit u).All fun part => ¬ part.IsIncomplete) ∧
          rest.unplaced = program.prune.unplaced := by
  have hok : (parse damaged true).isOk = true := by
    have htext : damaged = String.ofList _ :=
      Text.append_eq_ofList (Text.append_eq_ofList rfl rfl) rfl
    rw [htext, parse, read_ofList]
    decide +kernel
  cases h : parse damaged true with
  | error e =>
    rw [h] at hok
    cases hok
  | ok program => exact ⟨program, rfl, parse_without_skipped h⟩

end Source

end SolidityParser
