import SolidityParser.Proofs.Complete.Unit
import SolidityParser.Proofs.Spans
import SolidityParser.Proofs.Tolerance

/-!
# Repairs show in the tree

Reading with tolerance repairs a source in two ways: a statement that cannot be read is skipped and
leaves a mark, and a block is closed where the next member of the contract begins, which leaves
none but the missing brace. A program without either is one that the source has by itself
(`Source.parse_eq_ok_iff_unrepaired`).

The mark alone does not tell: `Source.repaired_without_mark` is a source with an unclosed block, of
which nothing is skipped.
-/

namespace SolidityParser

/-! ### Blocks with their own braces -/

namespace TokenList

variable {list : TokenList} {size i j k l : Nat} {span : Span} {spans : List Span}

/-- The tokens that a span covers are determined by it. -/
theorem Runs.unique (hp : list.Placed size) (h : list.Runs i span j) (h' : list.Runs k span l) :
    i = k ∧ j = l := by
  obtain ⟨hlt, -, ⟨s, hs, hstart⟩, ⟨t, ht, hstop⟩⟩ := id h
  obtain ⟨hlt', -, ⟨s', hs', hstart'⟩, ⟨t', ht', hstop'⟩⟩ := id h'
  have hfirst := hp.index_unique hs hs' (hstart.trans hstart'.symm)
  -- of two last tokens, the later one would end later
  have before {m n : Nat} {t t' : Token} (ht : list.get? m = some t) (ht' : list.get? n = some t')
      (hn : n + 1 < list.size) (hstop : t.span.stop = t'.span.stop) : n ≤ m := by
    refine Nat.le_of_not_lt fun hmn => ?_
    have := hp.ordered m n t t' hmn ht ht'
    have := hp.nonempty n t' ht' (hp.ne_eof n t' ht' hn)
    omega
  have := before ht ht' (by have := h'.next_lt; omega) (hstop.trans hstop'.symm)
  have := before ht' ht (by have := h.next_lt; omega) (hstop'.trans hstop.symm)
  exact ⟨hfirst, by omega⟩

/-- So are the tokens that spans in a row take up. -/
theorem Tiles.unique (hp : list.Placed size) (h : list.Tiles i spans j)
    (h' : list.Tiles i spans k) : j = k := by
  induction spans generalizing i with
  | nil => exact Eq.trans (Eq.symm h) h'
  | cons span spans ih =>
    obtain ⟨m, hruns, hrest⟩ := h
    obtain ⟨n, hruns', hrest'⟩ := h'
    obtain rfl := (hruns.unique hp hruns').2
    exact ih hrest hrest'

end TokenList

/-- A block that was cut short has no closing brace of its own. -/
theorem Lexemes.Recovered.not_filled {layout : Layout} {size : Nat} {repairs : Repairs}
    (hp : layout.tokens.Placed size) {block : Block .parsed}
    (h : layout.tokens.lexemes.Recovered repairs (.block block)) :
    ¬ (block.relocate layout.relocation).Filled layout.tokens false := by
  cases h with
  | @cut place body _ _ spells =>
    intro hfilled
    have hcovers : layout.tokens.lexemes.Covers place :=
      spells.covers ⟨_, List.mem_cons_self .., rfl⟩
    have hruns := layout.runs_span hp hcovers
    have htiles := layout.tiles_span hp spells.2
    rw [List.map_map] at htiles
    cases hfilled with
    | @closed i k runs _ tiles =>
      obtain ⟨rfl, hnext⟩ := runs.unique hp hruns
      have heq : ((Block.mk place body).relocate layout.relocation).body.map (·.place) =
          body.map (layout.span ∘ (·.place)) := by
        rw [Block.relocate, Block.body, Statement.relocateList_eq, List.map_map]
        exact List.map_congr_left fun s _ => Part.place_relocate layout.relocation (.statement s)
      rw [heq] at tiles
      have := tiles.unique hp htiles
      omega
    | cut allowed => cases allowed

/-! ### Programs without repairs -/

namespace Part

instance {F : Form} : DecidablePred (IsIncomplete (F := F)) := fun part =>
  match part with
  | statement (.incomplete _) => .isTrue trivial
  | statement (.block _) | statement (.expression ..) | statement (.declaration ..)
  | statement (.ifElse ..) | statement (.forLoop ..) | statement (.whileLoop ..)
  | statement (.doWhile ..) | statement (.tryCatch ..) | statement (.returned ..)
  | statement (.emit ..) | statement (.revert ..) | statement (.breakLoop _)
  | statement (.continueLoop _) | statement (.throwError _) | statement (.unchecked ..)
  | statement (.assembly ..) | statement (.placeholder _) | identifier _ | expression _
  | namedArgument _ | typeName _ | parameter _ | declared _ | block _ | clause _ | path _
  | invocation _ | importSymbol _ | member _ | unit _ => .isFalse id

/-- Does a test hold of every part of a tree, and is the tree no deeper than that? -/
def holdsUpTo {F : Form} (test : Part F → Bool) : Nat → Part F → Bool
  | 0, _ => false
  | depth + 1, part => test part && part.fields.all (·.all (holdsUpTo test depth))

/-- A test that holds down to the leaves holds of every part. -/
theorem all_of_holdsUpTo {F : Form} {test : Part F → Bool} {depth : Nat} {top : Part F}
    (h : holdsUpTo test depth top = true) : top.All fun part => test part = true := by
  induction depth generalizing top with
  | zero => cases h
  | succ depth ih =>
    simp only [holdsUpTo, Bool.and_eq_true, List.all_eq_true] at h
    exact all_iff.mpr ⟨h.1, fun field hfield child hchild => ih (h.2 field hfield child hchild)⟩

end Part

/-- Nothing of a program was repaired. -/
structure Program.Unrepaired (tokens : TokenList) (program : Program) : Prop where
  /-- No statement was skipped. -/
  complete : ∀ u ∈ program.body, (Part.unit u).All fun part => ¬ part.IsIncomplete
  /-- Each block has its closing brace, after its statements. -/
  closed : ∀ u ∈ program.body, (Part.unit u).All fun part =>
    ∀ b, part = .block b → b.Filled tokens false

/-- A statement that was skipped stays one. -/
theorem Part.isIncomplete_relocate {F G : Form} (r : Relocation F G) {part : Part F} :
    (part.relocate r).IsIncomplete ↔ part.IsIncomplete := by
  cases part with
  | statement s => cases s <;> rfl
  | _ => rfl

/-- What stands in an input without repairs is complete. -/
theorem Lexemes.Supports.complete {lexemes : Lexemes} {part : Part .parsed}
    (h : lexemes.Supports .none part) : ¬ part.IsIncomplete := by
  intro hpart
  cases h with
  | phrase holds =>
    obtain ⟨-, symbols, hphrased, -⟩ := holds
    cases hphrased <;> exact hpart
  | composed _ _ composed => cases composed <;> exact hpart
  | recovered recovered =>
    cases recovered with
    | skipped allowed => cases allowed
    | cut => exact hpart

namespace Source

variable {source : String} {program : Program}

/-- A source parses to a program without tolerance if and only if it does with tolerance and nothing
of the program was repaired. -/
theorem parse_eq_ok_iff_unrepaired :
    parse source false = .ok program ↔
      parse source true = .ok program ∧ program.Unrepaired (lex source).tokens := by
  have hw := lex_wellSpelled source
  have hp := lex_placed source
  rw [parse_eq_ok_iff, parse_eq_ok_iff]
  constructor
  · rintro ⟨hsize, units, hunits, rfl⟩
    obtain ⟨j, hsource⟩ := Grammar.parseUnits_isSource hw hunits
    refine ⟨⟨hsize, units, Grammar.parseUnits_tolerant hunits, rfl⟩, ?_, ?_⟩ <;>
      intro u hu <;> obtain ⟨v, hv, rfl⟩ := List.mem_map.mp hu
    · refine (Part.all_relocate (layout source).relocation).mpr
        ((hsource.stands v hv).mono fun part hpart hincomplete => ?_)
      exact hpart.complete ((Part.isIncomplete_relocate _).mp hincomplete)
    · refine (Part.all_relocate (layout source).relocation).mpr
        ((hsource.stands v hv).mono fun part hpart b hb => ?_)
      cases part <;> cases hb
      have hsupports : (layout source).tokens.lexemes.Supports (.ofTolerance false) _ := hpart
      exact hsupports.block_filled hp
  · rintro ⟨⟨hsize, units, hunits, rfl⟩, hcomplete, hclosed⟩
    obtain ⟨j, hsource⟩ := Grammar.parseUnits_isSource hw hunits
    refine ⟨hsize, units, (Grammar.parseUnits_eq_ok_iff hw).mpr ⟨j, hsource.row, hsource.ends, ?_,
      hsource.chosen⟩, rfl⟩
    intro u hu part hpart
    have hmem := List.mem_map_of_mem (f := (·.relocate (layout source).relocation)) hu
    have hpart' := (Part.all_relocate (layout source).relocation).mp (hcomplete _ hmem) part hpart
    have hblock := (Part.all_relocate (layout source).relocation).mp (hclosed _ hmem) part hpart
    cases hsource.stands u hu part hpart with
    | phrase holds => exact .phrase holds
    | composed tight decided composed spells => exact .composed tight decided composed spells
    | recovered recovered =>
      cases part with
      | statement s =>
        cases recovered
        exact absurd trivial hpart'
      | block b =>
        have hrecovered : (layout source).tokens.lexemes.Recovered (.ofTolerance true) _ :=
          recovered
        exact absurd (hblock _ rfl) (hrecovered.not_filled hp)
      | _ => cases recovered

/-- The mark alone does not tell: with tolerance, this source parses to a program of which nothing
was skipped, and without tolerance to none. The first function has no closing brace. -/
theorem repaired_without_mark :
    ¬ ∀ (source : String) (program : Program), parse source true = .ok program →
      (∀ u ∈ program.body, (Part.unit u).All fun part => ¬ part.IsIncomplete) →
        parse source false = .ok program := by
  intro h
  let source := "contract C \x7b function f() \x7b function g() \x7b\x7d \x7d"
  have htolerant : ((parse source true).toOption.any fun program => program.body.all fun u =>
      Part.holdsUpTo (fun part => !decide part.IsIncomplete) 8 (.unit u)) = true := by
    rw [parse, read_ofList]
    decide +kernel
  have hstrict : (parse source false).isOk = false := by
    rw [parse, read_ofList]
    decide +kernel
  cases hparse : parse source true with
  | ok program =>
    simp only [hparse, Except.toOption, Option.any_some, List.all_eq_true] at htolerant
    have hok := h source program hparse fun u hu =>
      (Part.all_of_holdsUpTo (htolerant u hu)).mono fun part hpart => by simpa using hpart
    rw [hok] at hstrict
    cases hstrict
  | error report =>
    rw [hparse] at htolerant
    cases htolerant

end Source

end SolidityParser
