import SolidityParser.Proofs.Recovery.Region
import SolidityParser.Proofs.Unread

/-!
# Recovery from broken statements

With tolerance, a statement that cannot be read is skipped up to the first token from which reading
may go on, and no further (`Source.parse_resumes`). No statement begins at its first token. If the
block does not end right after it, the next statement is one that is read with nothing skipped; so
no two skipped statements are neighbours.
-/

namespace SolidityParser

open Grammar

/-- What a block of a located tree goes on with at a token, after a statement that was skipped: it
ends there, or the next statement is read with nothing skipped. -/
def Layout.Continues (layout : Layout) (j : Nat) : List (Statement .located) → Prop
  | [] => layout.tokens.kind j = .rbrace ∨ atMember layout.tokens.lexemes j = true
  | s :: _ => layout.tokens.kind j ≠ .rbrace ∧ atMember layout.tokens.lexemes j = false ∧
    (∃ v k, layout.tokens.lexemes.ReadsStatement j v k ∧ v.relocate layout.relocation = s) ∧
      (Part.statement s).All fun part => ¬ part.IsIncomplete

/-- Each statement of a program that was skipped takes up the tokens from one at which none can be
read to the first from which reading may go on, and there its block goes on. -/
structure Program.Resumed (layout : Layout) (program : Program) : Prop where
  /-- It stands in a block. -/
  placed : ∀ u ∈ program.body, (Part.unit u).All fun part => part.IsIncomplete →
    ∃ b s, (Part.unit u).Within (.block b) ∧ s ∈ b.body ∧ part = .statement s
  /-- Where it stands, and what follows in the block. -/
  regions : ∀ u ∈ program.body, ∀ b, (Part.unit u).Within (.block b) →
    ∀ before place after, b.body = before ++ .incomplete place :: after →
      ∃ i j, layout.tokens.Runs i place j ∧
        (¬ ∃ s k, layout.tokens.lexemes.ReadsStatement i s k) ∧
        IsLeast {n | i < n ∧ layout.tokens.lexemes.Resumes i n} j ∧ layout.Continues j after

/-- The statements of a block in another form. -/
@[simp] theorem Block.body_relocate {F G : Form} (r : Relocation F G) (b : Block F) :
    (b.relocate r).body = b.body.map (·.relocate r) := by
  cases b
  simp [Block.relocate, Block.body]

/-- A statement in another form was skipped if it was skipped before. -/
theorem Statement.relocate_eq_incomplete {F G : Form} {r : Relocation F G} {s : Statement F}
    {place : G.Place} (h : s.relocate r = .incomplete place) :
    ∃ p, s = .incomplete p ∧ r.place p = place := by
  cases s <;> simp_all [Statement.relocate]

/-- What a block goes on with, it goes on with in the source. -/
theorem Lexemes.Continues.located {layout : Layout} {j : Nat} {after : List (Statement .parsed)}
    (hw : layout.tokens.lexemes.WellSpelled) (h : layout.tokens.lexemes.Continues j after) :
    layout.Continues j (after.map (·.relocate layout.relocation)) := by
  cases after with
  | nil =>
    refine h.imp_left fun hbrace => ?_
    rwa [layout.tokens.kind_eq]
  | cons s after =>
    obtain ⟨hbrace, hmember, k, hread⟩ := h
    have hstatement := (Lexemes.readsStatement_iff hw).mp hread
    refine ⟨by rwa [layout.tokens.kind_eq], hmember, ⟨s, k, hread, rfl⟩, ?_⟩
    change ((Part.statement s).relocate layout.relocation).All _
    refine (Part.all_relocate _).mpr fun p hwithin hincomplete => ?_
    exact (hstatement.lays.stands p hwithin).complete ((Part.isIncomplete_relocate _).mp hincomplete)

namespace Source

variable {source : String} {program : Program}

/-- With tolerance, each statement that was skipped ends at the first token from which reading may
go on. -/
theorem parse_resumes (h : parse source true = .ok program) :
    program.Resumed (layout source) := by
  have hp : (layout source).tokens.Placed (Text.byteLength source.toList) := lex_placed source
  obtain ⟨-, units, hunits, rfl⟩ := parse_eq_ok_iff.mp h
  obtain ⟨j, hsource⟩ := parseUnits_isSource (lex_wellSpelled source) hunits
  have hrun := parseUnits_isRun (lex_wellSpelled source) hunits
  constructor
  case placed =>
    refine List.forall_mem_map.mpr fun u hu => ?_
    change ((Part.unit u).relocate (layout source).relocation).All _
    refine (Part.all_relocate _).mpr fun p hwithin hincomplete => ?_
    obtain ⟨b, s, hblock, hs, rfl⟩ := Lexemes.exists_block (hsource.stands u hu) id hwithin
      ((Part.isIncomplete_relocate _).mp hincomplete)
    refine ⟨b.relocate _, s.relocate _, Part.within_relocate.mpr ⟨_, hblock, rfl⟩, ?_, rfl⟩
    rw [Block.body_relocate]
    exact List.mem_map_of_mem hs
  case regions =>
    refine List.forall_mem_map.mpr fun u hu b hblock before place after hbody => ?_
    have hblock : ((Part.unit u).relocate (layout source).relocation).Within (.block b) := hblock
    obtain ⟨p, hwithin, hp'⟩ := Part.within_relocate.mp hblock
    obtain ⟨b, rfl⟩ : ∃ b, p = .block b := by
      cases p <;> first | exact ⟨_, rfl⟩ | cases hp'
    cases hp'
    rw [Block.body_relocate, List.map_eq_append_iff] at hbody
    obtain ⟨before, rest, hbody, rfl, hrest⟩ := hbody
    obtain ⟨s, after, rfl, hs, rfl⟩ := List.map_eq_cons_iff.mp hrest
    obtain ⟨extent, rfl, rfl⟩ := Statement.relocate_eq_incomplete hs
    have hmem : Part.statement (.incomplete extent) ∈ b.body.map Part.statement :=
      List.mem_map_of_mem (by simp [hbody])
    have hbelow : (Part.unit u).Within (.statement (.incomplete extent)) :=
      hwithin.trans (.step (List.mem_singleton_self _) hmem (.self _))
    have hend := Lexemes.kindAt_next_ne_eof (hsource.stands u hu) id hbelow trivial
    obtain ⟨hnone, hleast, hgoes⟩ :=
      block_skipped (lex_wellSpelled source) (hrun u hu _ hwithin) hbody hend
    exact ⟨_, _, Layout.runs_span hp (hsource.stands u hu _ hbelow).covers, hnone, hleast,
      hgoes.located (lex_wellSpelled source)⟩

/-- Two statements that are broken. Both have a semicolon after an open parenthesis, which is closed
later on in the first, and not at all in the second. -/
def broken : String := "function f() \x7b a b ( ; c ) ; x; d e ( ; y; \x7d"

/-- Three statements of a function that stands alone in a source, of which only the middle one was
read: where they are, and the name that this one is. -/
def onlyMiddle? : Except SyntaxError Program → Option (Span × Span × String × Span)
  | .ok ⟨_, [.function ⟨_, _, _, _, _, some (.mk _
      [.incomplete first, .expression place (.identifier _ name), .incomplete last])⟩]⟩ =>
    some (first, place, name, last)
  | _ => none

/-- The statement between them is read. -/
theorem parse_broken :
    ∃ program f block name, parse broken true = .ok program ∧ program.body = [.function f] ∧
      f.body = some (.mk block [.incomplete ⟨15, 28⟩,
        .expression ⟨29, 31⟩ (.identifier name "x"), .incomplete ⟨32, 42⟩]) := by
  have hread : onlyMiddle? (parse broken true) = some (⟨15, 28⟩, ⟨29, 31⟩, "x", ⟨32, 42⟩) := by
    rw [broken, parse, read_ofList]
    decide +kernel
  unfold onlyMiddle? at hread
  split at hread
  · next hparse =>
    cases hread
    exact ⟨_, _, _, _, hparse, rfl, rfl⟩
  · cases hread

/-- The statements of a source that are skipped: the first ends where the statement between them
begins, the second with the block. -/
theorem parse_resumes_broken :
    ∃ program f block name, parse broken true = .ok program ∧ program.Resumed (layout broken) ∧
      program.body = [.function f] ∧
      f.body = some (.mk block [.incomplete ⟨15, 28⟩,
        .expression ⟨29, 31⟩ (.identifier name "x"), .incomplete ⟨32, 42⟩]) := by
  obtain ⟨program, f, block, name, hparse, hbody⟩ := parse_broken
  exact ⟨program, f, block, name, hparse, parse_resumes hparse, hbody⟩

end Source

end SolidityParser
