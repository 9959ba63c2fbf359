import SolidityParser.Proofs.Production.Thin

/-!
# First tokens of statements and declarations

What could be read begins with a token that does not go on with what is before it, unless it is a
clause of a `try` statement (`joins_first`). No block begins as a list of options for a call does,
if no statement was skipped in it (`not_ahead_options`).
-/

namespace SolidityParser

open SolidityParser.Symbol (option separated series parts)

namespace Part

/-- Is this a clause of a `try` statement? -/
def IsClause {F : Form} : Part F → Prop
  | clause _ => True
  | _ => False

/-- A statement or a declaration begins with a part right below, or else with a token that does not
go on with what is before it. -/
theorem Composed.begins {lexemes : Lexemes} {i j : Nat} {part : Part .parsed}
    {symbols : List Symbol} (h : part.Composed symbols) (hclause : ¬ part.IsClause)
    (hspells : lexemes.Spells i symbols j) :
    (lexemes.kindAt i).joins = false ∨
      ∃ field ∈ part.fields, ∃ child ∈ field, ¬ child.IsClause ∧ child.place.first = i := by
  induction h with
  | blockStatement | expression =>
    exact .inr ⟨_, List.mem_cons_self .., _, List.mem_cons_self .., id, hspells.1.1⟩
  | unit hmember _ ih => exact SourceUnit.fields_of_member? hmember ▸ ih id hspells
  | clause => exact absurd trivial hclause
  | revert | placeholder | receive =>
    rw [hspells.1.2.1]
    exact .inl rfl
  | @contract _ _ kind isAbstract =>
    cases isAbstract with
    | true =>
      rw [hspells.1.2]
      exact .inl rfl
    | false =>
      rw [hspells.1.2]
      cases kind <;> exact .inl rfl
  | fallback hword =>
    rcases hword with rfl | rfl
    · rw [hspells.1.2]
      exact .inl rfl
    · rw [hspells.1.2.1]
      exact .inl rfl
  | _ =>
    rw [hspells.1.2]
    exact .inl rfl

end Part

namespace Lexemes

variable {lexemes : Lexemes} {repairs : Repairs} {i j n : Nat} {part child : Part .parsed}
  {field : List (Part .parsed)}

/-- No part that could be read, but a clause, goes on with what is before it. -/
theorem joins_first (h : part.All (lexemes.Supports repairs)) (hpart : ¬ part.IsIncomplete)
    (hclause : ¬ part.IsClause) : (lexemes.kindAt part.place.first).joins = false := by
  induction part using Part.induction with
  | step part ih =>
    by_cases hphrasal : part.IsPhrasal
    · exact (Kind.begins_iff.mp (begins_of_holds (all_holds h hphrasal))).2
    by_cases hblock : part.IsBlock
    · cases part with
      | block value =>
        obtain ⟨place, body⟩ := value
        exact congrArg Kind.joins h.here.block.2.1
      | _ => exact hblock.elim
    obtain ⟨symbols, hcomposed, hdecided, hspells⟩ := h.here.composed_of hphrasal hblock hpart
    rcases hcomposed.begins hclause hspells with hk | ⟨field, hfield, child, hchild, hc, hfirst⟩
    · exact hk
    · rw [← hfirst]
      exact ih field hfield child hchild (h.below hfield hchild)
        (h.here.child_complete hblock hfield hchild) hc

/-! ### What is no call option -/

/-- A phrase with a token after it that is no colon, and with none after its first. -/
theorem kindAt_succ_ne_colon_of_next (h : part.All lexemes.Holds) (hopen : part.IsOpen)
    (hname : ∀ a, part ≠ .namedArgument a) (hnext : lexemes.kindAt part.place.next ≠ .colon) :
    lexemes.kindAt (part.place.first + 1) ≠ .colon := by
  have hlt := h.here.covers.nonempty
  rcases Nat.eq_or_lt_of_le (Nat.succ_le_of_lt hlt) with heq | hlt
  · rwa [← Nat.succ_eq_add_one, heq]
  · exact kindAt_succ_ne_colon h hopen hname hlt

/-- No statement that could be read begins with a word and a colon. -/
theorem kindAt_succ_statement {s : Statement .parsed}
    (h : (Part.statement s).All (lexemes.Supports repairs)) (hs : s.isComplete = true)
    (hident : lexemes.kindAt s.place.first = .ident) :
    lexemes.kindAt (s.place.first + 1) ≠ .colon := by
  have hpart : ¬ (Part.statement s).IsIncomplete := by
    rw [Part.isIncomplete_statement, hs]
    decide
  -- what stands first is not the word that is asked for
  have keyword {k : Kind} (hk : lexemes.kindAt s.place.first = k) (hne : k ≠ .ident) : False :=
    hne (hk.symm.trans hident)
  by_cases hphrasal : (Part.statement s).IsPhrasal
  · have hholds := all_holds h hphrasal
    obtain ⟨-, symbols, hphrased, hspells⟩ := hholds.here
    cases hphrased with
    | @declaration place declared initial =>
      obtain ⟨⟨hfirst, -⟩, hrest⟩ := hspells
      have hdeclared := hholds.below (List.mem_cons_self ..) (List.mem_cons_self ..)
      have hnext : lexemes.kindAt declared.place.next ≠ .colon := by
        cases initial with
        | none =>
          rw [hrest.1.2]
          decide
        | some e =>
          rw [hrest.1.2]
          decide
      have hcolon := kindAt_succ_ne_colon_of_next hdeclared trivial nofun hnext
      rwa [show (Part.declared declared : Part .parsed).place.first = place.first from hfirst]
        at hcolon
    | declarationList => exact (keyword hspells.1.2 (by decide)).elim
  obtain ⟨symbols, hcomposed, -, hspells⟩ := h.here.composed_of hphrasal id hpart
  cases hcomposed with
  | @expression place value =>
    obtain ⟨⟨hfirst, -⟩, ⟨-, hsemi⟩, -⟩ := hspells
    have hvalue := all_holds (h.below (List.mem_cons_self ..) (List.mem_cons_self ..)) trivial
    have hcolon := kindAt_succ_ne_colon_of_next hvalue trivial nofun
      (by rw [Part.place, hsemi]; decide)
    rwa [show (Part.expression value : Part .parsed).place.first = place.first from hfirst]
      at hcolon
  | @revert place error =>
    have herror := all_holds (h.below (List.mem_cons_self ..) (List.mem_cons_self ..)) trivial
    have hbegins := (Kind.begins_iff.mp (begins_of_holds herror)).2
    rw [show (Part.expression error : Part .parsed).place.first = place.first + 1
      from hspells.2.1.1] at hbegins
    intro hcolon
    rw [show lexemes.kindAt (place.first + 1) = .colon from hcolon] at hbegins
    cases hbegins
  | placeholder =>
    exact fun hcolon => by cases hspells.2.1.2.symm.trans hcolon
  | @blockStatement body =>
    have hbrace : lexemes.kindAt body.place.first = .lbrace := by
      cases body
      exact (h.below (List.mem_cons_self ..) (List.mem_cons_self ..)).here.block.2.1
    exact (keyword hbrace (by decide)).elim
  | _ => exact (keyword hspells.1.2 (by decide)).elim

/-- Where a member begins, no word with a colon after it stands. -/
theorem kindAt_succ_of_atMember (h : Grammar.atMember lexemes n = true)
    (hident : lexemes.kindAt n = .ident) : lexemes.kindAt (n + 1) ≠ .colon := by
  intro hcolon
  simp only [Grammar.atMember, Nat.add_zero, hident, hcolon] at h
  split at h <;> simp at h

/-- A statement that was skipped does not stand where a member begins. -/
theorem Supports.skipped {place : Extent}
    (h : lexemes.Supports repairs (.statement (.incomplete place))) :
    repairs = .all ∧ Grammar.atMember lexemes place.first = false := by
  cases h with
  | phrase holds =>
    obtain ⟨-, _, hphrased, -⟩ := holds
    cases hphrased
  | composed _ _ composed => cases composed
  | recovered recovered =>
    cases recovered with
    | skipped allowed _ member => exact ⟨allowed, member⟩

/-- No block begins with what may be options for a call, if no statement was skipped. -/
theorem not_ahead_options {b : Block .parsed} (h : (Part.block b).All (lexemes.Supports repairs))
    (hrepairs : repairs ≠ .all) : ¬ lexemes.Ahead b.place.first .options := by
  rw [ahead_options]
  rintro ⟨-, hident, hcolon⟩
  obtain ⟨place, body⟩ := b
  change lexemes.kindAt (place.first + 1) = .ident at hident
  change lexemes.kindAt (place.first + 2) = .colon at hcolon
  obtain ⟨-, -, k, hrow, hend⟩ := h.here.block
  cases body with
  | nil =>
    obtain rfl : place.first + 1 = k := hrow
    rcases hend with ⟨hk, -⟩ | ⟨-, hmember, -⟩
    · rw [hident] at hk
      cases hk
    · exact kindAt_succ_of_atMember hmember hident hcolon
  | cons s body =>
    have hfirst : s.place.first = place.first + 1 := hrow.1.1
    have hs : (Part.statement s).All (lexemes.Supports repairs) :=
      h.below (List.mem_cons_self ..) (List.mem_cons_self ..)
    have hcomplete : s.isComplete = true := by
      cases s with
      | incomplete => exact absurd hs.here.skipped.1 hrepairs
      | _ => rfl
    refine kindAt_succ_statement hs hcomplete ?_ ?_ <;> rw [hfirst]
    · exact hident
    · exact hcolon

end Lexemes

end SolidityParser
