import SolidityParser.Proofs.Complete.Declaration
import SolidityParser.Proofs.Sound.Block

/-!
# Blocks and assembly are read

A block reads its statements one after the other, if the rule for statements reads each of them: no
statement begins with the brace that closes the block, and none where a member begins. A block that
was cut short is read as such only where broken statements are skipped (`Scope.Admits`).
-/

namespace SolidityParser

open Lexemes (Lays IsStatement)
open SolidityParser.Parser (Reads Gathers Rounds)

/-- Productions for phrases write only parts that no others do. -/
theorem Part.Phrased.isPhrasal {part : Part .parsed} {symbols : List Symbol}
    (h : part.Phrased symbols) : part.IsPhrasal := by
  induction h with
  | @unit unit _ _ hmember _ ih => cases unit <;> cases hmember <;> exact ih
  | _ => trivial

/-! ### What begins a statement -/

/-- The kinds that begin a statement. -/
def Kind.beginsStatement (kind : Kind) : Bool :=
  kind.beginsType || kind.beginsExpression || kind matches .lbrace | .kwIf | .kwFor | .kwWhile
    | .kwDo | .kwTry | .kwReturn | .kwEmit | .kwBreak | .kwContinue | .kwThrow | .kwUnchecked
    | .kwAssembly

namespace Lexemes

variable {lexemes : Lexemes} {repairs : Repairs} {i j n : Nat} {part child : Part .parsed}
  {field : List (Part .parsed)} {symbols : List Symbol}

/-- A part right below what stands in the input stands where it is spelled. -/
theorem Lays.right_below (h : lexemes.Lays repairs i part j) (hfield : field ∈ part.fields)
    (hchild : child ∈ field) (hfirst : child.place.first = n) :
    lexemes.Lays repairs n child child.place.next :=
  hfirst ▸ h.below hfield hchild

/-- What is no phrase, and nothing that is left of broken statements, is written by a production. -/
theorem Lays.composed (h : lexemes.Lays repairs i part j) (hpart : ¬ part.IsPhrasal)
    (hwhole : ¬ lexemes.Recovered repairs part) :
    ∃ symbols, part.Composed symbols ∧ lexemes.Decided part ∧ lexemes.Spells i symbols j := by
  cases h.stands.here with
  | phrase holds =>
    obtain ⟨-, symbols, hphrased, -⟩ := holds
    exact absurd hphrased.isPhrasal hpart
  | composed _ decided composed spells =>
    rw [h.place] at spells
    exact ⟨_, composed, decided, spells⟩
  | recovered recovered => exact absurd recovered hwhole

/-- A declaration of variables begins with a type or with a parenthesis. -/
theorem IsPhrase.beginsDeclaration {place : Extent}
    {slots : List (Option (VariableDeclaration Extent))} {initial : Option (Expression Extent)}
    (h : lexemes.IsPhrase i (.statement (.declaration place slots initial)) j) :
    (lexemes.kindAt i).beginsType = true ∨ lexemes.kindAt i = .lparen := by
  obtain ⟨symbols, hphrased, hspells⟩ := h.written
  cases hphrased with
  | @declaration _ declared =>
    have hdeclared : lexemes.IsPhrase i (.declared declared) declared.place.next :=
      h.right_below (List.mem_cons_self ..) (List.mem_cons_self ..) hspells.1.1
    obtain ⟨symbols, hphrased, hspells⟩ := hdeclared.written
    cases hphrased with
    | @declared _ type =>
      have htype : lexemes.IsPhrase i (.typeName type) type.place.next :=
        hdeclared.right_below (List.mem_cons_self ..) (List.mem_cons_self ..) hspells.1.1
      exact .inl htype.beginsType
  | declarationList => exact .inr hspells.1.2

/-- A block begins with a brace. -/
theorem Lays.block_begins {block : Block .parsed} (h : lexemes.Lays repairs i (.block block) j) :
    lexemes.kindAt i = .lbrace := by
  cases h.stands.here with
  | phrase holds =>
    obtain ⟨-, symbols, hphrased, -⟩ := holds
    cases hphrased
  | composed _ _ composed spells =>
    rw [h.place] at spells
    cases composed
    exact spells.1.2
  | recovered recovered =>
    cases recovered with
    | @cut place body _ _ spells =>
      obtain rfl : place = ⟨i, j⟩ := h.place
      exact spells.1.2

/-- A statement that was not skipped begins with a token that begins one. -/
theorem Lays.beginsStatement {s : Statement .parsed} (h : lexemes.Lays repairs i (.statement s) j)
    (hs : ¬ (Part.statement s).IsIncomplete) : (lexemes.kindAt i).beginsStatement = true := by
  unfold Kind.beginsStatement
  cases h.stands.here with
  | phrase holds =>
    obtain ⟨-, symbols, hphrased, -⟩ := id holds
    have hphrase : lexemes.IsPhrase i (.statement s) j :=
      h.isPhrase (by cases hphrased <;> trivial)
    cases hphrased
    all_goals
      rcases hphrase.beginsDeclaration with htype | hparen
      · rw [htype]
        rfl
      · rw [hparen]
        rfl
  | composed _ _ composed spells =>
    rw [h.place] at spells
    cases composed with
    | @blockStatement body =>
      rw [(h.right_below (List.mem_cons_self ..) (List.mem_cons_self ..) spells.1.1).block_begins]
      rfl
    | @expression _ value =>
      have hvalue : lexemes.IsPhrase i (.expression value) value.place.next :=
        (h.right_below (List.mem_cons_self ..) (List.mem_cons_self ..) spells.1.1).isPhrase trivial
      rw [hvalue.beginsExpression]
      simp
    | revert | placeholder =>
      rw [spells.1.2.1]
      rfl
    | _ =>
      rw [spells.1.2]
      rfl
  | recovered recovered =>
    cases recovered
    exact absurd trivial hs

end Lexemes

/-! ### What is read -/

/-- Rules that run in a scope read what trees with such repairs show: a skipped statement is none
that is read, and a block is cut short only where broken statements are skipped. -/
structure Scope.Admits (scope : Scope) (repairs : Repairs) : Prop where
  /-- No statement is skipped. -/
  skips : repairs ≠ .all
  /-- Blocks are cut short where statements may be skipped. -/
  cuts : repairs.cutsBlocks = true → scope.recovers = true

/-- A rule reads each statement that begins at `lo` or later. -/
def Rule.TakesStatements (scope : Scope) (repairs : Repairs) (lo : Nat)
    (rule : Rule (Statement .parsed)) : Prop :=
  ∀ {i s j}, lo ≤ i → scope.lexemes.IsStatement repairs i s j → rule.Reads scope i s j

/-- What is taken from one place on is taken from any later one on. -/
theorem Rule.TakesStatements.mono {scope : Scope} {repairs : Repairs} {lo lo' : Nat}
    {rule : Rule (Statement .parsed)} (h : rule.TakesStatements scope repairs lo) (hle : lo ≤ lo') :
    rule.TakesStatements scope repairs lo' :=
  fun hlo => h (Nat.le_trans hle hlo)

/-- Where no statement is shown as skipped, none is. -/
theorem Scope.Admits.complete {scope : Scope} {repairs : Repairs} {i j : Nat}
    {s : Statement .parsed} (ha : scope.Admits repairs)
    (h : scope.lexemes.Lays repairs i (.statement s) j) : ¬ (Part.statement s).IsIncomplete := by
  intro hs
  cases s with
  | incomplete place =>
    cases h.stands.here with
    | phrase holds =>
      obtain ⟨-, symbols, hphrased, -⟩ := holds
      cases hphrased
    | composed _ _ composed => cases composed
    | recovered recovered =>
      cases recovered with
      | skipped allowed => exact ha.skips allowed
  | _ => exact hs

namespace Grammar

variable {scope : Scope} {repairs : Repairs} {i j k lo : Nat} {rule : Rule (Statement .parsed)}

/-! ### Blocks -/

section Blocks

variable (hs : rule.TakesStatements scope repairs lo) (hends : rule.EndsAtMember)
  (ha : scope.Admits repairs)

include hs hends ha

/-- A statement of a block is read where it begins. -/
theorem blockItem_reads {s : Statement .parsed} (hlo : lo ≤ i)
    (h : scope.lexemes.IsStatement repairs i s j) :
    (blockItem rule).Reads scope i (some s) j := by
  have hbegins := h.lays.beginsStatement (ha.complete h.lays)
  have hread := hs hlo h
  have hclose : scope.lexemes.kindAt i ≠ .rbrace := by
    intro hk
    rw [hk] at hbegins
    cases hbegins
  -- the rule reads a statement here, so no member begins here
  have hcut : (scope.recovers && atMember scope.lexemes i) = false := by
    rw [Bool.and_eq_false_iff, Bool.eq_false_iff, Bool.eq_false_iff]
    refine .inr fun hmember => ?_
    obtain ⟨outcome, trail, hrun, hvalue⟩ := hread {}
    have hfails := hends scope ⟨i, {}⟩ hmember
    rw [hrun] at hfails
    cases outcome with
    | consumedOk | emptyOk => cases hfails
    | consumedErr | emptyErr => cases hvalue
  have htaken : (statementOrSkipped rule).Reads scope i s j := by
    intro trail
    have hfinish : Reads scope i rule.finish s j := .finish hread
    obtain ⟨trail', hrun⟩ := hfinish trail
    refine ⟨trail', ?_⟩
    unfold statementOrSkipped
    rw [hrun]
  refine .eatElse hclose <| .bind (v := false) (fun trail => ⟨trail, ?_⟩) <| .bind htaken .pure
  unfold cutShort
  rw [hcut]

/-- The statements of a block are read one after the other. -/
theorem blockItems_gathers {body : List (Statement .parsed)} (hlo : lo ≤ i)
    (hspells : scope.lexemes.Spells i (Symbol.row (body.map (·.place))) k)
    (hbody : ∀ s ∈ body, ∀ n, s.place.first = n →
      scope.lexemes.IsStatement repairs n s s.place.next)
    (hlast : (blockItem rule).Reads scope k none j) :
    Gathers scope (blockItem rule) i body j := by
  induction body generalizing i with
  | nil =>
    obtain rfl : i = k := hspells
    exact .nil hlast
  | cons s body ih =>
    obtain ⟨⟨hfirst, hcovers⟩, hrest⟩ := hspells
    dsimp only at hfirst hcovers
    have hstatement := hbody s (List.mem_cons_self ..) i hfirst
    have hlt := hstatement.lays.lt
    refine .cons (blockItem_reads hs hends ha hlo hstatement) hlt
      (ih (i := s.place.next) (by omega) hrest fun s hs => hbody s (List.mem_cons_of_mem _ hs)) ?_
    have := hcovers.inside (s.place.next - 1) (by omega) (by omega)
    have := Lexemes.lt_size_of_kindAt this
    omega

end Blocks

/-- A block is read up to its closing brace, or up to the member that cuts it short. -/
theorem block_reads (hs : rule.TakesStatements scope repairs (i + 1)) (hends : rule.EndsAtMember)
    (ha : scope.Admits repairs) {body : Block .parsed}
    (h : scope.lexemes.Lays repairs i (.block body) j) :
    (block rule).Reads scope i body j := by
  obtain ⟨place, body⟩ := body
  obtain rfl : place = ⟨i, j⟩ := h.place
  have hbody (hchosen : ∀ s ∈ body, scope.lexemes.Chosen s) (s) (hs : s ∈ body) (n)
      (hfirst : s.place.first = n) : scope.lexemes.IsStatement repairs n s s.place.next :=
    ⟨h.right_below (List.mem_singleton_self _) (List.mem_map_of_mem hs) hfirst, hchosen s hs⟩
  cases h.stands.here with
  | phrase holds =>
    obtain ⟨-, symbols, hphrased, -⟩ := holds
    cases hphrased
  | composed _ decided composed spells =>
    cases composed
    obtain ⟨k, ⟨⟨-, hopen⟩, hrow⟩, ⟨-, hclose⟩, rfl⟩ := Lexemes.spells_append.mp spells
    exact .bind .position <| .bind (.expect (by decide) hopen) <|
      .bind (.collect (blockItems_gathers hs hends ha (Nat.le_refl _) hrow
        (hbody decided.chosen) (.eatIf (by decide) hclose .pure))) <|
      .bind .extentFrom .pure
  | recovered recovered =>
    cases recovered with
    | cut allowed chosen spells member =>
      obtain ⟨⟨-, hopen⟩, hrow⟩ := spells
      have hclose : scope.lexemes.kindAt j ≠ .rbrace := by
        intro hk
        unfold atMember at member
        simp only [Nat.add_zero, hk] at member
        cases member
      have hlast : (blockItem rule).Reads scope j none j := by
        refine .eatElse hclose <| .bind (v := true) (fun trail => ⟨trail, ?_⟩) .pure
        unfold cutShort
        rw [ha.cuts allowed, member]
        rfl
      exact .bind .position <| .bind (.expect (by decide) hopen) <|
        .bind (.collect (blockItems_gathers hs hends ha (Nat.le_refl _) hrow
          (hbody chosen) hlast)) <|
        .bind .extentFrom .pure

/-! ### Assembly -/

/-- Where a brace is open, a token is consumed and the open braces are counted. -/
theorem braceStep_reads {depth : Nat} (hdepth : 0 < depth)
    (hk : scope.lexemes.kindAt i ≠ .eof) :
    (braceStep depth).Reads scope i (some ((scope.lexemes.kindAt i).bracesAfter depth)) (i + 1) := by
  unfold braceStep
  rw [if_neg (by omega)]
  refine .bind .kind ?_
  have hadvance := Reads.advance hk
  generalize scope.lexemes.kindAt i = kind at hk
  unfold Kind.bracesAfter
  split
  · exact absurd rfl hk
  · exact hadvance.bind .pure
  · exact hadvance.bind .pure
  · next hopen hclose =>
    split
    · exact absurd rfl hopen
    · exact absurd rfl hclose
    · exact hadvance.bind .pure

/-- The tokens up to the brace that closes an assembly block are skipped. -/
theorem skipBraces_reads {kinds : List Kind} (hi : i ≤ scope.lexemes.size)
    (hclose : Kind.Close 1 kinds) (h : scope.lexemes.Spells i (kinds.map .token) j) :
    skipBraces.Reads scope i () j := by
  have rounds : ∀ (kinds : List Kind) (depth i : Nat), Kind.Close depth kinds →
      scope.lexemes.Spells i (kinds.map .token) j → Rounds scope braceStep depth i 0 j := by
    intro kinds
    induction kinds with
    | nil =>
      rintro depth i hclose rfl
      cases depth with
      | zero => exact .refl _ _
      | succ depth => exact hclose.elim
    | cons k kinds ih =>
      rintro depth i hclose ⟨⟨hne, hk⟩, hrest⟩
      cases depth with
      | zero => cases hclose
      | succ depth =>
        have hstep := braceStep_reads (Nat.succ_pos depth) (hk ▸ hne)
        rw [hk] at hstep
        exact .head hstep (Nat.lt_succ_self i) (ih _ _ hclose hrest)
  have hsize : j ≤ scope.lexemes.size := by
    rcases Nat.eq_or_lt_of_le h.inside.1 with rfl | hlt
    · exact hi
    · exact h.le_size hlt
  rw [skipBraces_eq]
  exact .bind (.iterate (rounds kinds 1 i hclose h) (.pure) hsize) .pure

end Grammar

end SolidityParser
