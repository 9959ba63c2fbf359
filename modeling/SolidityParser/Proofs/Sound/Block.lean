import SolidityParser.Proofs.Grammar.Statement
import SolidityParser.Proofs.Parser.Follows
import SolidityParser.Proofs.Production.Compound
import SolidityParser.Proofs.Sound.Declaration

/-!
# What blocks and assembly read

A block reads its statements one right after the other, up to the brace that closes it or the member
that cuts it short; a statement that is skipped covers tokens like any other. What is between the
braces of an assembly block closes what it opens.
-/

namespace SolidityParser

/-- A rule reads statements where they begin at `lo` or later, and skips none. -/
def Rule.ReadsStatements (scope : Scope) (lo : Nat) (rule : Rule (Statement .parsed)) : Prop :=
  ∀ {i s j}, lo ≤ i → rule.Gives scope i s j →
    scope.lexemes.IsStatement (.ofTolerance scope.tolerant) i s j ∧
      ¬ (Part.statement s).IsIncomplete

/-- What is known from one place on is known from any later one on. -/
theorem Rule.ReadsStatements.mono {scope : Scope} {lo lo' : Nat} {rule : Rule (Statement .parsed)}
    (h : rule.ReadsStatements scope lo) (hle : lo ≤ lo') : rule.ReadsStatements scope lo' :=
  fun hlo => h (Nat.le_trans hle hlo)

/-- The input does not end among tokens that match braces. -/
theorem Braced.inside {lexemes : Lexemes} {depth p q : Nat} (h : Braced lexemes depth p q) {n : Nat}
    (hp : p ≤ n) (hq : n < q) : lexemes.kindAt n ≠ .eof := by
  induction h with
  | stop => omega
  | step hne _ _ ih =>
    rcases Nat.eq_or_lt_of_le hp with rfl | hp
    · exact hne
    · exact ih hp hq

namespace Grammar

variable {scope : Scope} {i j k lo : Nat} {statement : Rule (Statement .parsed)}

/-! ### Skipped statements -/

/-- Skipping goes on by a token at least. -/
theorem skipAtFuel_lt {fuel : Nat} {brackets : OpenBrackets} {s t : ParseState}
    (h : skipAtFuel statement fuel brackets scope s = .ok () t)
    (hne : scope.lexemes.kindAt s.position ≠ .eof) : s.position < t.position := by
  cases fuel with
  | zero => cases h
  | succ fuel =>
    obtain ⟨next, hrun, hnext⟩ := skipToken_run statement brackets hne
    unfold skipAtFuel at h
    rw [Parser.bind_of_ok hrun] at h
    cases next with
    | none =>
      cases h
      exact Nat.lt_succ_self _
    | some brackets' => exact (skipAtFuel_braced fuel h hnext.2.1 hnext.2.2).le

/-- What is skipped covers tokens. -/
theorem skipIncomplete_covers {skipped : Extent} {s t : ParseState}
    (h : skipIncomplete statement scope s = .ok (some skipped) t)
    (hk : scope.lexemes.kindAt s.position ≠ .rbrace) :
    skipped = ⟨s.position, t.position⟩ ∧ scope.lexemes.Covers skipped := by
  have hbraced := skipIncomplete_braced h hk
  unfold skipIncomplete at h
  rw [Parser.bind_of_ok (show Parser.kind scope s = .ok _ s from rfl)] at h
  split at h
  · cases h
  · next hne =>
    rw [Parser.bind_of_ok (show Parser.position scope s = .ok _ s from rfl),
      Parser.bind_of_ok (show Parser.budget scope s = .ok _ s from rfl)] at h
    obtain ⟨_, u, hskip, h⟩ := Parser.bind_eq_ok h
    cases h
    exact ⟨rfl, skipAtFuel_lt hskip hne, fun n hp hq => hbraced.inside hp hq⟩

/-! ### Blocks -/

/-- What is read in a block is a statement, or it stands for what was skipped. -/
theorem statementOrSkipped_isStatement (hs : statement.ReadsStatements scope lo) (hlo : lo ≤ i)
    (hk : scope.lexemes.kindAt i ≠ .rbrace)
    (hcut : (scope.recovers && atMember scope.lexemes i) = false) {v : Statement .parsed}
    (h : (statementOrSkipped statement).Gives scope i v j) :
    scope.lexemes.IsStatement (.ofTolerance scope.tolerant) i v j := by
  obtain ⟨s, t, hrun, rfl, rfl⟩ := h
  unfold statementOrSkipped at hrun
  split at hrun
  · next hstatement =>
    cases hrun
    exact (hs hlo (Parser.Gives.of_run hstatement).finish).1
  · split at hrun
    · next hrecovers =>
      split at hrun
      · next skipped u hskip =>
        cases hrun
        obtain ⟨rfl, hcovers⟩ := skipIncomplete_covers hskip hk
        have htolerant : scope.tolerant = true := by
          unfold Scope.recovers at hrecovers
          rw [Bool.and_eq_true, Bool.and_eq_true] at hrecovers
          exact hrecovers.1.1
        refine ⟨⟨rfl, Part.all_iff.mpr ⟨.recovered (.skipped ?_ hcovers ?_), ?_⟩⟩, trivial, trivial⟩
        · rw [htolerant]
          rfl
        · simpa [hrecovers] using hcut
        · simp [Part.fields, Part.statementFields]
      · cases hrun
      · cases hrun
    · cases hrun

/-- Where a block ends: after its closing brace, or where a member begins. -/
def BlockEnds (scope : Scope) (k j : Nat) : Prop :=
  scope.lexemes.kindAt k = .rbrace ∧ j = k + 1 ∨
    scope.tolerant = true ∧ atMember scope.lexemes k = true ∧ j = k

/-- A round of a block gives a statement, or the block ends there. -/
theorem blockItem_gives (hs : statement.ReadsStatements scope lo) (hlo : lo ≤ i)
    {next : Option (Statement .parsed)} (h : (blockItem statement).Gives scope i next j) :
    match next with
    | none => BlockEnds scope i j
    | some v => scope.lexemes.IsStatement (.ofTolerance scope.tolerant) i v j := by
  rcases h.eatIf (by decide) with ⟨hk, h⟩ | ⟨hk, h⟩
  · obtain ⟨rfl, rfl⟩ := h.pure
    exact .inl ⟨hk, rfl⟩
  · obtain ⟨cut, k, ⟨s, t, hcut, rfl, rfl⟩, h⟩ := h.bind
    cases hcut
    split at h
    · next hcut =>
      obtain ⟨rfl, rfl⟩ := h.pure
      unfold Scope.recovers at hcut
      simp only [Bool.and_eq_true] at hcut
      exact .inr ⟨hcut.1.1.1, hcut.2, rfl⟩
    · next hcut =>
      obtain ⟨v, l, hv, h⟩ := h.bind
      obtain ⟨rfl, rfl⟩ := h.pure
      exact statementOrSkipped_isStatement hs hlo hk (Bool.eq_false_iff.mpr hcut) hv

/-- The statements of a block stand one right after the other. -/
theorem blockItems_spells (hs : statement.ReadsStatements scope lo) (hlo : lo ≤ i)
    {body : List (Statement .parsed)} (h : Collected scope (blockItem statement) i body j) :
    ∃ k, scope.lexemes.Spells i (Symbol.row (body.map (·.place))) k ∧ BlockEnds scope k j ∧
      ∀ v ∈ body, (Part.statement v).All (scope.lexemes.Supports (.ofTolerance scope.tolerant)) ∧
        scope.lexemes.Chosen v := by
  induction h with
  | nil last => exact ⟨_, rfl, blockItem_gives hs hlo last, by simp⟩
  | cons first rest ih =>
    obtain ⟨hlays, hchosen⟩ := blockItem_gives hs hlo first
    obtain ⟨k, hspells, hends, hbody⟩ := ih (Nat.le_trans hlo (Nat.le_of_lt hlays.lt))
    exact ⟨k, hlays.spells hspells, hends,
      List.forall_mem_cons.mpr ⟨⟨hlays.stands, hchosen⟩, hbody⟩⟩

/-- A block is its statements in braces, unless it was cut short. -/
theorem block_lays (hs : statement.ReadsStatements scope (i + 1)) {v : Block .parsed}
    (h : (block statement).Gives scope i v j) :
    scope.lexemes.Lays (.ofTolerance scope.tolerant) i (.block v) j := by
  obtain ⟨hopen, h⟩ := h.position.expect (by decide)
  obtain ⟨body, l, hbody, h⟩ := h.bind
  obtain ⟨rfl, rfl⟩ := h.extentFrom.pure
  obtain ⟨k, hspells, hends, hbelow⟩ := blockItems_spells hs (Nat.le_refl _) hbody.collect
  have hstands : ∀ field ∈ (Part.block (.mk ⟨i, j⟩ body) : Part .parsed).fields, ∀ child ∈ field,
      child.All (scope.lexemes.Supports (.ofTolerance scope.tolerant)) := by
    simpa [Part.fields, Block.body] using fun v hv => (hbelow v hv).1
  have hfrom : scope.lexemes.Spells i (.token .lbrace :: Symbol.row (body.map (·.place))) k :=
    ⟨⟨by decide, hopen⟩, hspells⟩
  rcases hends with ⟨hclose, rfl⟩ | ⟨htolerant, hmember, rfl⟩
  · refine .of_composed rfl (by simp [Part.Tight, Part.fields]) ?_ .block
      (hfrom.append ⟨⟨by decide, hclose⟩, rfl⟩) hstands
    exact ⟨fun v hv => (hbelow v hv).2, by simp [Part.branches], by simp [Part.initial?],
      by simp [Part.members]⟩
  · refine ⟨rfl, Part.all_iff.mpr ⟨.recovered (.cut ?_ ?_ hfrom hmember), hstands⟩⟩
    · rw [htolerant]
      rfl
    · exact fun v hv => (hbelow v hv).2

/-! ### Assembly -/

/-- The tokens up to the brace that closes an assembly block. -/
theorem skipBraces_spells (h : skipBraces.Gives scope i () j) :
    ∃ kinds, Kind.Close 1 kinds ∧ scope.lexemes.Spells i (kinds.map .token) j := by
  rw [skipBraces_eq] at h
  obtain ⟨v, k, h, hdone⟩ := h.bind
  obtain ⟨-, rfl⟩ := hdone.pure
  -- what closes the braces that are open now closes with the tokens so far the one at the start
  obtain ⟨k, ⟨kinds, hspells, hclose⟩, hlast⟩ := h.iterate
    (P := fun depth k => ∃ kinds : List Kind, scope.lexemes.Spells i (kinds.map .token) k ∧
      ∀ more, Kind.Close depth more → Kind.Close 1 (kinds ++ more))
    ⟨[], rfl, fun _ h => h⟩ (by
      rintro depth k _ l ⟨kinds, hspells, hclose⟩ ⟨s, t, hrun, rfl, rfl⟩
      rcases braceStep_eq_ok hrun with ⟨-, hnext, -⟩ | ⟨hdepth, hne, hnext, rfl⟩
      · cases hnext
      · cases hnext
        refine ⟨kinds ++ [scope.lexemes.kindAt s.position], ?_, ?_⟩
        · rw [List.map_append]
          exact hspells.append ⟨⟨hne, rfl⟩, rfl⟩
        · obtain ⟨depth, rfl⟩ := Nat.exists_eq_add_of_lt hdepth
          intro more hmore
          rw [List.append_assoc]
          refine hclose _ ?_
          rw [Nat.zero_add]
          rwa [Nat.zero_add] at hmore)
  obtain ⟨s, t, hrun, rfl, rfl⟩ := hlast
  rcases braceStep_eq_ok hrun with ⟨rfl, -, rfl⟩ | ⟨-, -, hnext, -⟩
  · exact ⟨kinds, by simpa using hclose [] rfl, hspells⟩
  · cases hnext

end Grammar

end SolidityParser
