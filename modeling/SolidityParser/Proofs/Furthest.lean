import Mathlib.Data.List.Induction
import SolidityParser.Failure.Furthest

/-!
# The furthest failure is a join

A record of failures is its position with the failures held there (`Furthest.Holds`), and nothing
else (`Furthest.ext_holds`). Adding a failure moves the position to the larger of two and keeps what
is held at the new one (`Furthest.holds_add`), so after a row of failures the record is at the
largest position among them and holds those that are there, in whatever order they came.

A rule that reports under its own name takes back what was added at its first token since it began.
Over such a region the record does not go back either (`Furthest.Leads`): what is taken back was not
held when the region began.

**Theorem** (`Furthest.records_join`): both.
-/

namespace SolidityParser

/-! ### Sets by their members -/

/-- Kinds with one index are one kind. -/
theorem Kind.index_injective : Function.Injective Kind.index := by
  have hall (k : Kind) : ofIndex? k.index = some k := by cases k <;> rfl
  intro k k' h
  exact Option.some_inj.mp ((hall k).symm.trans ((congrArg ofIndex? h).trans (hall k')))

/-- Each number below six is that of a rule. -/
theorem RuleName.exists_index {n : Nat} (h : n < 6) : ∃ rule : RuleName, rule.index = n := by
  have hall : ∀ n : Fin 6, (all.get ⟨n, n.isLt⟩).index = n := by decide
  exact ⟨_, hall ⟨n, h⟩⟩

/-- Kinds are numbered from zero on. -/
theorem Kind.index_lt (k : Kind) : k.index < Kind.count := by
  cases k <;> decide

/-- Each number below their count is that of a kind. -/
theorem Kind.exists_index {n : Nat} (h : n < Kind.count) : ∃ k : Kind, k.index = n := by
  have hall : ∀ n : Fin Kind.count, (Kind.all.get ⟨n, n.isLt⟩).index = n := by decide +kernel
  exact ⟨_, hall ⟨n, h⟩⟩

namespace TokenSet

variable {set other : TokenSet} {k k' : Kind}

/-- No kind is in the empty set. -/
theorem contains_empty (k : Kind) : (∅ : TokenSet).contains k = false :=
  BitVec.getLsbD_zero

/-- A set with a kind added has that kind, and those that it had before. -/
theorem contains_insert_iff :
    (set.insert k).contains k' = true ↔ k' = k ∨ set.contains k' = true := by
  have hbit : (set.insert k).contains k' = (set.contains k' || decide (k.index = k'.index)) := by
    show (set.bits ||| BitVec.twoPow Kind.count k.index).getLsbD k'.index = _
    rw [BitVec.getLsbD_or, BitVec.getLsbD_twoPow]
    simp [contains, k.index_lt]
  rw [hbit, Bool.or_eq_true, decide_eq_true_eq, Kind.index_injective.eq_iff, or_comm, eq_comm]

/-- Sets with the same kinds are equal. -/
theorem ext_contains (h : ∀ k, set.contains k = other.contains k) : set = other := by
  obtain ⟨bits⟩ := set
  obtain ⟨bits'⟩ := other
  refine congrArg mk (BitVec.eq_of_getLsbD_eq fun n hn => ?_)
  obtain ⟨k, rfl⟩ := Kind.exists_index hn
  exact h k

end TokenSet

namespace RuleSet

variable {set other : RuleSet} {rule rule' : RuleName}

/-- Nor is any rule. -/
theorem contains_empty (rule : RuleName) : (∅ : RuleSet).contains rule = false :=
  BitVec.getLsbD_zero

/-- A set with a rule added has that rule, and those that it had before. -/
theorem contains_insert_iff :
    (set.insert rule).contains rule' = true ↔ rule' = rule ∨ set.contains rule' = true := by
  have hbit : (set.insert rule).contains rule' =
      (set.contains rule' || decide (rule.index = rule'.index)) := by
    show (set.bits ||| BitVec.twoPow 6 rule.index).getLsbD rule'.index = _
    rw [BitVec.getLsbD_or, BitVec.getLsbD_twoPow]
    have hlt : rule.index < 6 := by cases rule <;> decide
    simp [contains, hlt]
  have hindex : rule.index = rule'.index ↔ rule' = rule := by
    cases rule <;> cases rule' <;> decide
  rw [hbit, Bool.or_eq_true, decide_eq_true_eq, hindex, or_comm]

/-- Sets with the same rules are equal. -/
theorem ext_contains (h : ∀ rule, set.contains rule = other.contains rule) : set = other := by
  obtain ⟨bits⟩ := set
  obtain ⟨bits'⟩ := other
  refine congrArg mk (BitVec.eq_of_getLsbD_eq fun n hn => ?_)
  obtain ⟨rule, rfl⟩ := RuleName.exists_index hn
  exact h rule

end RuleSet

/-! ### Failures one by one -/

/-- A failure as it is reported: what would have been accepted, and where. -/
inductive Miss
  /-- A token of a kind. -/
  | token (position : Nat) (kind : Kind)
  /-- A named rule. -/
  | rule (position : Nat) (name : RuleName)
deriving DecidableEq

/-- Where something would have been accepted. -/
def Miss.position : Miss → Nat
  | token position _ | rule position _ => position

namespace Furthest

variable {record before other : Furthest} {m n : Miss} {p : Nat}

/-- Records a failure. -/
def add (record : Furthest) : Miss → Furthest
  | .token position kind => record.addToken position kind
  | .rule position name => record.addRule position name

/-- Is the failure on record? -/
def Holds (record : Furthest) : Miss → Prop
  | .token position kind => position = record.position ∧ record.expected.contains kind = true
  | .rule position name => position = record.position ∧ record.rules.contains name = true

/-- All failures that a record holds are where it is. -/
theorem Holds.position_eq (h : record.Holds m) : m.position = record.position := by
  cases m <;> exact h.1

/-- Nothing is held where nothing has been recorded. -/
theorem not_holds_fresh : ¬ Holds { position := p } m := by
  cases m with
  | token q kind =>
    exact fun h => Bool.false_ne_true ((TokenSet.contains_empty kind).symm.trans h.2)
  | rule q name => exact fun h => Bool.false_ne_true ((RuleSet.contains_empty name).symm.trans h.2)

/-- A record is its position with what it holds. -/
theorem ext_holds (hposition : record.position = other.position)
    (h : ∀ m, record.Holds m ↔ other.Holds m) : record = other := by
  obtain ⟨p, expected, rules⟩ := record
  obtain ⟨q, expected', rules'⟩ := other
  obtain rfl : p = q := hposition
  have hexpected : expected = expected' := TokenSet.ext_contains fun k => by
    simpa [Holds, ← Bool.eq_iff_iff] using h (.token p k)
  have hrules : rules = rules' := RuleSet.ext_contains fun name => by
    simpa [Holds, ← Bool.eq_iff_iff] using h (.rule p name)
  rw [hexpected, hrules]

/-- A record goes to a later position, and stays at an earlier one. -/
theorem position_reach : (record.reach p).position = max record.position p := by
  unfold reach
  split
  · next hlt => exact (Nat.max_eq_right (Nat.le_of_lt hlt)).symm
  · next hlt => exact (Nat.max_eq_left (Nat.le_of_not_lt hlt)).symm

/-- A record that has moved on holds nothing any more. -/
theorem holds_reach :
    (record.reach p).Holds m ↔ m.position = (record.reach p).position ∧ record.Holds m := by
  unfold reach
  split
  · next hlt =>
    refine iff_of_false not_holds_fresh fun ⟨hm, h⟩ => ?_
    exact absurd (h.position_eq.symm.trans hm) (Nat.ne_of_lt hlt)
  · exact ⟨fun h => ⟨h.position_eq, h⟩, And.right⟩

/-- A record takes up a token that was missed where it then is, and keeps its own failures if it was
there before. -/
theorem holds_addToken {k : Kind} : (record.addToken p k).Holds m ↔
    (record.reach p).Holds m ∨ m = .token p k ∧ (record.reach p).position = p := by
  unfold addToken
  generalize record.reach p = reached
  dsimp only
  split
  · next hp =>
    cases m with
    | token q kind =>
      simp only [Holds, TokenSet.contains_insert_iff, Miss.token.injEq, hp]
      tauto
    | rule q name => simp [Holds]
  · next hp => simp [hp]

/-- So it does with a rule. -/
theorem holds_addRule {name : RuleName} : (record.addRule p name).Holds m ↔
    (record.reach p).Holds m ∨ m = .rule p name ∧ (record.reach p).position = p := by
  unfold addRule
  generalize record.reach p = reached
  dsimp only
  split
  · next hp =>
    cases m with
    | token q kind => simp [Holds]
    | rule q name =>
      simp only [Holds, RuleSet.contains_insert_iff, Miss.rule.injEq, hp]
      tauto
  · next hp => simp [hp]

/-- A record moves on to a failure that is added, if that is further. -/
theorem position_add : (record.add m).position = max record.position m.position := by
  rw [← position_reach]
  cases m with
  | token q kind =>
    unfold add addToken
    dsimp only
    split <;> rfl
  | rule q name =>
    unfold add addRule
    dsimp only
    split <;> rfl

/-- It holds the failure that is added and those that it held before, if they are where it is. -/
theorem holds_add :
    (record.add m).Holds n ↔ n.position = (record.add m).position ∧ (n = m ∨ record.Holds n) := by
  have hadded : (record.add m).Holds n ↔ (record.reach m.position).Holds n ∨
      n = m ∧ (record.reach m.position).position = m.position := by
    cases m with
    | token q kind => exact holds_addToken
    | rule q name => exact holds_addRule
  rw [hadded, holds_reach, position_add, ← position_reach]
  constructor
  · rintro (⟨hn, h⟩ | ⟨rfl, hn⟩)
    · exact ⟨hn, .inr h⟩
    · exact ⟨hn.symm, .inl rfl⟩
  · rintro ⟨hn, rfl | h⟩
    · exact .inr ⟨rfl, hn.symm⟩
    · exact .inl ⟨hn, h⟩

/-! ### Failures in a row -/

/-- The record of failures that are reported one after the other. -/
def ofMisses (misses : List Miss) : Furthest := misses.foldl add {}

/-- The last failure is added to the record of those before it. -/
theorem ofMisses_concat (misses : List Miss) (m : Miss) :
    ofMisses (misses ++ [m]) = (ofMisses misses).add m := by
  rw [ofMisses, List.foldl_append]
  rfl

/-- No failure is further on than the record. -/
theorem position_le_ofMisses {misses : List Miss} (h : m ∈ misses) :
    m.position ≤ (ofMisses misses).position := by
  induction misses using List.reverseRecOn with
  | nil => cases h
  | append_singleton misses last ih =>
    rw [ofMisses_concat, position_add]
    rcases List.mem_append.mp h with h | h
    · exact Nat.le_trans (ih h) (Nat.le_max_left _ _)
    · obtain rfl := List.mem_singleton.mp h
      exact Nat.le_max_right _ _

/-- The record is where one of the failures is. -/
theorem exists_position_ofMisses {misses : List Miss} (h : misses ≠ []) :
    ∃ m ∈ misses, m.position = (ofMisses misses).position := by
  induction misses using List.reverseRecOn with
  | nil => exact absurd rfl h
  | append_singleton misses last ih =>
    rw [ofMisses_concat, position_add]
    rcases Nat.le_total (ofMisses misses).position last.position with hle | hle
    · exact ⟨last, by simp, (Nat.max_eq_right hle).symm⟩
    · rw [Nat.max_eq_left hle]
      by_cases hnil : misses = []
      · subst hnil
        exact ⟨last, by simp, Nat.le_zero.mp hle⟩
      · obtain ⟨m, hm, heq⟩ := ih hnil
        exact ⟨m, List.mem_append_left _ hm, heq⟩

/-- The record holds the failures at its position, and no others. -/
theorem holds_ofMisses {misses : List Miss} :
    (ofMisses misses).Holds m ↔ m.position = (ofMisses misses).position ∧ m ∈ misses := by
  induction misses using List.reverseRecOn with
  | nil => exact iff_of_false not_holds_fresh fun h => List.not_mem_nil h.2
  | append_singleton misses last ih =>
    rw [ofMisses_concat, holds_add, ih, List.mem_append, List.mem_singleton, or_comm]
    refine and_congr_right fun hm => or_congr_left (and_iff_right_of_imp fun hmem => ?_)
    -- a failure that comes before the last one is not further on than the record was
    rw [position_add] at hm
    have hle := position_le_ofMisses hmem
    omega

/-- Failures that are the same, in any order and any number of times, make the same record. -/
theorem ofMisses_congr {misses others : List Miss} (h : ∀ m, m ∈ misses ↔ m ∈ others) :
    ofMisses misses = ofMisses others := by
  have hle {misses others : List Miss} (h : ∀ m, m ∈ misses → m ∈ others) :
      (ofMisses misses).position ≤ (ofMisses others).position := by
    by_cases hnil : misses = []
    · subst hnil
      exact Nat.zero_le _
    · obtain ⟨m, hm, heq⟩ := exists_position_ofMisses hnil
      exact heq ▸ position_le_ofMisses (h m hm)
  have hposition := Nat.le_antisymm (hle fun m => (h m).mp) (hle fun m => (h m).mpr)
  refine ext_holds hposition fun m => ?_
  rw [holds_ofMisses, holds_ofMisses, hposition, h m]

/-! ### Rules that report under their names -/

/-- The second record is not behind the first, and holds what the first one does, if it is where
that is. -/
structure Leads (record other : Furthest) : Prop where
  /-- It is not behind. -/
  position_le : record.position ≤ other.position
  /-- It holds what the first does. -/
  holds : other.position = record.position → ∀ m, record.Holds m → other.Holds m

/-- A record leads on from itself. -/
theorem Leads.refl (record : Furthest) : record.Leads record := ⟨Nat.le_refl _, fun _ _ => id⟩

/-- Two steps that lead on are one. -/
theorem Leads.trans {third : Furthest} (h : record.Leads other) (h' : other.Leads third) :
    record.Leads third where
  position_le := Nat.le_trans h.position_le h'.position_le
  holds heq m hm := by
    have hle := h.position_le
    have hle' := h'.position_le
    exact h'.holds (by omega) m (h.holds (by omega) m hm)

/-- A record to which a failure is added leads on from the one before. -/
theorem leads_add (record : Furthest) (m : Miss) : record.Leads (record.add m) where
  position_le := position_add ▸ Nat.le_max_left _ _
  holds heq _ hn := holds_add.mpr ⟨hn.position_eq.trans heq.symm, .inr hn⟩

/-- Whatever has been recorded since, the name of a rule that takes its place keeps what was held
before. -/
theorem Leads.collapse (h : before.Leads record) (p : Nat) (name : RuleName) :
    before.Leads (record.collapse p before name) := by
  have hle := h.position_le
  unfold Furthest.collapse
  dsimp only
  split
  · exact h
  · next hp =>
    split
    · next heq =>
      refine ⟨Nat.le_refl _, fun _ m hm => ?_⟩
      cases m with
      | token q kind => exact hm
      | rule q other => exact ⟨hm.1, RuleSet.contains_insert_iff.mpr (.inr hm.2)⟩
    · next hne =>
      -- the record is at `p` only since the region began, or moves there now
      refine ⟨Nat.le_trans hle (Nat.le_of_not_lt hp), fun heq => ?_⟩
      dsimp only at heq
      omega

/-- Failures as a parse reports them: one by one, and those of a rule that fails at its first token
under its name, in a region of their own. -/
inductive Reports
  /-- Nothing more is reported. -/
  | none
  /-- A failure is reported, and then more. -/
  | miss (m : Miss) (more : Reports)
  /-- A rule reports under its name at a position, after all that it has tried. -/
  | named (position : Nat) (name : RuleName) (tried more : Reports)

/-- The record after all of the reports. -/
def after (record : Furthest) : Reports → Furthest
  | .none => record
  | .miss m more => (record.add m).after more
  | .named position name tried more =>
    ((record.after tried).collapse position record name).after more

/-- Over reports, a record does not go back, and loses nothing where it stays. -/
theorem leads_after (record : Furthest) (reports : Reports) :
    record.Leads (record.after reports) := by
  induction reports generalizing record with
  | none => exact .refl record
  | miss m more ih => exact (leads_add record m).trans (ih _)
  | named position name tried more htried hmore =>
    exact ((htried record).collapse position name).trans (hmore _)

/-! ### The furthest failure -/

/-- The record of failures depends on which they are only: it is at the largest position, and has
just what was recorded there. Over a region in which rules report under their names, nested to any
depth, it does not go back, and where it stays, it keeps what it had. -/
theorem records_join :
    (∀ misses : List Miss,
      (∀ m ∈ misses, m.position ≤ (ofMisses misses).position) ∧
      (misses = [] ∧ ofMisses misses = {} ∨
        ∃ m ∈ misses, m.position = (ofMisses misses).position) ∧
      (∀ kind, (ofMisses misses).expected.contains kind = true ↔
        .token (ofMisses misses).position kind ∈ misses) ∧
      (∀ name, (ofMisses misses).rules.contains name = true ↔
        .rule (ofMisses misses).position name ∈ misses) ∧
      ∀ others : List Miss, (∀ m, m ∈ misses ↔ m ∈ others) → ofMisses others = ofMisses misses) ∧
    ∀ (record : Furthest) (reports : Reports),
      record.position ≤ (record.after reports).position ∧
      ((record.after reports).position = record.position →
        (∀ kind, record.expected.contains kind = true →
          (record.after reports).expected.contains kind = true) ∧
        ∀ name, record.rules.contains name = true →
          (record.after reports).rules.contains name = true) := by
  refine ⟨fun misses => ⟨fun m => position_le_ofMisses, ?_, fun kind => ?_, fun name => ?_,
    fun others h => (ofMisses_congr h).symm⟩, fun record reports => ?_⟩
  · by_cases hnil : misses = []
    · exact .inl ⟨hnil, by rw [hnil]; rfl⟩
    · exact .inr (exists_position_ofMisses hnil)
  · have hholds := @holds_ofMisses (.token (ofMisses misses).position kind) misses
    simpa [Holds, Miss.position] using hholds
  · have hholds := @holds_ofMisses (.rule (ofMisses misses).position name) misses
    simpa [Holds, Miss.position] using hholds
  · obtain ⟨hle, hholds⟩ := leads_after record reports
    refine ⟨hle, fun heq => ⟨fun kind hkind => ?_, fun name hname => ?_⟩⟩
    · exact (hholds heq (.token record.position kind) ⟨rfl, hkind⟩).2
    · exact (hholds heq (.rule record.position name) ⟨rfl, hname⟩).2

/-- Failures of which one comes twice, and a rule that tries a token where the furthest are. -/
theorem records_join_twice :
    let misses := [Miss.token 7 .rparen, .token 1 .comma, .rule 7 .statement, .token 7 .rparen]
    let others := [Miss.rule 7 .statement, .token 1 .comma, .token 7 .rparen]
    let tried := Reports.named 7 .expression (.miss (.token 7 .ident) .none) .none
    (∀ m, m ∈ misses ↔ m ∈ others) ∧ ofMisses others = ofMisses misses ∧
      ((ofMisses misses).after tried).position = (ofMisses misses).position ∧
      ((ofMisses misses).after tried).expected.contains .rparen = true ∧
      ((ofMisses misses).after tried).expected.contains .ident = false := by
  intro misses others tried
  have hsame : ∀ m, m ∈ misses ↔ m ∈ others := by
    intro m
    simp only [misses, others, List.mem_cons, List.not_mem_nil, or_false]
    tauto
  have hposition : ((ofMisses misses).after tried).position = (ofMisses misses).position := by
    decide
  exact ⟨hsame, (records_join.1 misses).2.2.2.2 others hsame, hposition,
    ((records_join.2 (ofMisses misses) tried).2 hposition).1 .rparen (by decide), by decide⟩

end Furthest

end SolidityParser
