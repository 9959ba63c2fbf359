import SolidityParser.Proofs.Parser.Basic

/-!
# Records of failures

A trail holds every failure reported and a record of the furthest. `Trail.Exact` says that the
record is right: it is that of the furthest failure reported, and not empty if there is one. Each
way to report a failure keeps it so (`Trail.Reports`), and none takes the record back.
-/

namespace SolidityParser

/-! ### Sets that are not empty -/

/-- A set with a kind added is not empty. -/
theorem TokenSet.isEmpty_insert (set : TokenSet) (kind : Kind) :
    (set.insert kind).isEmpty = false := by
  have hindex : kind.index < Kind.count := by cases kind <;> decide
  have hmem : (set.insert kind).bits.getLsbD kind.index = true := by
    show (set.bits ||| BitVec.twoPow Kind.count kind.index).getLsbD kind.index = true
    simp [hindex]
  refine beq_false_of_ne fun hzero => ?_
  rw [hzero] at hmem
  simp at hmem

/-- A set with a rule added is not empty. -/
theorem RuleSet.isEmpty_insert (set : RuleSet) (rule : RuleName) :
    (set.insert rule).isEmpty = false := by
  have hindex : rule.index < 6 := by cases rule <;> decide
  have hmem : (set.insert rule).bits.getLsbD rule.index = true := by
    show (set.bits ||| BitVec.twoPow 6 rule.index).getLsbD rule.index = true
    simp [hindex]
  refine beq_false_of_ne fun hzero => ?_
  rw [hzero] at hmem
  simp at hmem

/-! ### Reports -/

namespace Trail

variable {i j n : Nat} {trail trail' : Trail}

/-- The second trail is the first with a failure at `i` reported: the record is then at `i`, unless
it was further on before. -/
structure Reports (i : Nat) (trail trail' : Trail) : Prop where
  /-- The failure is reported. -/
  reported : trail'.reported = i :: trail.reported
  /-- The record moves on to it. -/
  position : trail'.furthest.position = max trail.furthest.position i
  /-- The record is not empty, unless it was further on and empty before. -/
  nonempty : (i < trail.furthest.position → trail.furthest.isEmpty = false) →
    trail'.furthest.isEmpty = false

/-- A token that is missed is reported where it was missed. -/
theorem reports_addToken (trail : Trail) (i : Nat) (kind : Kind) :
    Reports i trail (trail.addToken i kind) := by
  unfold addToken Furthest.addToken Furthest.reach
  by_cases hlt : trail.furthest.position < i
  · refine ⟨rfl, ?_, fun _ => ?_⟩
    · simp only [if_pos hlt]
      exact (Nat.max_eq_right (Nat.le_of_lt hlt)).symm
    · simp [if_pos hlt, Furthest.isEmpty, TokenSet.isEmpty_insert]
  · by_cases heq : trail.furthest.position = i
    · refine ⟨rfl, by simp [heq], fun _ => ?_⟩
      simp [heq, Furthest.isEmpty, TokenSet.isEmpty_insert]
    · refine ⟨rfl, ?_, fun h => ?_⟩
      · simp only [if_neg hlt, if_neg heq]
        omega
      · simpa only [if_neg hlt, if_neg heq] using h (by omega)

/-- So is a rule. -/
theorem reports_addRule (trail : Trail) (i : Nat) (rule : RuleName) :
    Reports i trail (trail.addRule i rule) := by
  unfold addRule Furthest.addRule Furthest.reach
  by_cases hlt : trail.furthest.position < i
  · refine ⟨rfl, ?_, fun _ => ?_⟩
    · simp only [if_pos hlt]
      exact (Nat.max_eq_right (Nat.le_of_lt hlt)).symm
    · simp [if_pos hlt, Furthest.isEmpty, RuleSet.isEmpty_insert]
  · by_cases heq : trail.furthest.position = i
    · refine ⟨rfl, by simp [heq], fun _ => ?_⟩
      simp [heq, Furthest.isEmpty, RuleSet.isEmpty_insert]
    · refine ⟨rfl, ?_, fun h => ?_⟩
      · simp only [if_neg hlt, if_neg heq]
        omega
      · simpa only [if_neg hlt, if_neg heq] using h (by omega)

/-- Whatever is taken off the record when a rule is named, the record does not go back. -/
theorem reports_collapse (trail before : Trail) (i : Nat) (rule : RuleName) :
    Reports i trail (trail.collapse i before rule) := by
  unfold collapse Furthest.collapse
  by_cases hlt : i < trail.furthest.position
  · refine ⟨rfl, ?_, fun h => ?_⟩
    · simp only [if_pos hlt]
      omega
    · simpa only [if_pos hlt] using h hlt
  · refine ⟨rfl, ?_, fun _ => ?_⟩
    · simp only [if_neg hlt]
      split
      · next h => rw [h.2]; omega
      · show i = max trail.furthest.position i
        omega
    · simp [if_neg hlt, Furthest.isEmpty, RuleSet.isEmpty_insert]

/-! ### Records that are right -/

/-- The record is that of the furthest failure reported. -/
structure Exact (trail : Trail) : Prop where
  /-- Before any is reported, it is at the start. -/
  start : trail.reported = [] → trail.furthest.position = 0
  /-- It is at a failure that was reported. -/
  mem : trail.reported ≠ [] → trail.furthest.position ∈ trail.reported
  /-- None that was reported is further on. -/
  le : ∀ n ∈ trail.reported, n ≤ trail.furthest.position
  /-- It is not empty if there is a failure. -/
  nonempty : trail.reported ≠ [] → trail.furthest.isEmpty = false

/-- A failure at `i` or further on is on record. -/
structure Covers (trail : Trail) (i : Nat) : Prop where
  /-- There is a failure on record. -/
  reported : trail.reported ≠ []
  /-- It is that far on. -/
  le : i ≤ trail.furthest.position

/-- The second trail has been made of the first by reporting failures. -/
structure Grows (trail trail' : Trail) : Prop where
  /-- No report is taken back. -/
  suffix : trail.reported <:+ trail'.reported
  /-- The record does not go back. -/
  le : trail.furthest.position ≤ trail'.furthest.position
  /-- The record stays right. -/
  exact : trail.Exact → trail'.Exact

/-- The second trail is the first with failures at `i` reported. -/
structure GrowsAt (i : Nat) (trail trail' : Trail) : Prop extends Grows trail trail' where
  /-- All that is new is at `i`. -/
  here : ∀ n ∈ trail'.reported, n ∈ trail.reported ∨ n = i

/-- Nothing has been reported yet. -/
theorem exact_empty : Exact {} := ⟨fun _ => rfl, fun h => absurd rfl h, nofun, fun h => absurd rfl h⟩

namespace Reports

/-- A report leaves a record right. -/
theorem exact (h : Reports i trail trail') (hexact : trail.Exact) : trail'.Exact where
  start hnil := by rw [h.reported] at hnil; cases hnil
  mem _ := by
    rw [h.reported, h.position, List.mem_cons]
    by_cases hnil : trail.reported = []
    · exact .inl (by rw [hexact.start hnil, Nat.zero_max])
    · rcases Nat.le_total trail.furthest.position i with hle | hle
      · exact .inl (Nat.max_eq_right hle)
      · exact .inr (by rw [Nat.max_eq_left hle]; exact hexact.mem hnil)
  le n hn := by
    rw [h.reported, List.mem_cons] at hn
    rw [h.position]
    rcases hn with rfl | hn
    · omega
    · have := hexact.le n hn
      omega
  nonempty _ := h.nonempty fun hlt => hexact.nonempty fun hnil => by
    rw [hexact.start hnil] at hlt
    cases hlt

/-- It covers the place of the report. -/
theorem covers (h : Reports i trail trail') : trail'.Covers i where
  reported hnil := by rw [h.reported] at hnil; cases hnil
  le := by rw [h.position]; omega

/-- The record grows by it. -/
theorem grows (h : Reports i trail trail') : GrowsAt i trail trail' where
  suffix := by rw [h.reported]; exact List.suffix_cons _ _
  le := by rw [h.position]; omega
  exact := h.exact
  here n hn := by
    rw [h.reported, List.mem_cons] at hn
    exact hn.symm

end Reports

namespace Grows

/-- A record may stay as it is. -/
theorem refl (trail : Trail) : trail.Grows trail := ⟨List.suffix_rfl, Nat.le_refl _, id⟩

/-- It may grow twice. -/
theorem trans {trail'' : Trail} (h : trail.Grows trail') (h' : trail'.Grows trail'') :
    trail.Grows trail'' :=
  ⟨h.suffix.trans h'.suffix, Nat.le_trans h.le h'.le, fun hexact => h'.exact (h.exact hexact)⟩

/-- What is on record stays on record. -/
theorem covers (h : trail.Grows trail') (hcovers : trail.Covers i) : trail'.Covers i where
  reported hnil := hcovers.reported (List.suffix_nil.mp (hnil ▸ h.suffix))
  le := Nat.le_trans hcovers.le h.le

end Grows

/-- Tokens of several kinds are reported one by one. -/
theorem grows_foldl (kinds : List Kind) (trail : Trail) :
    GrowsAt i trail (kinds.foldl (fun trail k => trail.addToken i k) trail) := by
  induction kinds generalizing trail with
  | nil => exact ⟨.refl trail, fun _ => .inl⟩
  | cons k kinds ih =>
    have hfirst := (reports_addToken trail i k).grows
    refine ⟨hfirst.trans (ih _).toGrows, fun n hn => ?_⟩
    rcases (ih _).here n hn with hn | hn
    · exact hfirst.here n hn
    · exact .inr hn

/-- Tokens of at least one kind are reported. -/
theorem covers_foldl (k : Kind) (kinds : List Kind) (trail : Trail) :
    ((k :: kinds).foldl (fun trail k => trail.addToken i k) trail).Covers i :=
  (grows_foldl kinds _).toGrows.covers (reports_addToken trail i k).covers

/-- What is covered at one place is covered at those before it. -/
theorem Covers.mono (h : trail.Covers j) (hle : i ≤ j) : trail.Covers i :=
  ⟨h.reported, Nat.le_trans hle h.le⟩

end Trail

end SolidityParser
