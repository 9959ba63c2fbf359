import SolidityParser.Proofs.Parser.Ledger

/-!
# Braces that a run opens and closes

`Lexemes.count` counts tokens of a kind before an index, so the braces opened and closed between
two places are differences of counts. Where no member begins and the input does not end, a run opens
and closes the braces that its ledgers say (`Run.closes_add_opens`), and on its way it never closes
more than were owed and opened (`Run.closes_le`). Of all steps of a run only `cut` leaves a brace
unpaid, and that needs the start of a member.
-/

namespace SolidityParser

/-! ### Counting tokens -/

namespace Lexemes

variable {lexemes : Lexemes} {k : Kind} {i : Nat}

/-- The number of tokens of a kind before an index. -/
def count (lexemes : Lexemes) (k : Kind) (i : Nat) : Nat :=
  (lexemes.toList.take i).countP (·.kind == k)

/-- Braces opened before an index. -/
abbrev opens (lexemes : Lexemes) (i : Nat) : Nat := lexemes.count .lbrace i

/-- Braces closed before an index. -/
abbrev closes (lexemes : Lexemes) (i : Nat) : Nat := lexemes.count .rbrace i

/-- One more token counts if it is of the kind. -/
theorem count_succ (hk : k ≠ .eof) (i : Nat) :
    lexemes.count k (i + 1) = lexemes.count k i + if lexemes.kindAt i = k then 1 else 0 := by
  unfold count kindAt
  by_cases hi : i < lexemes.size
  · have hlist : i < lexemes.toList.length := by simpa using hi
    rw [List.take_succ_eq_append_getElem hlist, List.countP_append, dif_pos hi]
    simp [List.countP_cons]
  · have hlen : lexemes.toList.length ≤ i := by simpa using hi
    rw [List.take_of_length_le hlen, List.take_of_length_le (Nat.le_succ_of_le hlen), dif_neg hi,
      if_neg (Ne.symm hk), Nat.add_zero]

@[simp] theorem opens_succ (i : Nat) :
    lexemes.opens (i + 1) = lexemes.opens i + if lexemes.kindAt i = .lbrace then 1 else 0 :=
  count_succ (by decide) i

@[simp] theorem closes_succ (i : Nat) :
    lexemes.closes (i + 1) = lexemes.closes i + if lexemes.kindAt i = .rbrace then 1 else 0 :=
  count_succ (by decide) i

/-- Between two indices the input does not end and no member begins. -/
def Quiet (lexemes : Lexemes) (p q : Nat) : Prop :=
  ∀ i, p ≤ i → i < q → lexemes.kindAt i ≠ .eof ∧ Grammar.atMember lexemes i = false

/-- No member begins in a part of where none does. -/
theorem Quiet.mono {p q p' q' : Nat} (h : lexemes.Quiet p q) (hp : p ≤ p') (hq : q' ≤ q) :
    lexemes.Quiet p' q' :=
  fun i hi hi' => h i (Nat.le_trans hp hi) (Nat.lt_of_lt_of_le hi' hq)

end Lexemes

/-! ### Braces that are matched -/

namespace Braced

variable {lexemes : Lexemes} {depth p q m : Nat}

/-- One token changes the counts as it does the number of open braces. -/
private theorem step_balance (hcloses : lexemes.kindAt p = .rbrace → 0 < depth) :
    lexemes.closes (p + 1) + lexemes.opens p + (lexemes.kindAt p).bracesAfter depth =
      depth + lexemes.opens (p + 1) + lexemes.closes p := by
  rw [Lexemes.opens_succ, Lexemes.closes_succ]
  generalize lexemes.kindAt p = k at hcloses
  by_cases hl : k = .lbrace
  · subst hl
    simp [Kind.bracesAfter]
    omega
  · by_cases hr : k = .rbrace
    · subst hr
      have hpos := hcloses rfl
      simp [Kind.bracesAfter]
      omega
    · have hafter : k.bracesAfter depth = depth := by
        unfold Kind.bracesAfter
        split <;> simp_all
      simp [hl, hr, hafter]
      omega

/-- No more braces are closed than are opened, but for those that were open before. -/
theorem closes_le (h : Braced lexemes depth p q) (hp : p ≤ m) (hq : m ≤ q) :
    lexemes.closes m + lexemes.opens p ≤ depth + lexemes.opens m + lexemes.closes p := by
  induction h with
  | stop =>
    obtain rfl := Nat.le_antisymm hp hq
    omega
  | step _ hcloses _ ih =>
    rcases Nat.eq_or_lt_of_le hp with rfl | hlt
    · omega
    · have hstep := step_balance hcloses
      have hrest := ih hlt hq
      omega

/-- Where the input does not end, all braces are closed, those that were open before as well. -/
theorem closes_add_opens (h : Braced lexemes depth p q) (hq : lexemes.kindAt q ≠ .eof) :
    lexemes.closes q + lexemes.opens p = depth + lexemes.opens q + lexemes.closes p := by
  induction h with
  | stop h =>
    rcases h with rfl | h
    · omega
    · exact absurd h hq
  | step _ hcloses _ ih =>
    have hstep := step_balance hcloses
    have hrest := ih hq
    omega

end Braced

/-! ### Runs -/

namespace Ledger

variable {a b : Ledger}

/-- The number of braces still to be closed. -/
def level (a : Ledger) : Nat := a.closers.count .rbrace

@[simp] theorem level_note (a : Ledger) (ps : List Extent) : (a.note ps).level = a.level := rfl

@[simp] theorem level_owe_rbrace (a : Ledger) : (a.owe .rbrace).level = a.level + 1 := by
  simp [level]

/-- One token changes the braces to be closed as it does the counts. -/
theorem level_after {lexemes : Lexemes} {p : Nat} (h : a.after? (lexemes.kindAt p) = some b) :
    lexemes.closes (p + 1) + lexemes.opens p + b.level =
      a.level + lexemes.opens (p + 1) + lexemes.closes p := by
  rw [Lexemes.opens_succ, Lexemes.closes_succ]
  generalize lexemes.kindAt p = k at h
  rcases after?_eq_some h with ⟨closer, hcloser, rfl⟩ | ⟨hclose, hhead, rfl⟩ |
      ⟨hcloser, hclose, -, -, rfl⟩
  · unfold Kind.closer? at hcloser
    split at hcloser <;> cases hcloser <;> simp [level, owe] <;> omega
  · obtain ⟨rest, hrest⟩ := List.head?_eq_some_iff.mp hhead
    unfold Kind.isClose at hclose
    split at hclose <;> simp_all [level, paid] <;> omega
  · have hl : k ≠ .lbrace := by rintro rfl; cases hcloser
    have hr : k ≠ .rbrace := by rintro rfl; cases hclose
    simp [hl, hr]
    omega

end Ledger

namespace Run

variable {lexemes : Lexemes} {tolerant : Bool} {a b : Ledger} {p q m : Nat}

/-- Where no member begins and the input does not end, the braces opened and closed are those that
the ledgers say. -/
theorem closes_add_opens (h : Run lexemes tolerant a p b q) (hquiet : lexemes.Quiet p (q + 1)) :
    lexemes.closes q + lexemes.opens p + b.level =
      a.level + lexemes.opens q + lexemes.closes p := by
  induction h with
  | refl => omega
  | take h => exact Ledger.level_after h
  | trans first second ih ih' =>
    have hle := first.le
    have hle' := second.le
    have hfirst := ih (hquiet.mono (Nat.le_refl _) (by omega))
    have hsecond := ih' (hquiet.mono hle (Nat.le_refl _))
    omega
  | @unread a p q h body =>
    have hne := (hquiet q (by have := body.le; omega) (Nat.lt_succ_self q)).1
    have hbody := body.closes_add_opens hne
    rw [Lexemes.opens_succ, Lexemes.closes_succ, h] at hbody
    simp at hbody ⊢
    omega
  | @cut a p _ member =>
    have hno := (hquiet p (Nat.le_refl _) (Nat.lt_succ_self p)).2
    rw [member] at hno
    cases hno
  | @skip a p q _ skipped =>
    have hne := (hquiet q skipped.le (Nat.lt_succ_self q)).1
    have hskipped := skipped.closes_add_opens hne
    omega

/-- On its way, a run closes no more braces than were to be closed and it opened. -/
theorem closes_le (h : Run lexemes tolerant a p b q) (hp : p ≤ m) (hq : m ≤ q)
    (hquiet : lexemes.Quiet p m) :
    lexemes.closes m + lexemes.opens p ≤ a.level + lexemes.opens m + lexemes.closes p := by
  induction h with
  | refl | cut =>
    obtain rfl := Nat.le_antisymm hp hq
    omega
  | @take a b p h =>
    rcases Nat.eq_or_lt_of_le hp with rfl | hlt
    · omega
    · obtain rfl : p + 1 = m := by omega
      have := Ledger.level_after h
      omega
  | @trans a b c p q r first second ih ih' =>
    rcases Nat.lt_or_ge q m with hlt | hge
    · have hfirst := first.closes_add_opens (hquiet.mono (Nat.le_refl _) hlt)
      have hsecond := ih' (Nat.le_of_lt hlt) hq (hquiet.mono first.le (Nat.le_refl _))
      omega
    · exact ih hp hge hquiet
  | @unread a p q h body =>
    rcases Nat.eq_or_lt_of_le hp with rfl | hlt
    · omega
    · have hbody := body.closes_le hlt hq
      rw [Lexemes.opens_succ, Lexemes.closes_succ, h] at hbody
      simp at hbody
      omega
  | skip _ skipped =>
    have hskipped := skipped.closes_le hp hq
    omega

end Run

end SolidityParser
