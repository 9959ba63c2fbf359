import SolidityParser.Proofs.Grammar.Ending

/-!
# How a scan for imports goes through tokens

A `ScanState` holds the brackets that are open and tells whether a unit begins; `ScanState.after?`
enters one token as `Grammar.skipUnitToken` does. `Run.afterAll?` says that a strict run, and so any
declaration, takes the scan from a ledger to a ledger, if the passages that the run left unread are
`tidy`: of all tokens these are the only ones that no rule has matched.
-/

namespace SolidityParser

/-! ### States of the scan -/

/-- Where a scan for imports stands between two tokens. -/
structure ScanState where
  /-- The brackets still to be closed, innermost first. -/
  closers : List Kind := []
  /-- Does a unit begin here? -/
  atUnit : Bool := false
deriving DecidableEq

namespace ScanState

variable {state state' : ScanState} {k : Kind} {ks ks' : List Kind}

/-- The state after a token. There is none for a bracket that closes what is not open, for an
`import` that begins a unit, and at the end of the input. -/
def after? (state : ScanState) (kind : Kind) : Option ScanState :=
  match kind.closer? with
  | some closer => some ⟨closer :: state.closers, false⟩
  | none =>
    if kind.isClose then
      if state.closers.head? = some kind then
        some ⟨state.closers.tail, state.closers.tail.isEmpty && kind == .rbrace⟩
      else none
    else if kind = .eof ∨ (kind = .kwImport ∧ state.atUnit = true) then none
    else some ⟨state.closers, state.closers.isEmpty && kind == .semicolon⟩

/-- The state after tokens in a row. -/
def afterAll? (state : ScanState) : List Kind → Option ScanState
  | [] => some state
  | kind :: kinds => (state.after? kind).bind (afterAll? · kinds)

/-- Are the brackets among these tokens nested properly, and does no `import` follow directly a
semicolon outside of brackets, or a brace that closes an outermost group? -/
def tidy (kinds : List Kind) : Bool := (afterAll? {} kinds).any (·.closers.isEmpty)

/-- Tokens are passed one by one. -/
theorem afterAll?_cons (h : state.after? k = some state') :
    state.afterAll? (k :: ks) = state'.afterAll? ks := by
  rw [afterAll?, h]
  rfl

/-- Tokens in two rows are passed one row after the other. -/
theorem afterAll?_append (state : ScanState) (ks ks' : List Kind) :
    state.afterAll? (ks ++ ks') = (state.afterAll? ks).bind (afterAll? · ks') := by
  induction ks generalizing state with
  | nil => rfl
  | cons k ks ih =>
    rw [List.cons_append, afterAll?, afterAll?]
    cases state.after? k with
    | none => rfl
    | some next => exact ih next

/-- A unit begins only outside of brackets. -/
theorem closers_of_after? (h : state.after? k = some state') (hunit : state'.atUnit = true) :
    state'.closers = [] := by
  unfold after? at h
  split at h
  · cases h
    cases hunit
  · split_ifs at h <;> cases h <;> simp_all

/-- The token that ends a unit does so outside of brackets. -/
theorem atUnit_of_after? (h : state.after? k = some state') (hclosers : state'.closers = [])
    (hk : k.endsUnit = true) : state'.atUnit = true := by
  unfold Kind.endsUnit at hk
  split at hk
  · unfold after? at h
    cases h
    simp_all
  · unfold after? at h
    simp only [Kind.closer?, Kind.isClose, if_true] at h
    split at h <;> cases h
    simp_all
  · cases hk

/-- What is to be closed is closed by brackets, so not by the end of the input. -/
theorem eof_not_mem_of_after? (h : state.after? k = some state') (heof : .eof ∉ state.closers) :
    .eof ∉ state'.closers := by
  unfold after? at h
  cases hcloser : k.closer? with
  | some closer =>
    rw [hcloser] at h
    cases h
    have hne : Kind.eof ≠ closer := by
      rintro rfl
      unfold Kind.closer? at hcloser
      split at hcloser <;> cases hcloser
    simpa [hne] using heof
  | none =>
    rw [hcloser] at h
    dsimp only at h
    split_ifs at h
    · cases h
      exact fun hmem => heof (List.mem_of_mem_tail hmem)
    · cases h
      exact heof

/-! ### Within other brackets -/

/-- What is entered with some brackets open can be entered with more of them open. -/
theorem after?_nested (h : state.after? k = some state') (outer : List Kind) {atUnit : Bool}
    (hunit : atUnit = true → state.atUnit = true) :
    ∃ atUnit', (ScanState.mk (state.closers ++ outer) atUnit).after? k =
        some ⟨state'.closers ++ outer, atUnit'⟩ ∧
      (atUnit' = true → state'.atUnit = true) := by
  unfold after? at h ⊢
  cases hcloser : k.closer? with
  | some closer =>
    rw [hcloser] at h
    cases h
    exact ⟨false, rfl, id⟩
  | none =>
    rw [hcloser] at h
    dsimp only at h ⊢
    split_ifs at h with hclose hhead hk
    · obtain ⟨rest, hrest⟩ := List.head?_eq_some_iff.mp hhead
      cases h
      refine ⟨((rest ++ outer).isEmpty && k == .rbrace), ?_, ?_⟩
      · simp [hclose, hrest]
      · simp only [hrest, List.tail_cons, Bool.and_eq_true, List.isEmpty_iff,
          List.append_eq_nil_iff]
        exact fun ⟨⟨hrest', _⟩, hk⟩ => ⟨hrest', hk⟩
    · cases h
      have hk' : ¬ (k = .eof ∨ (k = .kwImport ∧ atUnit = true)) :=
        fun h => hk (h.imp_right fun ⟨himport, hat⟩ => ⟨himport, hunit hat⟩)
      refine ⟨((state.closers ++ outer).isEmpty && k == .semicolon), ?_, ?_⟩
      · rw [if_neg hclose, if_neg hk']
      · simp only [Bool.and_eq_true, List.isEmpty_iff, List.append_eq_nil_iff]
        exact fun ⟨⟨hnone, _⟩, hk⟩ => ⟨hnone, hk⟩

/-- What can be passed with some brackets open can be passed with more open around them. -/
theorem afterAll?_nested (h : state.afterAll? ks = some state') (outer : List Kind)
    {atUnit : Bool} (hunit : atUnit = true → state.atUnit = true) :
    ∃ atUnit', (ScanState.mk (state.closers ++ outer) atUnit).afterAll? ks =
        some ⟨state'.closers ++ outer, atUnit'⟩ ∧
      (atUnit' = true → state'.atUnit = true) := by
  induction ks generalizing state atUnit with
  | nil =>
    cases h
    exact ⟨atUnit, rfl, hunit⟩
  | cons k ks ih =>
    cases hnext : state.after? k with
    | none =>
      rw [afterAll?, hnext] at h
      cases h
    | some next =>
      rw [afterAll?_cons hnext] at h
      obtain ⟨atUnit', hafter, hunit'⟩ := after?_nested hnext outer hunit
      obtain ⟨atUnit'', hall, hunit''⟩ := ih h hunit'
      exact ⟨atUnit'', by rw [afterAll?_cons hafter, hall], hunit''⟩

/-- Only for an `import` does it matter whether a unit begins. -/
theorem after?_of_ne_import (hk : k ≠ .kwImport) (closers : List Kind) (atUnit atUnit' : Bool) :
    (ScanState.mk closers atUnit).after? k = (ScanState.mk closers atUnit').after? k := by
  simp [after?, hk]

/-- Tidy tokens leave no bracket open. -/
theorem tidy_iff : tidy ks = true ↔ ∃ atUnit, afterAll? {} ks = some ⟨[], atUnit⟩ := by
  unfold tidy
  constructor
  · intro h
    cases hall : afterAll? {} ks with
    | none =>
      rw [hall] at h
      cases h
    | some last =>
      have hclosers : last.closers = [] := by simpa [hall] using h
      exact ⟨last.atUnit, by rw [← hclosers]⟩
  · rintro ⟨atUnit, hall⟩
    rw [hall]
    rfl

/-- Tidy tokens leave the open brackets as they are. -/
theorem afterAll?_of_tidy (h : tidy ks = true) (hhead : ks.head? ≠ some .kwImport)
    (state : ScanState) :
    ∃ atUnit, state.afterAll? ks = some ⟨state.closers, atUnit⟩ := by
  obtain ⟨_, hall⟩ := tidy_iff.mp h
  obtain ⟨atUnit, hnested, -⟩ :=
    afterAll?_nested hall state.closers (show false = true → _ from nofun)
  cases ks with
  | nil => exact ⟨state.atUnit, rfl⟩
  | cons k ks =>
    have hk : k ≠ .kwImport := by
      rintro rfl
      exact hhead rfl
    refine ⟨atUnit, ?_⟩
    rw [afterAll?, after?_of_ne_import hk state.closers state.atUnit false]
    exact hnested

/-- After tokens of which the last one ends a unit, a unit begins if no bracket is open. -/
theorem atUnit_of_afterAll? (h : state.afterAll? (ks ++ [k]) = some state')
    (hclosers : state'.closers = []) (hk : k.endsUnit = true) : state'.atUnit = true := by
  rw [afterAll?_append] at h
  obtain ⟨next, -, hlast⟩ := Option.bind_eq_some_iff.mp h
  cases hafter : next.after? k with
  | none =>
    rw [afterAll?, hafter] at hlast
    cases hlast
  | some last =>
    rw [afterAll?_cons hafter] at hlast
    cases hlast
    exact atUnit_of_after? hafter hclosers hk

end ScanState

/-! ### Runs -/

namespace Lexemes

variable {lexemes : Lexemes} {p q r : Nat}

/-- The kinds of the tokens of an extent. -/
def kinds (lexemes : Lexemes) (extent : Extent) : List Kind :=
  (List.range' extent.first (extent.next - extent.first)).map lexemes.kindAt

@[simp] theorem kinds_self (lexemes : Lexemes) (p : Nat) : lexemes.kinds ⟨p, p⟩ = [] := by
  simp [kinds]

/-- The kinds of a stretch are that of its first token and those of the rest. -/
theorem kinds_cons (h : p < q) :
    lexemes.kinds ⟨p, q⟩ = lexemes.kindAt p :: lexemes.kinds ⟨p + 1, q⟩ := by
  obtain ⟨n, rfl⟩ := Nat.exists_eq_add_of_lt h
  have hlong : p + n + 1 - p = n + 1 := by omega
  have hshort : p + n + 1 - (p + 1) = n := by omega
  simp [kinds, hlong, hshort, List.range'_succ]

/-- They are also those of the rest and that of its last token. -/
theorem kinds_concat (h : p < q) :
    lexemes.kinds ⟨p, q⟩ = lexemes.kinds ⟨p, q - 1⟩ ++ [lexemes.kindAt (q - 1)] := by
  obtain ⟨n, rfl⟩ := Nat.exists_eq_add_of_lt h
  have hlong : p + n + 1 - p = n + 1 := by omega
  simp [kinds, hlong, List.range'_concat]

/-- Stretches in a row have their kinds in a row. -/
theorem kinds_append (hp : p ≤ q) (hq : q ≤ r) :
    lexemes.kinds ⟨p, q⟩ ++ lexemes.kinds ⟨q, r⟩ = lexemes.kinds ⟨p, r⟩ := by
  obtain ⟨m, rfl⟩ := Nat.exists_eq_add_of_le hp
  obtain ⟨n, rfl⟩ := Nat.exists_eq_add_of_le hq
  have hlong : p + m + n - p = m + n := by omega
  simp only [kinds, Nat.add_sub_cancel_left, hlong]
  rw [← List.map_append, List.range'_append_1]

end Lexemes

namespace Run

variable {lexemes : Lexemes} {tolerant : Bool} {a b : Ledger} {p q : Nat}

/-- A run only adds passages. -/
theorem passages_subset (h : Run lexemes tolerant a p b q) : a.passages ⊆ b.passages := by
  induction h with
  | refl | cut | skip => exact List.Subset.refl _
  | take h =>
    rcases Ledger.after?_eq_some h with ⟨_, _, rfl⟩ | ⟨_, _, rfl⟩ | ⟨_, _, _, _, rfl⟩ <;>
      exact List.Subset.refl _
  | trans _ _ ih ih' => exact List.Subset.trans ih ih'
  | unread => exact List.subset_append_left _ _

/-- A token that is entered in a ledger is one that a scan goes on after, with the same brackets
open. -/
theorem after?_of_ledger {state : ScanState} {k : Kind} (h : a.after? k = some b)
    (hstate : state.closers = a.closers) :
    ∃ atUnit, state.after? k = some ⟨b.closers, atUnit⟩ := by
  unfold ScanState.after?
  rcases Ledger.after?_eq_some h with ⟨closer, hcloser, rfl⟩ | ⟨hclose, hhead, rfl⟩ |
      ⟨hcloser, hclose, heof, himport, rfl⟩
  · exact ⟨false, by simp [hcloser, hstate]⟩
  · have hcloser : k.closer? = none := by
      unfold Kind.isClose at hclose
      split at hclose <;> first | rfl | cases hclose
    exact ⟨_, by simp [hcloser, hclose, hhead, hstate, Ledger.paid]; rfl⟩
  · exact ⟨_, by simp [hcloser, hclose, heof, himport, hstate]; rfl⟩

/-- A strict run takes a scan from one ledger to the other, if the passages it leaves unread are
tidy. -/
theorem afterAll? (h : Run lexemes false a p b q)
    (htidy : ∀ passage ∈ b.passages, ScanState.tidy (lexemes.kinds passage) = true)
    (state : ScanState) (hstate : state.closers = a.closers) :
    ∃ atUnit, state.afterAll? (lexemes.kinds ⟨p, q⟩) = some ⟨b.closers, atUnit⟩ := by
  induction h generalizing state with
  | refl a p => exact ⟨state.atUnit, by rw [Lexemes.kinds_self, ← hstate]; rfl⟩
  | take h =>
    obtain ⟨atUnit, hafter⟩ := after?_of_ledger h hstate
    refine ⟨atUnit, ?_⟩
    rw [Lexemes.kinds_cons (Nat.lt_succ_self _), ScanState.afterAll?_cons hafter,
      Lexemes.kinds_self]
    rfl
  | trans first second ih ih' =>
    obtain ⟨_, hfirst⟩ := ih (fun e he => htidy e (second.passages_subset he)) state hstate
    obtain ⟨atUnit, hsecond⟩ := ih' htidy ⟨_, _⟩ rfl
    refine ⟨atUnit, ?_⟩
    rw [← Lexemes.kinds_append first.le second.le, ScanState.afterAll?_append, hfirst]
    exact hsecond
  | @unread a p q h body =>
    have hpassage := htidy ⟨p, q⟩ (by simp [Ledger.note])
    have hlt : p < q := body.le
    obtain ⟨atUnit, hall⟩ := ScanState.afterAll?_of_tidy hpassage
      (by simp [Lexemes.kinds_cons hlt, h]) state
    exact ⟨atUnit, by rw [hall, hstate]; rfl⟩
  | cut h => cases h
  | skip h => cases h

end Run

end SolidityParser
