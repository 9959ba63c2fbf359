import Mathlib.Tactic.SplitIfs
import SolidityParser.Proofs.Parser.Basic

/-!
# What a run consumes

A `Ledger` holds the brackets that are still to be closed and the passages left unread so far;
`Ledger.after?` enters one token. `Run` says how a parse gets from one ledger and position to
another: token by token, over an assembly body, or, where broken statements are skipped, over such
a statement or out of a block that is cut short.
-/

namespace SolidityParser

/-! ### Braces -/

/-- The number of open braces after one more token. -/
def Kind.bracesAfter (kind : Kind) (depth : Nat) : Nat :=
  match kind with
  | .lbrace => depth + 1
  | .rbrace => depth - 1
  | _ => depth

/-- Tokens that close no brace but those they open and `depth` more; at their end none is open, or
the input ends. -/
inductive Braced (lexemes : Lexemes) : Nat → Nat → Nat → Prop
  | stop {depth p : Nat} (h : depth = 0 ∨ lexemes.kindAt p = .eof) : Braced lexemes depth p p
  | step {depth p q : Nat} (h : lexemes.kindAt p ≠ .eof)
      (closes : lexemes.kindAt p = .rbrace → 0 < depth)
      (rest : Braced lexemes ((lexemes.kindAt p).bracesAfter depth) (p + 1) q) :
      Braced lexemes depth p q

namespace Braced

variable {lexemes : Lexemes} {depth p q : Nat}

/-- The end does not come before the start. -/
theorem le (h : Braced lexemes depth p q) : p ≤ q := by
  induction h with
  | stop => exact Nat.le_refl _
  | step _ _ _ ih => omega

end Braced

/-! ### Ledgers -/

/-- The brackets still to be closed, innermost first, and the passages left unread so far. -/
structure Ledger where
  /-- The brackets that close what is open. -/
  closers : List Kind := []
  /-- The passages. -/
  passages : List Extent := []

namespace Ledger

variable {a b c : Ledger}

/-- The ledger with one more bracket to be closed. -/
def owe (a : Ledger) (closer : Kind) : Ledger := { a with closers := closer :: a.closers }

/-- The ledger with the innermost bracket closed. -/
def paid (a : Ledger) : Ledger := { a with closers := a.closers.tail }

/-- The ledger with more passages left unread. -/
def note (a : Ledger) (passages : List Extent) : Ledger :=
  { a with passages := a.passages ++ passages }

/-- The ledger after a token of kind `kind`. There is none for a bracket that closes what is not
open, and for tokens that only an import or the end of the input has. -/
def after? (a : Ledger) (kind : Kind) : Option Ledger :=
  match kind.closer? with
  | some closer => some (a.owe closer)
  | none =>
    if kind.isClose then if a.closers.head? = some kind then some a.paid else none
    else if kind = .eof ∨ kind = .kwImport then none
    else some a

/-- The ledger after a round of a loop that has noted `ps` so far: the round either ends the loop,
with the ledger `c`, or notes the passages of what it gives. -/
def round {α : Type} (a c : Ledger) (passages : α → List Extent) (ps : List Extent) :
    Option α → Ledger
  | none => c.note ps
  | some v => a.note (ps ++ passages v)

@[simp] theorem note_nil (a : Ledger) : a.note [] = a := by
  rw [note, List.append_nil]

@[simp] theorem note_note (a : Ledger) (ps qs : List Extent) :
    (a.note ps).note qs = a.note (ps ++ qs) := by
  simp only [note, List.append_assoc]

@[simp] theorem closers_note (a : Ledger) (ps : List Extent) : (a.note ps).closers = a.closers :=
  rfl

@[simp] theorem closers_owe (a : Ledger) (k : Kind) : (a.owe k).closers = k :: a.closers := rfl

@[simp] theorem passages_note (a : Ledger) (ps : List Extent) :
    (a.note ps).passages = a.passages ++ ps := rfl

/-- A token has a ledger after it in one of three ways: it opens a bracket, it closes the innermost
one, or it is no bracket. -/
theorem after?_eq_some {k : Kind} (h : a.after? k = some b) :
    (∃ closer, k.closer? = some closer ∧ b = a.owe closer) ∨
      (k.isClose = true ∧ a.closers.head? = some k ∧ b = a.paid) ∨
      (k.closer? = none ∧ k.isClose = false ∧ k ≠ .eof ∧ k ≠ .kwImport ∧ b = a) := by
  unfold after? at h
  cases hc : k.closer? with
  | some closer =>
    rw [hc] at h
    exact .inl ⟨closer, rfl, by simpa using h.symm⟩
  | none =>
    rw [hc] at h
    dsimp only at h
    split_ifs at h with hclose hhead hk
    · exact .inr (.inl ⟨hclose, hhead, by simpa using h.symm⟩)
    · rw [not_or] at hk
      exact .inr (.inr ⟨rfl, by simpa using hclose, hk.1, hk.2, by simpa using h.symm⟩)

/-- No token that is entered is `eof`. -/
theorem ne_eof_of_after? {k : Kind} (h : a.after? k = some b) : k ≠ .eof := by
  rintro rfl
  cases h

end Ledger

/-! ### Runs -/

/-- How a parse of `lexemes` gets from a ledger and a position to others. `tolerant` tells whether
broken statements may be skipped. -/
inductive Run (lexemes : Lexemes) (tolerant : Bool) : Ledger → Nat → Ledger → Nat → Prop
  /-- Nothing is consumed. -/
  | refl (a : Ledger) (p : Nat) : Run lexemes tolerant a p a p
  /-- One token is read. -/
  | take {a b : Ledger} {p : Nat} (h : a.after? (lexemes.kindAt p) = some b) :
      Run lexemes tolerant a p b (p + 1)
  /-- One run follows another. -/
  | trans {a b c : Ledger} {p q r : Nat} (first : Run lexemes tolerant a p b q)
      (second : Run lexemes tolerant b q c r) : Run lexemes tolerant a p c r
  /-- An assembly body is left unread. -/
  | unread {a : Ledger} {p q : Nat} (h : lexemes.kindAt p = .lbrace)
      (body : Braced lexemes 1 (p + 1) q) : Run lexemes tolerant a p (a.note [⟨p, q⟩]) q
  /-- A block ends before the start of a member, without its closing brace. -/
  | cut {a : Ledger} {p : Nat} (h : tolerant = true)
      (member : Grammar.atMember lexemes p = true) : Run lexemes tolerant (a.owe .rbrace) p a p
  /-- A broken statement is skipped. -/
  | skip {a : Ledger} {p q : Nat} (h : tolerant = true) (skipped : Braced lexemes 0 p q) :
      Run lexemes tolerant a p a q

namespace Run

variable {lexemes : Lexemes} {tolerant : Bool} {a b : Ledger} {p q : Nat}

/-- A run does not go back. -/
theorem le (h : Run lexemes tolerant a p b q) : p ≤ q := by
  induction h with
  | refl | cut => exact Nat.le_refl _
  | take => exact Nat.le_succ _
  | trans _ _ ih ih' => exact Nat.le_trans ih ih'
  | unread _ body => exact Nat.le_of_succ_le body.le
  | skip _ skipped => exact skipped.le

end Run

end SolidityParser
