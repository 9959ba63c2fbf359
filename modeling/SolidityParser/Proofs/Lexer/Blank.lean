import SolidityParser.Proofs.Lexer.Words

/-!
# Blanks end every match

Only the pattern for blanks matches blank characters (`Pattern.free_isBlank`). So a text that begins
with blanks begins with a piece of all of them (`front_of_isBlank`), and any other match is the same
whatever follows the next blank (`longest?_append_blank`).
-/

namespace SolidityParser

namespace Pattern

variable {pattern : Pattern} {text : List Char}

/-- Words and numbers have no blank in them. -/
theorem foreign_isBlank : Foreign isBlank where
  word := by
    intro c hc
    unfold isBlank
    split <;> first | rfl | (exfalso; revert hc; decide)
  point := by decide
  sign := by decide

theorem free_isBlank_symbol :
    ∀ kind ∈ Kind.symbols, kind.text.toList.all (fun c => !isBlank c) = true := by
  decide +kernel

theorem free_fixed {p : Char → Bool} {expected : List Char} (h : Free p expected)
    (text : List Char) : Free p (text.take (fixed expected text)) := by
  by_cases hpos : 0 < fixed expected text
  · obtain ⟨hlength, rest, rfl⟩ := of_fixed_pos hpos
    rw [hlength, List.take_left]
    exact h
  · rw [Nat.eq_zero_of_not_pos hpos]
    simp

/-- Only the pattern for blanks matches any. -/
theorem free_isBlank (hmem : pattern ∈ all) (hp : pattern ≠ blank) (text : List Char) :
    Free isBlank (text.take (pattern.matchLength text)) := by
  cases pattern with
  | blank => exact absurd rfl hp
  | lineComment | blockComment => exact free_fixed (by simp [isBlank]) text
  | quote kind mark =>
    have hmark : mark = '\x22' ∨ mark = '\x27' := by
      simp [all] at hmem
      grind
    refine free_fixed ?_ text
    rcases hmark with rfl | rfl <;> cases kind <;> simp [StringKind.marker, isBlank]
  | number => exact foreign_isBlank.free_decimal text
  | hexNumber => exact foreign_isBlank.free_hexadecimal text
  | word => exact foreign_isBlank.free_word text
  | symbol kind =>
    have hkind : kind ∈ Kind.symbols := by simpa [all] using hmem
    refine free_fixed (fun c hc => ?_) text
    simpa using List.all_eq_true.mp (free_isBlank_symbol kind hkind) c hc

end Pattern

namespace Lexer

open Pattern (isBlank)

variable {text before after : List Char} {c : Char}

/-- A match that is not of blanks does not begin with one. -/
theorem head_of_longest? {found : Pattern × Nat}
    (h : Pattern.longest? (c :: text) = some found) (hp : found.1 ≠ .blank) :
    isBlank c = false := by
  obtain ⟨pattern, length⟩ := found
  obtain ⟨hmem, rfl, hpos, -⟩ := Pattern.longest?_eq_some h
  refine Pattern.free_isBlank hmem hp (c :: text) c ?_
  obtain ⟨n, hn⟩ := Nat.exists_eq_succ_of_ne_zero (Nat.ne_of_gt hpos)
  rw [hn, List.take_succ_cons]
  exact List.mem_cons_self ..

/-- The blanks at the front of a text are its first piece. -/
theorem front_of_isBlank (hc : isBlank c = true) :
    front (c :: text) = (.blank, (text.takeWhile isBlank).length + 1) := by
  have hlength : Pattern.matchLength .blank (c :: text) = (text.takeWhile isBlank).length + 1 :=
    if_pos hc
  unfold front
  cases hfound : Pattern.longest? (c :: text) with
  | none =>
    rw [Pattern.matchLength_of_longest?_eq_none hfound (by simp [Pattern.all])] at hlength
    cases hlength
  | some found =>
    obtain ⟨pattern, length⟩ := found
    by_cases hp : pattern = .blank
    · subst hp
      rw [← hlength, (Pattern.longest?_eq_some hfound).2.1]
      rfl
    · have := head_of_longest? hfound hp
      rw [hc] at this
      cases this

/-- No match that begins before a blank goes over it. -/
theorem longest?_append_blank (hc : isBlank c = false)
    (hafter : ∀ d ∈ after.head?, isBlank d = true) :
    Pattern.longest? (c :: before) = Pattern.longest? (c :: before ++ after) := by
  refine Pattern.longest?_append fun found hfound => ?_
  obtain ⟨pattern, length⟩ := found
  obtain ⟨hmem, hlength, -, -⟩ := Pattern.longest?_eq_some hfound
  by_cases hp : pattern = .blank
  · subst hp
    simp [Pattern.matchLength, Pattern.runLength, hc] at hlength
    omega
  · have hfree := Pattern.free_isBlank hmem hp (c :: before ++ after)
    rw [← hlength] at hfree
    refine Nat.le_of_not_lt fun hlt => ?_
    cases after with
    | nil =>
      rw [List.append_nil] at hfound
      exact Nat.not_lt_of_le (longest?_le hfound) hlt
    | cons d after =>
      have hmem : d ∈ (c :: before ++ d :: after).take length := by
        rw [List.take_append]
        refine List.mem_append_right _ ?_
        obtain ⟨n, hn⟩ := Nat.exists_eq_succ_of_ne_zero (Nat.sub_ne_zero_of_lt hlt)
        dsimp only at hn
        rw [hn, List.take_succ_cons]
        exact List.mem_cons_self ..
      have := hfree d hmem
      rw [hafter d rfl] at this
      cases this

end Lexer

end SolidityParser
