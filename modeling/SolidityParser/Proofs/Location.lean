import SolidityParser.Location
import SolidityParser.Proofs.Text

/-!
# Where a character stands

The line of the character after `before` is numbered by the line feeds of `before`, its column by
the characters after the last of them (`locate_append`). Both are read off the part of the text that
stands before the character, cut after its last line feed.
-/

namespace SolidityParser

open Text (byteLength byteLength_append)

/-- A text cut after its last line feed: `lines` holds whole lines, and `column` what stands before
on the line that is not yet ended. -/
structure Text.IsLines (lines column : List Char) : Prop where
  ended : ∀ c ∈ lines.getLast?, c = '\n'
  open_line : '\n' ∉ column

namespace LineTable

variable {lines column before after rest : List Char} {line : LineStart} {offset index target : Nat}

/-- A number is one more than the count, short of the largest. -/
theorem number_of_lt {count : Nat} (h : count < Span.limit) : number count = count + 1 := by
  unfold number
  rw [if_pos (Nat.le_of_lt h), Nat.mod_eq_of_lt (Nat.succ_lt_succ h)]

/-- The largest count has no number. -/
theorem number_limit : number Span.limit = 0 := by
  rw [number, if_pos (Nat.le_refl _), Nat.mod_self]

/-- The lines of a text go on after its first part. -/
theorem linesAfter_append_of_not_mem (h : '\n' ∉ column) (offset : Nat) (after : List Char) :
    linesAfter offset (column ++ after) = linesAfter (offset + byteLength column) after := by
  induction column generalizing offset with
  | nil => rfl
  | cons c column ih =>
    rw [List.mem_cons, not_or] at h
    obtain ⟨hc, hcolumn⟩ := h
    rw [List.cons_append, linesAfter, if_neg (Ne.symm hc), ih hcolumn, Nat.add_assoc]
    rfl

/-- Lines begin behind the text before them. -/
theorem lt_offset_of_mem_linesAfter (h : line ∈ linesAfter offset rest) : offset < line.offset := by
  induction rest generalizing offset with
  | nil => cases h
  | cons c rest ih =>
    have hpos := c.utf8Size_pos
    rw [linesAfter] at h
    split at h
    · rcases List.mem_cons.mp h with rfl | h
      · exact Nat.lt_add_of_pos_right hpos
      · exact Nat.lt_trans (Nat.lt_add_of_pos_right hpos) (ih h)
    · exact Nat.lt_trans (Nat.lt_add_of_pos_right hpos) (ih h)

/-- No line is gone to that begins behind the target. -/
theorem lastStart_of_lt {later : List LineStart} (h : ∀ next ∈ later, target < next.offset) :
    lastStart target index line later = (index, line) := by
  cases later with
  | nil => rfl
  | cons next later =>
    have := h next List.mem_cons_self
    exact if_neg (by omega)

/-- All lines that end before the target are gone through. -/
theorem lastStart_lines (hlines : ∀ c ∈ lines.getLast?, c = '\n')
    (hle : offset + byteLength lines ≤ target) (hstart : lines = [] → line = ⟨offset, rest⟩) :
    lastStart target index line (linesAfter offset (lines ++ rest)) =
      lastStart target (index + lines.count '\n') ⟨offset + byteLength lines, rest⟩
        (linesAfter (offset + byteLength lines) rest) := by
  induction lines generalizing offset index line with
  | nil => rw [hstart rfl]; rfl
  | cons c lines ih =>
    have htail : ∀ d ∈ lines.getLast?, d = '\n' := by
      intro d hd
      refine hlines d ?_
      rw [List.getLast?_cons, Option.mem_def.mp hd]
      rfl
    simp only [byteLength] at hle ⊢
    rw [List.cons_append, linesAfter, ← Nat.add_assoc]
    by_cases hc : c = '\n'
    · rw [if_pos hc, lastStart, if_pos (by dsimp only; omega)]
      rw [ih htail (by omega) fun hnil => by rw [hnil]; rfl]
      rw [hc, List.count_cons_self, Nat.add_comm (lines.count _), Nat.add_assoc index]
    · rw [if_neg hc, List.count_cons_of_ne hc]
      refine ih htail (by omega) fun hnil => ?_
      -- the last of the lines ends with a line feed
      subst hnil
      exact absurd (hlines c rfl) hc

/-- The walk to the character after some text ends on its line. -/
theorem lastStart_append (h : Text.IsLines lines column) (after : List Char) :
    lastStart (byteLength (lines ++ column)) 0 ⟨0, lines ++ column ++ after⟩
      (linesAfter 0 (lines ++ column ++ after)) =
        (lines.count '\n', ⟨byteLength lines, column ++ after⟩) := by
  rw [List.append_assoc, lastStart_lines h.ended (by rw [byteLength_append]; omega)
    fun hnil => by rw [hnil]; rfl]
  rw [linesAfter_append_of_not_mem h.open_line, Nat.zero_add, Nat.zero_add]
  refine lastStart_of_lt fun next hnext => ?_
  rw [byteLength_append]
  exact lt_offset_of_mem_linesAfter hnext

/-- Line and column of the character after some text. -/
theorem locate_append (h : Text.IsLines lines column) (after : List Char) :
    (ofText (lines ++ column ++ after)).locate (byteLength (lines ++ column)) =
      ⟨number (lines.count '\n'), number column.length, byteLength (lines ++ column)⟩ := by
  have hclamped : min (byteLength (lines ++ column)) (byteLength (lines ++ column ++ after)) =
      byteLength (lines ++ column) := by
    rw [byteLength_append (lines ++ column)]
    exact Nat.min_eq_left (Nat.le_add_right _ _)
  simp only [locate, ofText]
  rw [hclamped, lastStart_append h]
  simp only [byteLength_append, Nat.add_sub_cancel_left, charactersBefore,
    Text.takeBytes?_append, Option.getD_some]

/-- Every text can be cut after its last line feed. -/
theorem exists_isLines (before : List Char) :
    ∃ lines column, before = lines ++ column ∧ Text.IsLines lines column := by
  induction before with
  | nil => exact ⟨[], [], rfl, nofun, by simp⟩
  | cons c before ih =>
    obtain ⟨lines, column, rfl, hlines⟩ := ih
    by_cases hnil : lines = [] ∧ c ≠ '\n'
    · obtain ⟨rfl, hc⟩ := hnil
      exact ⟨[], c :: column, rfl, nofun, by simp [Ne.symm hc, hlines.open_line]⟩
    · refine ⟨c :: lines, column, rfl, fun d hd => ?_, hlines.open_line⟩
      cases lines with
      | nil =>
        cases hd
        simpa using hnil
      | cons e lines =>
        rw [List.getLast?_cons_cons] at hd
        exact hlines.ended d hd

end LineTable

end SolidityParser
