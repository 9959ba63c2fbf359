import SolidityParser.Proofs.Lexer.Comments

/-!
# Cutting texts at byte offsets

What stands between two pieces of a text is cut out at the byte offsets where the first ends and the
second begins (`slice?_append`).
-/

namespace SolidityParser.Text

variable {before middle after text : List Char} {count : Nat} {span : Span}

/-- A text with a character has a byte. -/
theorem byteLength_pos (h : text ≠ []) : 0 < byteLength text := by
  obtain ⟨c, cs, rfl⟩ := List.exists_cons_of_ne_nil h
  exact Nat.add_pos_left c.utf8Size_pos _

theorem dropBytes?_zero (text : List Char) : dropBytes? 0 text = some text := by
  cases text <;> rfl

theorem takeBytes?_zero (text : List Char) : takeBytes? 0 text = some [] := by
  cases text <;> rfl

/-- The bytes of a piece at the front are dropped with it. -/
theorem dropBytes?_append (before after : List Char) :
    dropBytes? (byteLength before) (before ++ after) = some after := by
  induction before with
  | nil => exact dropBytes?_zero after
  | cons c before ih =>
    have hpos := c.utf8Size_pos
    simp only [byteLength, List.cons_append, dropBytes?]
    rw [if_neg (by omega), if_pos (by omega), Nat.add_sub_cancel_left, ih]

/-- The bytes of a piece at the front are those of the piece. -/
theorem takeBytes?_append (before after : List Char) :
    takeBytes? (byteLength before) (before ++ after) = some before := by
  induction before with
  | nil => exact takeBytes?_zero after
  | cons c before ih =>
    have hpos := c.utf8Size_pos
    simp only [byteLength, List.cons_append, takeBytes?]
    rw [if_neg (by omega), if_pos (by omega), Nat.add_sub_cancel_left, ih, Option.map_some]

/-- A piece is cut out between the offsets where it begins and ends. -/
theorem slice?_append (before middle after : List Char) :
    slice? (before ++ (middle ++ after))
        ⟨byteLength before, byteLength before + byteLength middle⟩ = some middle := by
  unfold slice?
  rw [if_pos (Nat.le_add_right _ _), dropBytes?_append, Option.bind_some]
  simp only [Span.length, Nat.add_sub_cancel_left]
  exact takeBytes?_append middle after

end SolidityParser.Text
