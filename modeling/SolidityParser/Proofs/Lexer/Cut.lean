import SolidityParser.Proofs.Lexer.Local

/-!
# Cutting a text between pieces

What follows a piece has no say in it: cut off anywhere behind the first piece, a text begins with
the same piece (`front_append`). So the pieces of a part of a text that begins and ends between
pieces are those that the text has there (`pieces_flatMap`).
-/

namespace SolidityParser

namespace Lexer

variable {before after text rest : List Char} {ps qs : List Piece} {sort : PieceSort}
  {pattern : Pattern} {length n : Nat}

/-- How a match is extended to a piece does not depend on what follows the piece. -/
theorem extend_append (hlength : length ≤ before.length)
    (h : (extend pattern length (before ++ after)).2 ≤ before.length) :
    extend pattern length before = extend pattern length (before ++ after) := by
  unfold extend at h ⊢
  dsimp only at h ⊢
  rw [List.drop_append_of_le_length hlength] at h ⊢
  cases pattern with
  | blank | number | hexNumber | symbol => rfl
  | word =>
    dsimp only
    rw [List.take_append_of_le_length hlength]
  | lineComment =>
    dsimp only at h ⊢
    have hdrop := List.length_drop (i := length) (l := before)
    rw [@Delimiter.lineCommentEnd_append _ after (by omega)]
  | blockComment =>
    dsimp only at h ⊢
    cases hend : Delimiter.blockCommentEnd? (before.drop length ++ after) with
    | some body =>
      rw [hend] at h
      have hdrop := List.length_drop (i := length) (l := before)
      dsimp only at h
      rw [Delimiter.blockCommentEnd?_append hend (by omega)]
    | none =>
      -- an open comment takes all that is left
      rw [hend] at h
      obtain rfl : after = [] := List.length_eq_zero_iff.mp (by
        simp only [List.length_append] at h
        omega)
      rw [List.append_nil] at hend ⊢
      rw [hend]
  | quote kind mark =>
    dsimp only at h ⊢
    have hdrop := List.length_drop (i := length) (l := before)
    cases hend : Delimiter.stringEnd? mark (before.drop length ++ after) with
    | some body =>
      rw [hend] at h
      dsimp only at h
      rw [Delimiter.stringEnd?_append.mpr ⟨hend, by omega⟩]
    | none =>
      cases hbefore : Delimiter.stringEnd? mark (before.drop length) with
      | none => rfl
      | some body =>
        rw [(Delimiter.stringEnd?_append.mp hbefore).1] at hend
        cases hend

/-- A piece is at least as long as the match it begins with. -/
theorem le_extend (hlength : length ≤ text.length) : length ≤ (extend pattern length text).2 := by
  unfold extend
  dsimp only
  split <;> (try split) <;> dsimp only <;> omega

/-- No match is longer than the text. -/
theorem longest?_le {found : Pattern × Nat} (h : Pattern.longest? text = some found) :
    found.2 ≤ text.length := by
  rw [(Pattern.longest?_eq_some h).2.1]
  exact Pattern.matchLength_le _ _

/-- The first piece of a text does not depend on what follows it. -/
theorem front_append (h : (front (before ++ after)).2 ≤ before.length) :
    front before = front (before ++ after) := by
  have hlongest : Pattern.longest? before = Pattern.longest? (before ++ after) := by
    refine Pattern.longest?_append fun found hfound => ?_
    have hle := longest?_le hfound
    unfold front at h
    rw [hfound] at h
    exact Nat.le_trans (le_extend hle) h
  unfold front at h ⊢
  rw [hlongest]
  split
  · next pattern length hfound =>
    rw [hfound] at h
    have hle := longest?_le hfound
    exact extend_append (Nat.le_trans (le_extend hle) h) h
  · rfl

/-- Nor is a piece. -/
theorem extend_le (hle : length ≤ text.length) :
    (extend pattern length text).2 ≤ text.length := by
  have hrest := List.length_drop (i := length) (l := text)
  cases pattern with
  | blank | number | hexNumber | word | symbol => exact hle
  | lineComment =>
    have := (List.takeWhile_sublist (p := (!Delimiter.isLineEnd ·))
      (l := text.drop length)).length_le
    simp only [extend, Delimiter.lineCommentEnd]
    omega
  | blockComment =>
    simp only [extend]
    split
    · next body hend =>
      have := Delimiter.blockCommentEnd?_le hend
      dsimp only
      omega
    · exact Nat.le_refl _
  | quote kind mark =>
    simp only [extend]
    split
    · next body hend =>
      have := ((@Delimiter.stringEnd?_append _ [] _ _).mp hend).2
      dsimp only
      omega
    · exact hle

/-- No piece is longer than the text. -/
theorem front_le (htext : text ≠ []) : (front text).2 ≤ text.length := by
  unfold front
  split
  · next hfound => exact extend_le (longest?_le hfound)
  · exact List.length_pos_iff.mpr htext

/-- The first pieces of a text, and what is left of it. -/
inductive Cuts : List Char → List Piece → List Char → Prop
  | nil (text : List Char) : Cuts text [] text
  | cons {text rest : List Char} {ps : List Piece} (hne : text ≠ [])
      (next : Cuts (text.drop (front text).2) ps rest) :
      Cuts text (⟨(front text).1, text.take (front text).2⟩ :: ps) rest

namespace Cuts

/-- The pieces hold all of the text that is not left. -/
theorem text_eq (h : Cuts text ps rest) : text = ps.flatMap (·.text) ++ rest := by
  induction h with
  | nil => rfl
  | cons hne _ ih =>
    rw [List.flatMap_cons, List.append_assoc, ← ih]
    exact (List.take_append_drop _ _).symm

/-- Cuts in a row are one cut. -/
theorem append {mid : List Char} (h : Cuts text ps mid) (h' : Cuts mid qs rest) :
    Cuts text (ps ++ qs) rest := by
  induction h with
  | nil => exact h'
  | cons hne _ ih => exact .cons hne (ih h')

/-- A cut can be taken apart between its pieces. -/
theorem split (h : Cuts text (ps ++ qs) rest) : ∃ mid, Cuts text ps mid ∧ Cuts mid qs rest := by
  induction ps generalizing text with
  | nil => exact ⟨text, .nil text, h⟩
  | cons piece ps ih =>
    cases h with
    | cons hne next =>
      obtain ⟨mid, hfirst, hlast⟩ := ih next
      exact ⟨mid, .cons hne hfirst, hlast⟩

/-- What is left has no say in the pieces cut off. -/
theorem cut (h : Cuts (before ++ after) ps after) : Cuts before ps [] := by
  generalize htext : before ++ after = text at h
  induction h generalizing before with
  | nil text =>
    obtain rfl : before = [] := by simpa using htext
    exact .nil []
  | @cons text rest ps hne next ih =>
    subst htext
    have hlength := congrArg List.length next.text_eq
    have hle := front_le hne
    have hpos := CommentScan.front_pos hne
    simp only [List.length_drop, List.length_append] at hlength hle
    have hfits : (front (before ++ rest)).2 ≤ before.length := by omega
    have hfront := front_append hfits
    rw [List.drop_append_of_le_length hfits] at ih
    rw [List.take_append_of_le_length hfits, ← hfront]
    refine .cons (List.ne_nil_of_length_pos (by omega)) (ih ?_)
    rw [hfront]

end Cuts

/-- The pieces of a text are what is cut off until nothing is left. -/
theorem cuts_pieces (text : List Char) : Cuts text (pieces text) [] := by
  have loop : ∀ fuel (text : List Char), text.length ≤ fuel →
      Cuts text (piecesAtFuel fuel text) [] := by
    intro fuel
    induction fuel with
    | zero =>
      intro text hfuel
      rw [List.length_eq_zero_iff.mp (Nat.le_zero.mp hfuel)]
      exact .nil []
    | succ fuel ih =>
      intro text hfuel
      cases text with
      | nil => exact .nil []
      | cons c cs =>
        have hpos := CommentScan.front_pos (List.cons_ne_nil c cs)
        refine .cons (by simp) (ih _ ?_)
        rw [List.length_drop]
        omega
  exact loop _ text (Nat.le_refl _)

/-- A whole text is cut into its pieces. -/
theorem Cuts.eq_pieces (h : Cuts text ps []) : ps = pieces text := by
  have unique : ∀ {text ps qs}, Cuts text ps [] → Cuts text qs [] → ps = qs := by
    intro text ps qs h h'
    generalize hrest : ([] : List Char) = rest at h h'
    induction h generalizing qs with
    | nil =>
      subst hrest
      cases h' with
      | nil => rfl
      | cons hne _ => exact absurd rfl hne
    | cons hne _ ih =>
      subst hrest
      cases h' with
      | nil => exact absurd rfl hne
      | cons _ next => rw [ih rfl next]
  exact unique h (cuts_pieces text)

/-- The pieces of a text are its first one and those of what is left behind it. -/
theorem pieces_cons (hne : text ≠ []) :
    pieces text =
      ⟨(front text).1, text.take (front text).2⟩ :: pieces (text.drop (front text).2) :=
  (Cuts.cons hne (cuts_pieces _)).eq_pieces.symm

/-- A part of a text between pieces has the pieces that the text has there. -/
theorem pieces_flatMap {left right : List Piece} (h : pieces text = left ++ ps ++ right) :
    pieces (ps.flatMap (·.text)) = ps := by
  have hcuts := cuts_pieces text
  rw [h, List.append_assoc] at hcuts
  obtain ⟨mid, -, hmid⟩ := hcuts.split
  obtain ⟨after, hps, -⟩ := hmid.split
  rw [hps.text_eq] at hps
  exact hps.cut.eq_pieces.symm

end Lexer

end SolidityParser
