import SolidityParser.Lexer.CommentScan
import SolidityParser.Lexer.Scan

/-!
# Which patterns match where

`Pattern.longest?_eq_some` says what is chosen at the front of a text: a pattern of the list, with
its whole match, that no other pattern exceeds. `Pattern.plain_of_isMarked_eq_false` says that
words, numbers, blanks and all symbols but the slash and `/=` match no character at which a comment
or a string may begin; so between two marks any way of cutting the text is as good as any other.
-/

namespace SolidityParser

namespace Pattern

/-- No character of the text is of the class. -/
def Free (p : Char → Bool) (text : List Char) : Prop := ∀ c ∈ text, p c = false

namespace Free

variable {p : Char → Bool} {c : Char} {text left right : List Char} {m n : Nat}

@[simp] theorem nil : Free p [] := fun _ h => absurd h List.not_mem_nil

@[simp] theorem cons_iff : Free p (c :: text) ↔ p c = false ∧ Free p text := by
  simp [Free]

@[simp] theorem append_iff : Free p (left ++ right) ↔ Free p left ∧ Free p right := by
  constructor
  · exact fun h => ⟨fun c hc => h c (List.mem_append_left _ hc),
      fun c hc => h c (List.mem_append_right _ hc)⟩
  · rintro ⟨hl, hr⟩ c hc
    rcases List.mem_append.mp hc with hc | hc
    · exact hl c hc
    · exact hr c hc

/-- A text cut in two has no such character if neither part has. -/
theorem take_add (hm : Free p (text.take m)) (hn : Free p ((text.drop m).take n)) :
    Free p (text.take (m + n)) := by
  rw [List.take_add]
  exact append_iff.mpr ⟨hm, hn⟩

end Free

end Pattern

/-- No comment and no string begins inside this text. -/
abbrev CommentScan.Plain (text : List Char) : Prop := Pattern.Free isMark text

namespace Pattern

open CommentScan (Plain isMark)

variable {text : List Char} {pattern : Pattern} {length : Nat}

/-! ### The longest match -/

/-- The longer of two matches is at least as long as either. -/
private theorem longer_mono (best next : Pattern × Nat) :
    best.2 ≤ (longer best next).2 ∧ next.2 ≤ (longer best next).2 := by
  unfold longer
  split <;> omega

/-- Of a row of matches the longest is kept, and it is one of them or what there was before. -/
private theorem foldl_longer (best : Pattern × Nat) (matched : List (Pattern × Nat)) :
    (matched.foldl longer best = best ∨ matched.foldl longer best ∈ matched) ∧
      best.2 ≤ (matched.foldl longer best).2 ∧
      ∀ next ∈ matched, next.2 ≤ (matched.foldl longer best).2 := by
  induction matched generalizing best with
  | nil => simp
  | cons next rest ih =>
    obtain ⟨hmem, hle, hall⟩ := ih (longer best next)
    obtain ⟨hbest, hnext⟩ := longer_mono best next
    refine ⟨?_, Nat.le_trans hbest hle, ?_⟩
    · rcases hmem with h | h
      · rw [List.foldl_cons, h]
        unfold longer
        split <;> simp
      · exact .inr (List.mem_cons_of_mem _ h)
    · intro other hother
      rcases List.mem_cons.mp hother with rfl | hother
      · exact Nat.le_trans hnext hle
      · exact hall other hother

/-- The pattern chosen is one of the list, it matches as much as it is said to, and none matches
more. -/
theorem longest?_eq_some (h : longest? text = some (pattern, length)) :
    pattern ∈ all ∧ length = pattern.matchLength text ∧ 0 < length ∧
      ∀ other ∈ all, other.matchLength text ≤ length := by
  unfold longest? at h
  obtain ⟨hmem, -, hall⟩ := foldl_longer (blank, 0) (all.map fun p => (p, p.matchLength text))
  generalize (all.map fun p => (p, p.matchLength text)).foldl longer (blank, 0) = best
    at h hmem hall
  dsimp only at h
  split at h
  · cases h
  · next hpos =>
    cases h
    rcases hmem with h | h
    · cases h
      simp at hpos
    · obtain ⟨p, hp, he⟩ := List.mem_map.mp h
      cases he
      exact ⟨hp, rfl, Nat.pos_of_ne_zero hpos,
        fun other ho => hall (other, _) (List.mem_map.mpr ⟨other, ho, rfl⟩)⟩

/-- Where no pattern is chosen, none matches. -/
theorem matchLength_of_longest?_eq_none (h : longest? text = none) (hp : pattern ∈ all) :
    pattern.matchLength text = 0 := by
  unfold longest? at h
  obtain ⟨-, -, hall⟩ := foldl_longer (blank, 0) (all.map fun p => (p, p.matchLength text))
  have hle := hall (pattern, _) (List.mem_map.mpr ⟨pattern, hp, rfl⟩)
  dsimp only at h
  split at h
  · next h0 =>
    rw [h0] at hle
    exact Nat.le_zero.mp hle
  · cases h

/-! ### Fixed texts -/

/-- A fixed text that matches stands at the front, and all of it is matched. -/
theorem of_fixed_pos {expected : List Char} (h : 0 < fixed expected text) :
    fixed expected text = expected.length ∧ ∃ rest, text = expected ++ rest := by
  unfold fixed at h ⊢
  split at h
  · next hpre =>
    rw [if_pos hpre]
    obtain ⟨rest, hrest⟩ := List.isPrefixOf_iff_prefix.mp hpre
    exact ⟨rfl, rest, hrest.symm⟩
  · simp at h

/-- A fixed text matches where it stands. -/
theorem fixed_append (expected rest : List Char) :
    fixed expected (expected ++ rest) = expected.length :=
  if_pos (List.isPrefixOf_iff_prefix.mpr (List.prefix_append _ _))

/-! ### Runs and numbers -/

/-- A run has none of the characters that neither its first nor its other characters may be. -/
theorem free_runLength {p first tail : Char → Bool} (hfirst : ∀ c, first c = true → p c = false)
    (htail : ∀ c, tail c = true → p c = false) (text : List Char) :
    Free p (text.take (runLength first tail text)) := by
  cases text with
  | nil => simp
  | cons c cs =>
    simp only [runLength]
    split
    · next hc =>
      have hcs : cs.take (cs.takeWhile tail).length = cs.takeWhile tail :=
        (List.prefix_iff_eq_take.mp (List.takeWhile_prefix tail)).symm
      rw [List.take_succ_cons, hcs, Free.cons_iff]
      refine ⟨hfirst c hc, fun d hd => htail d ?_⟩
      exact List.all_eq_true.mp List.all_takeWhile d hd
    · simp

/-- A class that has none of the characters of words and numbers. -/
structure Foreign (p : Char → Bool) : Prop where
  /-- It has no letter, no digit, no dollar sign and no underscore. -/
  word : ∀ c, isWordTail c = true → p c = false
  /-- It has no point. -/
  point : p '.' = false
  /-- It has no sign. -/
  sign : p '+' = false ∧ p '-' = false

namespace Foreign

variable {p : Char → Bool} (hp : Foreign p)

include hp

/-- None of these begins a word. -/
theorem start (c : Char) (h : isWordStart c = true) : p c = false :=
  hp.word c (by unfold isWordTail; rw [h, Bool.true_or])

/-- None is a digit. -/
theorem digit (c : Char) (h : c.isDigit = true) : p c = false :=
  hp.word c (by unfold isWordTail; rw [h, Bool.or_true])

/-- None stands between digits. -/
theorem digitTail (c : Char) (h : isDigitTail c = true) : p c = false := by
  unfold isDigitTail at h
  rcases Bool.or_eq_true_iff.mp h with h | h
  · exact hp.digit c h
  · exact hp.start c (by unfold isWordStart; rw [h, Bool.or_true])

/-- None is a hexadecimal digit. -/
theorem hexDigit (c : Char) (h : isHexDigit c = true) : p c = false := by
  refine hp.word c ?_
  unfold isHexDigit at h
  unfold isWordTail isWordStart Char.isAlpha Char.isUpper Char.isLower
  simp only [Bool.or_eq_true, Bool.and_eq_true, decide_eq_true_eq] at h ⊢
  rcases h with (h | h) | h
  · exact .inr h
  · refine .inl (.inl (.inl (.inr ⟨h.1, ?_⟩)))
    exact Char.le_trans h.2 (by decide)
  · refine .inl (.inl (.inl (.inl ⟨h.1, ?_⟩)))
    exact Char.le_trans h.2 (by decide)

/-- None stands between those. -/
theorem hexTail (c : Char) (h : isHexTail c = true) : p c = false := by
  unfold isHexTail at h
  rcases Bool.or_eq_true_iff.mp h with h | h
  · exact hp.hexDigit c h
  · exact hp.start c (by unfold isWordStart; rw [h, Bool.or_true])

/-- None is a letter that a number may hold. -/
theorem letter {c d : Char} (hd : isWordStart d = true) (h : (c == d) = true) : p c = false := by
  obtain rfl : c = d := eq_of_beq h
  exact hp.start c hd

/-- So a row of digits has none of them. -/
theorem free_digits (text : List Char) : Free p (text.take (digits text)) :=
  free_runLength hp.digit hp.digitTail text

/-- Nor has a fraction. -/
theorem free_fraction (text : List Char) : Free p (text.take (fraction text)) := by
  unfold fraction
  split
  · next cs =>
    split
    · simp
    · rw [List.take_succ_cons, Free.cons_iff]
      exact ⟨hp.point, hp.free_digits cs⟩
  · simp

/-- The exponent with a sign of `sign` characters. -/
theorem free_signed {c : Char} {cs : List Char} {sign : Nat} (hc : (c == 'e' || c == 'E') = true)
    (hsign : Free p (cs.take sign)) :
    Free p ((c :: cs).take
      (if digits (cs.drop sign) = 0 then 0 else digits (cs.drop sign) + sign + 1)) := by
  split
  · simp
  · rw [Nat.add_comm (digits _), List.take_succ_cons, Free.cons_iff]
    refine ⟨?_, .take_add hsign (hp.free_digits _)⟩
    rcases Bool.or_eq_true_iff.mp hc with hc | hc
    · exact hp.letter (by decide) hc
    · exact hp.letter (by decide) hc

/-- Nor has an exponent. -/
theorem free_exponent (text : List Char) : Free p (text.take (exponent text)) := by
  cases text with
  | nil => simp
  | cons c cs =>
    simp only [exponent]
    split
    · next hc =>
      split
      · exact hp.free_signed hc (by simpa using hp.sign.1)
      · exact hp.free_signed hc (by simpa using hp.sign.2)
      · exact hp.free_signed hc (by simp)
    · simp

/-- Nor has a decimal number. -/
theorem free_decimal (text : List Char) : Free p (text.take (decimal text)) := by
  simp only [decimal]
  split
  · simp
  · exact .take_add (.take_add (hp.free_digits _) (hp.free_fraction _)) (hp.free_exponent _)

/-- Nor has a hexadecimal number. -/
theorem free_hexadecimal (text : List Char) : Free p (text.take (hexadecimal text)) := by
  unfold hexadecimal
  split
  · next x cs =>
    split
    · next hx =>
      dsimp only
      split
      · simp
      · rw [List.take_succ_cons, List.take_succ_cons, Free.cons_iff, Free.cons_iff]
        refine ⟨hp.digit '0' (by decide), ?_, free_runLength hp.hexDigit hp.hexTail cs⟩
        rcases Bool.or_eq_true_iff.mp hx with hx | hx
        · exact hp.letter (by decide) hx
        · exact hp.letter (by decide) hx
    · simp
  · simp

/-- Nor has a word. -/
theorem free_word (text : List Char) : Free p (text.take (runLength isWordStart isWordTail text)) :=
  free_runLength hp.start hp.word text

end Foreign

/-! ### Marks -/

/-- There are three marks. -/
theorem isMark_cases {c : Char} (h : isMark c = true) : c = '/' ∨ c = '\x22' ∨ c = '\x27' := by
  unfold isMark at h
  split at h <;> simp_all

/-- A class of characters that leaves out the three marks has no mark in it. -/
theorem not_isMark {p : Char → Bool} (hslash : p '/' = false)
    (hdouble : p '\x22' = false) (hsingle : p '\x27' = false) :
    ∀ c, p c = true → isMark c = false := by
  intro c hc
  cases hmark : isMark c with
  | false => rfl
  | true => rcases isMark_cases hmark with rfl | rfl | rfl <;> simp_all

/-- Words and numbers have no mark in them. -/
theorem foreign_isMark : Foreign isMark where
  word := not_isMark (by decide) (by decide) (by decide)
  point := by decide
  sign := by decide

/-! ### Patterns without marks -/

/-- May a match of the pattern hold a mark? -/
def isMarked (pattern : Pattern) : Bool :=
  pattern matches lineComment | blockComment | quote _ _ | symbol .slash | symbol .slashEq

/-- Of the symbols only the slash and the slash with an equals sign have a mark. -/
private theorem plain_symbol :
    ∀ kind ∈ Kind.symbols, kind ≠ .slash → kind ≠ .slashEq →
      kind.text.toList.all (fun c => !isMark c) = true := by
  decide +kernel

/-- What a pattern without marks matches is plain. -/
theorem plain_of_isMarked_eq_false (hp : pattern ∈ all) (h : pattern.isMarked = false)
    (text : List Char) : Plain (text.take (pattern.matchLength text)) := by
  cases pattern with
  | blank =>
    exact free_runLength (not_isMark (by decide) (by decide) (by decide))
      (not_isMark (by decide) (by decide) (by decide)) text
  | lineComment | blockComment | quote => cases h
  | number => exact foreign_isMark.free_decimal text
  | hexNumber => exact foreign_isMark.free_hexadecimal text
  | word => exact foreign_isMark.free_word text
  | symbol kind =>
    have hkind : kind ∈ Kind.symbols := by simpa [all] using hp
    have hslash : kind ≠ .slash := by rintro rfl; cases h
    have hslashEq : kind ≠ .slashEq := by rintro rfl; cases h
    by_cases hfits : 0 < fixed kind.text.toList text
    · obtain ⟨hlength, rest, rfl⟩ := of_fixed_pos hfits
      have hplain := plain_symbol kind hkind hslash hslashEq
      simp only [matchLength, hlength, List.take_left]
      intro c hc
      simpa using List.all_eq_true.mp hplain c hc
    · rw [matchLength, Nat.eq_zero_of_not_pos hfits]
      simp

end Pattern

end SolidityParser
