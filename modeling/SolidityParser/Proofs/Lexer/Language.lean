import Mathlib.Computability.Language
import SolidityParser.Proofs.Lexer.Blank

/-!
# The language of a pattern

Each pattern is a regular language (`Pattern.language`), and the length that it matches is that of
the longest word of its language at the front of the text (`Pattern.measures`). The functions that
compute the lengths are put together as the languages are, so there is one lemma for each way of
putting languages together. No word is in the languages of two patterns (`Pattern.ofWord_eq`), so
the longest match names its pattern (`Pattern.longest?_eq_some_iff`).
-/

namespace SolidityParser

open Computability

namespace Pattern

/-! ### Languages -/

/-- The one-letter words over a class of characters. -/
def letter (p : Char → Bool) : Language Char := {word | ∃ c, p c = true ∧ word = [c]}

/-- The runs that a character of `first` begins and characters of `tail` continue. -/
def runs (first tail : Char → Bool) : Language Char := letter first * (letter tail)∗

/-- The words that are in a language or empty. -/
def optional (language : Language Char) : Language Char := 1 + language

/-- Runs of digits. -/
def digitRuns : Language Char := runs Char.isDigit isDigitTail

/-- Fractions: a point and a run of digits. -/
def fractions : Language Char := letter (· == '.') * digitRuns

/-- Exponents: their letter, a sign or none, and a run of digits. -/
def exponents : Language Char :=
  letter (fun c => c == 'e' || c == 'E') *
    (optional (letter fun c => c == '+' || c == '-') * digitRuns)

/-- Decimal numbers, whose fraction may be missing, or else their whole part. -/
def decimals : Language Char :=
  digitRuns * optional fractions * optional exponents + fractions * optional exponents

/-- Hexadecimal numbers. -/
def hexadecimals : Language Char :=
  letter (· == '0') * (letter (fun c => c == 'x' || c == 'X') * runs isHexDigit isHexTail)

/-- The one text that a pattern matches, for the patterns that match only one. -/
def fixedText? : Pattern → Option (List Char)
  | lineComment => some ['/', '/']
  | blockComment => some ['/', '*']
  | quote kind mark => some (kind.marker ++ [mark])
  | symbol kind => some kind.text.toList
  | blank | number | hexNumber | word => none

/-- The words that a pattern matches. -/
def language : Pattern → Language Char
  | blank => runs isBlank isBlank
  | number => decimals
  | hexNumber => hexadecimals
  | word => runs isWordStart isWordTail
  | lineComment => {['/', '/']}
  | blockComment => {['/', '*']}
  | quote kind mark => {kind.marker ++ [mark]}
  | symbol kind => {kind.text.toList}

/-! ### Words at the front of a text -/

/-- The first `length` characters of a text are a word of the language. -/
def Fits (language : Language Char) (text : List Char) (length : Nat) : Prop :=
  length ≤ text.length ∧ text.take length ∈ language

/-- The function finds the longest word of a language at the front of a text: it gives zero where
there is none, and the empty word is not in the language. -/
structure Measures (language : Language Char) (measure : List Char → Nat) : Prop where
  fits : ∀ text, 0 < measure text → Fits language text (measure text)
  le : ∀ text length, Fits language text length → length ≤ measure text
  pos : ∀ text length, Fits language text length → 0 < length

variable {text : List Char} {length : Nat} {first second : Language Char}
  {measure next whole : List Char → Nat} {p : Char → Bool}

/-- A word of a product is a word of the first language followed by one of the second. -/
theorem fits_mul : Fits (first * second) text length ↔
    ∃ m n, length = m + n ∧ Fits first text m ∧ Fits second (text.drop m) n := by
  constructor
  · rintro ⟨hle, hmem⟩
    obtain ⟨a, ha, b, hb, hab⟩ := Language.mem_mul.mp hmem
    obtain ⟨rest, rfl⟩ : ∃ rest, text = a ++ b ++ rest :=
      ⟨text.drop length, by rw [hab, List.take_append_drop]⟩
    have hlength : length = a.length + b.length := by
      have := congrArg List.length hab
      simp only [List.length_append, List.length_take] at this hle
      omega
    refine ⟨a.length, b.length, hlength, ⟨by simp, ?_⟩, ⟨by simp, ?_⟩⟩
    · simpa using ha
    · simpa using hb
  · rintro ⟨m, n, rfl, ⟨hm, hfirst⟩, ⟨hn, hsecond⟩⟩
    rw [List.length_drop] at hn
    refine ⟨by omega, ?_⟩
    rw [List.take_add]
    exact Language.mem_mul.mpr ⟨_, hfirst, _, hsecond, rfl⟩

/-- A word of either language is a word of their sum. -/
theorem fits_add : Fits (first + second) text length ↔
    Fits first text length ∨ Fits second text length := by
  unfold Fits
  rw [Language.mem_add]
  exact and_or_left

/-- A part that may be missing fits with nothing, or with a word of its language. -/
theorem fits_optional : Fits (optional first) text length ↔
    length = 0 ∨ Fits first text length := by
  unfold optional
  rw [fits_add]
  refine or_congr_left ?_
  unfold Fits
  rw [Language.mem_one, List.take_eq_nil_iff]
  constructor
  · rintro ⟨hle, rfl | rfl⟩
    · rfl
    · exact Nat.le_zero.mp hle
  · rintro rfl
    exact ⟨Nat.zero_le _, .inl rfl⟩

/-- A letter of a class is one character of the class. -/
theorem fits_letter : Fits (letter p) text length ↔
    length = 1 ∧ ∃ c cs, text = c :: cs ∧ p c = true := by
  constructor
  · rintro ⟨hle, c, hc, htake⟩
    have hlength : length = 1 := by
      have := congrArg List.length htake
      rw [List.length_take, List.length_singleton] at this
      omega
    subst hlength
    cases text with
    | nil => cases htake
    | cons d cs =>
      cases htake
      exact ⟨rfl, c, cs, rfl, hc⟩
  · rintro ⟨rfl, c, cs, rfl, hc⟩
    exact ⟨by simp, c, hc, rfl⟩

/-- The texts over a class are those that have no other character. -/
theorem mem_letter_kstar : text ∈ (letter p)∗ ↔ ∀ c ∈ text, p c = true := by
  constructor
  · intro h
    obtain ⟨words, rfl, hwords⟩ := Language.mem_kstar.mp h
    intro c hc
    obtain ⟨word, hword, hc⟩ := List.mem_flatten.mp hc
    obtain ⟨d, hd, rfl⟩ := hwords word hword
    exact List.mem_singleton.mp hc ▸ hd
  · intro h
    refine Language.mem_kstar.mpr ⟨text.map fun c => [c], ?_, ?_⟩
    · exact (List.flatMap_def ▸ List.flatMap_singleton' text).symm
    intro word hword
    obtain ⟨c, hc, rfl⟩ := List.mem_map.mp hword
    exact ⟨c, h c hc, rfl⟩

/-! ### Measures of languages -/

namespace Measures

/-- Runs, which end before the first character that cannot continue them. -/
theorem run (first tail : Char → Bool) : Measures (runs first tail) (runLength first tail) := by
  constructor
  · intro text hpos
    cases text with
    | nil => simp [runLength] at hpos
    | cons c cs =>
      simp only [runLength] at hpos ⊢
      split at hpos
      · next hc =>
        rw [if_pos hc, Nat.add_comm]
        refine fits_mul.mpr ⟨1, _, rfl, fits_letter.mpr ⟨rfl, c, cs, rfl, hc⟩, ?_, ?_⟩
        · exact (List.takeWhile_sublist tail).length_le
        · rw [mem_letter_kstar, List.drop_one, List.tail_cons,
            ← List.prefix_iff_eq_take.mp (List.takeWhile_prefix tail)]
          exact List.all_eq_true.mp List.all_takeWhile
      · simp at hpos
  · intro text length h
    obtain ⟨m, n, rfl, hm, hle, hmem⟩ := fits_mul.mp h
    obtain ⟨rfl, c, cs, rfl, hc⟩ := fits_letter.mp hm
    rw [mem_letter_kstar, List.drop_one, List.tail_cons] at hmem
    rw [List.drop_one, List.tail_cons] at hle
    simp only [runLength]
    rw [if_pos hc, Nat.add_comm]
    have hprefix : cs.take n <+: cs.takeWhile tail := by
      have := @List.takeWhile_append_of_pos _ tail _ (cs.drop n) hmem
      rw [List.take_append_drop] at this
      exact this ▸ List.prefix_append _ _
    have := hprefix.length_le
    rw [List.length_take_of_le hle] at this
    omega
  · intro text length h
    obtain ⟨m, n, rfl, hm, -⟩ := fits_mul.mp h
    have := (fits_letter.mp hm).1
    omega

/-- A fixed text. -/
theorem fixed {expected : List Char} (hne : expected ≠ []) :
    Measures {expected} (Pattern.fixed expected) := by
  have heq {text length} (h : Fits {expected} text length) :
      length = expected.length ∧ text = expected ++ text.drop length := by
    have htake : text.take length = expected := Set.mem_singleton_iff.mp h.2
    have hlength := congrArg List.length htake
    rw [List.length_take_of_le h.1] at hlength
    exact ⟨hlength, by rw [← htake, List.take_append_drop]⟩
  constructor
  · intro text hpos
    obtain ⟨hlength, rest, rfl⟩ := of_fixed_pos hpos
    rw [hlength]
    exact ⟨by simp, Set.mem_singleton_iff.mpr List.take_left⟩
  · intro text length h
    obtain ⟨hlength, htext⟩ := heq h
    rw [htext, fixed_append]
    exact hlength.le
  · intro text length h
    rw [(heq h).1]
    exact List.length_pos_iff.mpr hne

/-- A letter, and then a word. -/
theorem letter_mul (h : Measures first measure) (hnil : whole [] = 0)
    (hcons : ∀ c cs, whole (c :: cs) =
      if p c = true then (if measure cs = 0 then 0 else measure cs + 1) else 0) :
    Measures (letter p * first) whole := by
  constructor
  · intro text hpos
    cases text with
    | nil => omega
    | cons c cs =>
      rw [hcons] at hpos ⊢
      split at hpos
      · next hc =>
        split at hpos
        · omega
        · next hcs =>
          rw [if_pos hc, if_neg hcs, Nat.add_comm]
          exact fits_mul.mpr ⟨1, _, rfl, fits_letter.mpr ⟨rfl, c, cs, rfl, hc⟩,
            h.fits cs (Nat.pos_of_ne_zero hcs)⟩
      · omega
  · intro text length hfits
    obtain ⟨m, n, rfl, hm, hn⟩ := fits_mul.mp hfits
    obtain ⟨rfl, c, cs, rfl, hc⟩ := fits_letter.mp hm
    have hle := h.le cs n hn
    have hpos := h.pos cs n hn
    rw [hcons, if_pos hc, if_neg (by omega)]
    omega
  · intro text length hfits
    obtain ⟨m, n, rfl, hm, -⟩ := fits_mul.mp hfits
    have := (fits_letter.mp hm).1
    omega

/-- A letter or none, and then a word that does not begin with such a letter. -/
theorem optional_mul (h : Measures first measure)
    (hbegin : ∀ c cs, p c = true → measure (c :: cs) = 0) (hnil : whole [] = measure [])
    (hcons : ∀ c cs, whole (c :: cs) =
      if p c = true then (if measure cs = 0 then 0 else measure cs + 1) else measure (c :: cs)) :
    Measures (optional (letter p) * first) whole := by
  have hbare (text) (hpos : 0 < measure text) :
      Fits (optional (letter p) * first) text (measure text) :=
    fits_mul.mpr ⟨0, _, (Nat.zero_add _).symm, fits_optional.mpr (.inl rfl), h.fits text hpos⟩
  constructor
  · intro text hpos
    cases text with
    | nil => exact hnil ▸ hbare [] (hnil ▸ hpos)
    | cons c cs =>
      rw [hcons] at hpos ⊢
      split at hpos
      · next hc =>
        split at hpos
        · omega
        · next hcs =>
          rw [if_pos hc, if_neg hcs, Nat.add_comm]
          exact fits_mul.mpr ⟨1, _, rfl,
            fits_optional.mpr (.inr (fits_letter.mpr ⟨rfl, c, cs, rfl, hc⟩)),
            h.fits cs (Nat.pos_of_ne_zero hcs)⟩
      · next hc =>
        rw [if_neg hc]
        exact hbare _ hpos
  · intro text length hfits
    obtain ⟨m, n, rfl, hm, hn⟩ := fits_mul.mp hfits
    rcases fits_optional.mp hm with rfl | hm
    · rw [List.drop_zero] at hn
      have hle := h.le text n hn
      have hpos := h.pos text n hn
      cases text with
      | nil => omega
      | cons c cs =>
        have hc : ¬ p c = true := fun hc => by
          rw [hbegin c cs hc] at hle
          omega
        rw [hcons, if_neg hc]
        omega
    · obtain ⟨rfl, c, cs, rfl, hc⟩ := fits_letter.mp hm
      have hle := h.le cs n hn
      have hpos := h.pos cs n hn
      rw [hcons, if_pos hc, if_neg (by omega)]
      omega
  · intro text length hfits
    obtain ⟨m, n, rfl, -, hn⟩ := fits_mul.mp hfits
    have := h.pos _ n hn
    omega

/-- A word, and then perhaps another one, which begins with no character of the first. -/
theorem mul_optional (h : Measures first measure) (hnext : Measures second next)
    (hfree : ∀ text : List Char, Free p (text.take (measure text)))
    (hbegin : ∀ c cs, p c = false → next (c :: cs) = 0)
    (hwhole : ∀ text, whole text =
      if measure text = 0 then 0 else measure text + next (text.drop (measure text))) :
    Measures (first * optional second) whole := by
  constructor
  · intro text hpos
    rw [hwhole] at hpos ⊢
    split at hpos
    · omega
    · next hne =>
      rw [if_neg hne]
      refine fits_mul.mpr ⟨_, _, rfl, h.fits text (Nat.pos_of_ne_zero hne), fits_optional.mpr ?_⟩
      rcases Nat.eq_zero_or_pos (next (text.drop (measure text))) with h0 | hpos
      · exact .inl h0
      · exact .inr (hnext.fits _ hpos)
  · intro text length hfits
    obtain ⟨m, n, rfl, hm, hn⟩ := fits_mul.mp hfits
    have hle := h.le text m hm
    have hpos := h.pos text m hm
    rw [hwhole, if_neg (by omega)]
    rcases fits_optional.mp hn with rfl | hn
    · omega
    · rcases Nat.lt_or_eq_of_le hle with hlt | rfl
      · -- the second word would begin inside the longest first one
        have hnle := hnext.le _ n hn
        have hnpos := hnext.pos _ n hn
        have hin : m < text.length := Nat.lt_of_lt_of_le hlt (h.fits text (by omega)).1
        have hhead : p text[m] = false :=
          hfree text _ (List.mem_take_iff_getElem.mpr ⟨m, by omega, rfl⟩)
        rw [List.drop_eq_getElem_cons hin, hbegin _ _ hhead] at hnle
        omega
      · have := hnext.le _ n hn
        omega
  · intro text length hfits
    obtain ⟨m, n, rfl, hm, -⟩ := fits_mul.mp hfits
    have := h.pos _ m hm
    omega

/-- Words of either language. -/
theorem add (h : Measures first measure) (hnext : Measures second next)
    (hwhole : ∀ text, whole text = max (measure text) (next text)) :
    Measures (first + second) whole := by
  constructor
  · intro text hpos
    rw [hwhole] at hpos ⊢
    rw [fits_add]
    rcases Nat.le_total (measure text) (next text) with hle | hle
    · rw [Nat.max_eq_right hle] at hpos ⊢
      exact .inr (hnext.fits text hpos)
    · rw [Nat.max_eq_left hle] at hpos ⊢
      exact .inl (h.fits text hpos)
  · intro text length hfits
    rw [hwhole]
    rcases fits_add.mp hfits with hfits | hfits
    · exact Nat.le_trans (h.le _ _ hfits) (Nat.le_max_left _ _)
    · exact Nat.le_trans (hnext.le _ _ hfits) (Nat.le_max_right _ _)
  · intro text length hfits
    exact (fits_add.mp hfits).elim (h.pos _ _) (hnext.pos _ _)

end Measures

/-! ### Measures of patterns -/

/-- Runs of digits are measured by the length of a run. -/
theorem measures_digits : Measures digitRuns digits := .run _ _

/-- A fraction is measured by the point and the run after it. -/
theorem measures_fraction : Measures fractions fraction := by
  refine measures_digits.letter_mul rfl fun c cs => ?_
  by_cases hc : c = '.'
  · rw [hc]
    rfl
  · simp [fraction, hc]

/-- No run of digits begins with another character. -/
theorem digits_cons {c : Char} (hc : c.isDigit = false) (cs : List Char) : digits (c :: cs) = 0 := by
  simp [digits, runLength, hc]

/-- A run of digits has no character but digits and underscores. -/
theorem free_digits (hp : ∀ c, isDigitTail c = true → p c = false) (text : List Char) :
    Free p (text.take (digits text)) :=
  free_runLength (fun c hc => hp c (by simp [isDigitTail, hc])) hp text

/-- A fraction has no character that is neither a point nor of a run of digits. -/
theorem free_fraction (hp : ∀ c, isDigitTail c = true → p c = false) (hpoint : p '.' = false)
    (text : List Char) : Free p (text.take (fraction text)) := by
  unfold fraction
  split
  · split
    · simp
    · rw [List.take_succ_cons, Free.cons_iff]
      exact ⟨hpoint, free_digits hp _⟩
  · simp

/-- A sign is one of two characters. -/
theorem signLength_cons (c : Char) (cs : List Char) :
    signLength (c :: cs) = if (c == '+' || c == '-') = true then 1 else 0 := by
  unfold signLength
  split <;> simp_all

/-- An exponent is measured by its letter, its sign and the run after it, and by nothing if there is
no run. -/
theorem measures_exponent : Measures exponents exponent := by
  have hsigned : Measures (optional (letter fun c => c == '+' || c == '-') * digitRuns) fun cs =>
      if digits (cs.drop (signLength cs)) = 0 then 0
      else digits (cs.drop (signLength cs)) + signLength cs := by
    refine measures_digits.optional_mul (fun c cs hc => digits_cons ?_ cs) rfl fun c cs => ?_
    · rcases Bool.or_eq_true_iff.mp hc with hc | hc <;> rw [eq_of_beq hc] <;> rfl
    · rw [signLength_cons]
      by_cases hc : (c == '+' || c == '-') = true
      · rw [if_pos hc, if_pos hc]
        rfl
      · rw [if_neg hc, if_neg hc, List.drop_zero]
        split <;> omega
  refine hsigned.letter_mul rfl fun c cs => ?_
  rw [exponent_cons]
  by_cases hc : (c == 'e' || c == 'E') = true
  · rw [if_pos hc, if_pos hc]
    by_cases h0 : digits (cs.drop (signLength cs)) = 0
    · rw [if_pos h0, if_pos h0, if_pos rfl]
    · rw [if_neg h0, if_neg h0, if_neg (by omega)]
  · rw [if_neg hc, if_neg hc]

/-- No fraction begins with another character than a point. -/
theorem fraction_cons {c : Char} (hc : (c == '.') = false) (cs : List Char) :
    fraction (c :: cs) = 0 := by
  have : c ≠ '.' := by simpa using hc
  simp [fraction, this]

/-- Nor does an exponent with another than its letter. -/
theorem exponent_cons_eq_zero {c : Char} (hc : (c == 'e' || c == 'E') = false) (cs : List Char) :
    exponent (c :: cs) = 0 := by
  rw [exponent_cons, hc]
  rfl

/-- Digits and underscores are neither of two characters that are neither. -/
theorem isDigitTail_ne {a b : Char} (ha : isDigitTail a = false) (hb : isDigitTail b = false)
    (c : Char) (h : isDigitTail c = true) : (c == a || c == b) = false := by
  rw [Bool.or_eq_false_iff, beq_eq_false_iff_ne, beq_eq_false_iff_ne]
  constructor
  · rintro rfl
    exact absurd h (by rw [ha]; decide)
  · rintro rfl
    exact absurd h (by rw [hb]; decide)

/-- A decimal number is measured part by part, since no part takes what the next begins with. -/
theorem measures_decimal : Measures decimals decimal := by
  have hletter := isDigitTail_ne (a := 'e') (b := 'E') (by decide) (by decide)
  have hpoint (c : Char) (h : isDigitTail c = true) : (c == '.') = false :=
    (Bool.or_eq_false_iff.mp
      (isDigitTail_ne (a := '.') (b := '.') (by decide) (by decide) c h)).1
  have hmantissa := measures_digits.mul_optional measures_fraction (p := (· == '.'))
    (free_digits hpoint) (fun _ _ hc => fraction_cons hc _) fun _ => rfl
  have hwhole := hmantissa.mul_optional measures_exponent (p := fun c => c == 'e' || c == 'E')
    (fun text => by
      split
      · simp
      · exact .take_add (free_digits hletter _) (free_fraction hletter (by decide) _))
    (fun _ _ hc => exponent_cons_eq_zero hc _) fun _ => rfl
  have hpart := measures_fraction.mul_optional measures_exponent (p := fun c => c == 'e' || c == 'E')
    (free_fraction hletter (by decide)) (fun _ _ hc => exponent_cons_eq_zero hc _) fun _ => rfl
  refine hwhole.add hpart fun text => ?_
  unfold decimal
  by_cases h0 : digits text = 0
  · simp [h0]
  · -- no fraction begins with a digit
    have hfraction : fraction text = 0 := by
      cases text with
      | nil => rfl
      | cons c cs =>
        refine fraction_cons (Bool.eq_false_iff.mpr fun hc => h0 ?_) cs
        rw [eq_of_beq hc]
        rfl
    simp [h0, hfraction]

/-- A hexadecimal number is measured by its prefix and the run after it. -/
theorem measures_hexadecimal : Measures hexadecimals hexadecimal := by
  have hrest : Measures (letter (fun c => c == 'x' || c == 'X') * runs isHexDigit isHexTail)
      fun text => hexadecimal ('0' :: text) - 1 := by
    refine (Measures.run isHexDigit isHexTail).letter_mul rfl fun c cs => ?_
    rw [hexadecimal_cons]
    split
    · split <;> omega
    · rfl
  refine hrest.letter_mul rfl fun c cs => ?_
  by_cases hc : c = '0'
  · subst hc
    have hlong : hexadecimal ('0' :: cs) ≠ 1 := by
      cases cs with
      | nil => decide
      | cons x cs =>
        rw [hexadecimal_cons]
        split
        · split <;> omega
        · decide
    rw [if_pos (beq_self_eq_true _)]
    split <;> omega
  · simp [hexadecimal, hc]

/-- A pattern matches the longest word of its language. -/
theorem measures {pattern : Pattern} (hmem : pattern ∈ all) :
    Measures pattern.language pattern.matchLength := by
  cases pattern with
  | blank | word => exact .run _ _
  | number => exact measures_decimal
  | hexNumber => exact measures_hexadecimal
  | lineComment | blockComment => exact .fixed (by decide)
  | quote kind mark => exact .fixed (by simp)
  | symbol kind =>
    have hkind : ∀ kind ∈ Kind.symbols, kind.text.toList ≠ [] := by decide +kernel
    exact .fixed (hkind kind (by simpa [all] using hmem))

/-! ### The pattern of a word -/

/-- The pattern in whose language a word is, if there is one. -/
def ofWord : List Char → Pattern
  | [] => .blank
  | c :: cs =>
    if isBlank c then .blank
    else if isWordStart c && cs.all isWordTail then .word
    else if c.isDigit then
      if cs.head?.any fun x => x == 'x' || x == 'X' then .hexNumber else .number
    else if c == '.' && cs.head?.any Char.isDigit then .number
    else (all.find? (·.fixedText? == some (c :: cs))).getD .blank

/-- A word that is fixed is lexed by its own pattern. -/
theorem ofWord_fixedText : ∀ pattern ∈ all, ∀ expected,
    pattern.fixedText? = some expected → ofWord expected = pattern := by
  have hall : all.all (fun pattern =>
      pattern.fixedText?.all fun expected => ofWord expected == pattern) = true := by
    decide +kernel
  intro pattern hmem expected h
  have := List.all_eq_true.mp hall pattern hmem
  rw [h] at this
  exact eq_of_beq this

/-- A run is its first character and the others. -/
theorem mem_runs {p q : Char → Bool} {word : List Char} :
    word ∈ runs p q ↔ ∃ c cs, word = c :: cs ∧ p c = true ∧ ∀ d ∈ cs, q d = true := by
  constructor
  · intro h
    obtain ⟨a, ⟨c, hc, rfl⟩, cs, hcs, rfl⟩ := Language.mem_mul.mp h
    exact ⟨c, cs, rfl, hc, mem_letter_kstar.mp hcs⟩
  · rintro ⟨c, cs, rfl, hc, hcs⟩
    exact Language.mem_mul.mpr ⟨[c], ⟨c, hc, rfl⟩, cs, mem_letter_kstar.mpr hcs, rfl⟩

/-- A fraction is a point, a digit and more. -/
theorem mem_fractions {word : List Char} (h : word ∈ fractions) :
    ∃ d cs, word = '.' :: d :: cs ∧ d.isDigit = true := by
  obtain ⟨a, ⟨c, hc, rfl⟩, b, hb, rfl⟩ := Language.mem_mul.mp h
  obtain ⟨d, cs, rfl, hd, -⟩ := mem_runs.mp hb
  exact ⟨d, cs, by rw [eq_of_beq hc]; rfl, hd⟩

/-- What may be missing is empty, or of the language. -/
theorem mem_optional {language : Language Char} {word : List Char} :
    word ∈ optional language ↔ word = [] ∨ word ∈ language := by
  unfold optional
  rw [Language.mem_add, Language.mem_one]

/-- A decimal number begins with a digit, which no `x` follows, or with a point and a digit. -/
theorem mem_decimals {word : List Char} (h : word ∈ decimals) :
    (∃ c cs, word = c :: cs ∧ c.isDigit = true ∧
        (cs.head?.any fun x => x == 'x' || x == 'X') = false) ∨
      ∃ d cs, word = '.' :: d :: cs ∧ d.isDigit = true := by
  rcases (Language.mem_add _ _ _).mp h with h | h
  · obtain ⟨a, ha, b, hb, rfl⟩ := Language.mem_mul.mp h
    obtain ⟨whole, hwhole, part, hpart, rfl⟩ := Language.mem_mul.mp ha
    obtain ⟨c, cs, rfl, hc, hcs⟩ := mem_runs.mp hwhole
    refine .inl ⟨c, cs ++ part ++ b, by simp, hc, ?_⟩
    -- the first character after the first digit is of the run, the fraction or the exponent
    cases cs with
    | cons d cs => exact isDigitTail_ne (by decide) (by decide) d (hcs d List.mem_cons_self)
    | nil =>
      rcases mem_optional.mp hpart with rfl | hpart
      · rcases mem_optional.mp hb with rfl | hb
        · rfl
        · obtain ⟨l, ⟨e, he, rfl⟩, rest, -, rfl⟩ := Language.mem_mul.mp hb
          rcases Bool.or_eq_true_iff.mp he with he | he <;> rw [eq_of_beq he] <;> rfl
      · obtain ⟨d, rest, rfl, -⟩ := mem_fractions hpart
        rfl
  · obtain ⟨a, ha, b, -, rfl⟩ := Language.mem_mul.mp h
    obtain ⟨d, rest, rfl, hd⟩ := mem_fractions ha
    exact .inr ⟨d, rest ++ b, rfl, hd⟩

/-- No digit begins a word. -/
theorem isDigit_of_isWordStart {c : Char} (h : isWordStart c = true) : c.isDigit = false := by
  rw [Bool.eq_false_iff]
  intro hdigit
  unfold isWordStart Char.isAlpha Char.isUpper Char.isLower at h
  unfold Char.isDigit at hdigit
  simp only [Bool.or_eq_true, Bool.and_eq_true, decide_eq_true_eq, beq_iff_eq, ge_iff_le,
    UInt32.le_iff_toNat_le] at h hdigit
  obtain ⟨hlow, hhigh⟩ := hdigit
  rcases h with ((⟨h, -⟩ | ⟨h, -⟩) | rfl) | rfl
  · exact absurd (Nat.le_trans h hhigh) (by decide)
  · exact absurd (Nat.le_trans h hhigh) (by decide)
  · exact absurd hlow (by decide)
  · exact absurd hhigh (by decide)

/-- No digit is blank or begins a word. -/
theorem isDigit_ne {c : Char} (h : c.isDigit = true) :
    isBlank c = false ∧ isWordStart c = false := by
  refine ⟨foreign_isBlank.digit c h, Bool.eq_false_iff.mpr fun hstart => ?_⟩
  exact absurd (isDigit_of_isWordStart hstart) (by rw [h]; decide)

/-- No word is in the languages of two patterns. -/
theorem ofWord_eq {pattern : Pattern} (hmem : pattern ∈ all) {word : List Char}
    (h : word ∈ pattern.language) : ofWord word = pattern := by
  cases pattern with
  | blank =>
    obtain ⟨c, cs, rfl, hc, -⟩ := mem_runs.mp h
    simp [ofWord, hc]
  | word =>
    obtain ⟨c, cs, rfl, hc, hcs⟩ := mem_runs.mp h
    have hblank : isBlank c = false := foreign_isBlank.start c hc
    simp [ofWord, hc, hblank, List.all_eq_true.mpr hcs]
  | number =>
    rcases mem_decimals h with ⟨c, cs, rfl, hc, hx⟩ | ⟨d, cs, rfl, hd⟩
    · obtain ⟨hblank, hstart⟩ := isDigit_ne hc
      simp [ofWord, hblank, hstart, hc, hx]
    · have hblank : isBlank '.' = false := by decide
      have hstart : isWordStart '.' = false := by decide
      have hdigit : Char.isDigit '.' = false := by decide
      simp [ofWord, hblank, hstart, hdigit, hd]
  | hexNumber =>
    obtain ⟨a, ⟨c, hc, rfl⟩, b, hb, rfl⟩ := Language.mem_mul.mp h
    obtain ⟨l, ⟨x, hx, rfl⟩, rest, -, rfl⟩ := Language.mem_mul.mp hb
    have hdigit : c.isDigit = true := by
      rw [eq_of_beq hc]
      decide
    obtain ⟨hblank, hstart⟩ := isDigit_ne hdigit
    simp only [ofWord, List.cons_append, hblank, hstart, hdigit, Bool.false_and,
      Bool.false_eq_true, if_false, if_true]
    exact if_pos hx
  | lineComment | blockComment | quote kind mark | symbol kind =>
    rw [Set.mem_singleton_iff.mp h]
    exact ofWord_fixedText _ hmem _ rfl

/-! ### The longest match -/

/-- The first `length` characters are a word of the pattern, and no pattern has a longer one
there. -/
structure Longest (text : List Char) (pattern : Pattern) (length : Nat) : Prop where
  mem : pattern ∈ all
  fits : Fits pattern.language text length
  le : ∀ other ∈ all, ∀ n, Fits other.language text n → n ≤ length

/-- There is one longest match at the most. -/
theorem Longest.unique {pattern other : Pattern} {m n : Nat} (h : Longest text pattern m)
    (hother : Longest text other n) : pattern = other ∧ m = n := by
  obtain rfl := Nat.le_antisymm (hother.le _ h.mem _ h.fits) (h.le _ hother.mem _ hother.fits)
  exact ⟨(ofWord_eq h.mem h.fits.2).symm.trans (ofWord_eq hother.mem hother.fits.2), rfl⟩

/-- The pattern that is chosen has a word at the front, and no pattern has a longer one. -/
theorem longest_of_eq_some {pattern : Pattern} (h : longest? text = some (pattern, length)) :
    Longest text pattern length := by
  obtain ⟨hmem, rfl, hpos, hall⟩ := longest?_eq_some h
  exact ⟨hmem, (measures hmem).fits _ hpos,
    fun other hother n hn => Nat.le_trans ((measures hother).le _ _ hn) (hall other hother)⟩

/-- The pattern chosen is the one with the longest word at the front of the text. -/
theorem longest?_eq_some_iff {pattern : Pattern} :
    longest? text = some (pattern, length) ↔ Longest text pattern length := by
  refine ⟨longest_of_eq_some, fun h => ?_⟩
  cases hfound : longest? text with
  | none =>
    have hle := (measures h.mem).le _ _ h.fits
    have hpos := (measures h.mem).pos _ _ h.fits
    rw [matchLength_of_longest?_eq_none hfound h.mem] at hle
    omega
  | some found =>
    obtain ⟨rfl, rfl⟩ := (longest_of_eq_some hfound).unique h
    rfl

/-- No pattern is chosen where none has a word at the front of the text. -/
theorem longest?_eq_none_iff :
    longest? text = none ↔ ∀ pattern ∈ all, ∀ n, ¬ Fits pattern.language text n := by
  constructor
  · intro h pattern hmem n hfits
    have hle := (measures hmem).le _ _ hfits
    have hpos := (measures hmem).pos _ _ hfits
    rw [matchLength_of_longest?_eq_none h hmem] at hle
    omega
  · intro h
    refine Option.eq_none_iff_forall_ne_some.mpr fun ⟨pattern, n⟩ hfound => ?_
    have hlongest := longest_of_eq_some hfound
    exact h pattern hlongest.mem n hlongest.fits

end Pattern

end SolidityParser
