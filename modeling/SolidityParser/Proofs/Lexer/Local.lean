import SolidityParser.Proofs.Lexer.Comments

/-!
# Lengths that a cut does not change

How much of a text a pattern matches, and where a comment or a string ends, does not depend on what
comes after: with the text cut off behind, each is as long as before (`matchLength_append`,
`longest?_append`, `stringEnd?_append`). A pattern that would match beyond the cut is another
matter, but no such pattern was chosen.
-/

namespace SolidityParser

/-! ### Patterns -/

namespace Pattern

variable {before after : List Char}

/-- A length that a cut behind it does not change. -/
def Local (length : List Char → Nat) : Prop :=
  ∀ before after, length (before ++ after) ≤ before.length → length before = length (before ++ after)

/-- A run of characters that ends before a cut is the same without what stands behind the cut. -/
theorem takeWhile_append_of_length_le {p : Char → Bool}
    (h : ((before ++ after).takeWhile p).length ≤ before.length) :
    (before ++ after).takeWhile p = before.takeWhile p := by
  rw [List.takeWhile_append] at h ⊢
  split
  · next hall =>
    rw [if_pos hall, List.length_append] at h
    have hnil : after.takeWhile p = [] := List.length_eq_zero_iff.mp (by omega)
    rw [hnil, List.append_nil]
    exact ((List.takeWhile_prefix p).eq_of_length hall).symm
  · rfl

/-- Hence a run is as long as before if it ends before the cut. -/
theorem local_runLength (first tail : Char → Bool) : Local (runLength first tail) := by
  intro before after h
  cases before with
  | nil => exact (Nat.le_zero.mp h).symm
  | cons c cs =>
    simp only [List.cons_append, runLength, List.length_cons] at h ⊢
    split at h
    · next hc =>
      rw [if_pos hc, if_pos hc, takeWhile_append_of_length_le (by omega)]
    · next hc => rw [if_neg hc, if_neg hc]

/-- So is a row of digits. -/
theorem local_digits : Local digits := local_runLength _ _

/-- So is a fraction, which is a point and digits. -/
theorem local_fraction : Local fraction := by
  intro before after h
  cases before with
  | nil => exact (Nat.le_zero.mp h).symm
  | cons c cs =>
    by_cases hc : c = '.'
    · subst hc
      have hrun := local_digits cs after
      simp only [List.cons_append, fraction, List.length_cons] at h ⊢
      split at h
      · next h0 => rw [if_pos h0, if_pos (by rw [hrun (by omega), h0])]
      · next h0 => rw [hrun (by omega)]
    · simp [fraction, hc]

/-- Length of the sign at the front of an exponent. -/
def signLength : List Char → Nat
  | '+' :: _ | '-' :: _ => 1
  | _ => 0

/-- An exponent is a letter, a sign that may be missing, and digits. -/
theorem exponent_cons (c : Char) (cs : List Char) :
    exponent (c :: cs) =
      if c == 'e' || c == 'E' then
        if digits (cs.drop (signLength cs)) = 0 then 0
        else digits (cs.drop (signLength cs)) + signLength cs + 1
      else 0 := rfl

/-- The sign after the letter does not see what comes after it. -/
theorem signLength_cons_append (c : Char) (cs after : List Char) :
    signLength (c :: cs ++ after) = signLength (c :: cs) := by
  unfold signLength
  split <;> split <;> simp_all

/-- Nor is it longer than the text. -/
theorem signLength_le (c : Char) (cs : List Char) : signLength (c :: cs) ≤ (c :: cs).length := by
  unfold signLength
  split <;> simp

/-- So an exponent is as long as before, with the sign and the digits both before the cut. -/
theorem local_exponent : Local exponent := by
  intro before after h
  cases before with
  | nil => exact (Nat.le_zero.mp h).symm
  | cons c cs =>
    rw [List.cons_append, exponent_cons] at h ⊢
    rw [exponent_cons]
    split at h
    · next hc =>
      rw [if_pos hc, if_pos hc]
      cases cs with
      | nil =>
        -- an exponent needs a digit, which would lie beyond the cut
        rw [List.nil_append] at h ⊢
        split at h
        · next h0 =>
          rw [if_pos h0]
          rfl
        · simp only [List.length_cons, List.length_nil] at h
          omega
      | cons d ds =>
        rw [signLength_cons_append] at h ⊢
        have hle := signLength_le d ds
        rw [List.drop_append_of_le_length hle] at h ⊢
        have hrun := local_digits ((d :: ds).drop (signLength (d :: ds))) after
        rw [List.length_drop] at hrun
        split at h
        · next h0 => rw [if_pos h0, if_pos (by rw [hrun (by omega), h0])]
        · next h0 =>
          rw [List.length_cons] at h
          rw [hrun (by omega)]
    · next hc => rw [if_neg hc, if_neg hc]

/-- A decimal number is a fraction after digits or by itself, and an exponent. -/
theorem local_decimal : Local decimal := by
  intro before after h
  unfold decimal at h ⊢
  dsimp only at h ⊢
  split at h
  · next h0 =>
    have hwhole := local_digits before after (by omega)
    have hwhole0 : digits before = 0 := by omega
    rw [if_pos h0]
    have hfraction : fraction before = 0 := by
      have := local_fraction before after
      have h0' : digits (before ++ after) = 0 := by omega
      rw [h0', List.drop_zero] at h0
      omega
    rw [if_pos (by rw [hwhole0, List.drop_zero, hfraction])]
  · next h0 =>
    have hwhole := local_digits before after (by omega)
    rw [← hwhole] at h h0 ⊢
    have hle : digits before ≤ before.length := by omega
    rw [List.drop_append_of_le_length hle] at h h0 ⊢
    have hfraction := local_fraction (before.drop (digits before)) after
    rw [List.length_drop] at hfraction
    replace hfraction := hfraction (by omega)
    rw [← hfraction] at h h0 ⊢
    rw [List.drop_append_of_le_length (by omega)] at h ⊢
    have hexponent := local_exponent
      (before.drop (digits before + fraction (before.drop (digits before)))) after
    rw [List.length_drop] at hexponent
    rw [if_neg h0, if_neg h0, hexponent (by omega)]

/-- A hexadecimal number is a zero, a letter and digits. -/
theorem hexadecimal_cons (x : Char) (cs : List Char) :
    hexadecimal ('0' :: x :: cs) =
      if x == 'x' || x == 'X' then
        if runLength isHexDigit isHexTail cs = 0 then 0
        else runLength isHexDigit isHexTail cs + 2
      else 0 := rfl

/-- It is as long as before too, since its digits are a run. -/
theorem local_hexadecimal : Local hexadecimal := by
  intro before after h
  match before with
  | [] => exact (Nat.le_zero.mp h).symm
  | [c] =>
    -- a hexadecimal number has three characters at least
    have hone : hexadecimal [c] = 0 := by
      unfold hexadecimal
      split <;> simp_all
    rw [hone]
    unfold hexadecimal at h ⊢
    split at h
    · next x cs heq =>
      dsimp only at h ⊢
      split at h
      · next hx =>
        split at h
        · next h0 => rw [if_pos hx, if_pos h0]
        · simp at h
      · next hx => rw [if_neg hx]
    · rfl
  | c :: x :: cs =>
    by_cases hc : c = '0'
    · subst hc
      have hrun := local_runLength isHexDigit isHexTail cs after
      rw [List.cons_append, List.cons_append, hexadecimal_cons] at h ⊢
      rw [hexadecimal_cons]
      simp only [List.length_cons] at h
      split at h
      · next hx =>
        rw [if_pos hx, if_pos hx]
        split at h
        · next h0 => rw [if_pos h0, if_pos (by rw [hrun (by omega), h0])]
        · rw [hrun (by omega)]
      · next hx => rw [if_neg hx, if_neg hx]
    · simp [hexadecimal, hc]

/-- A fixed text stands in front of the cut, or does not. -/
theorem local_fixed (expected : List Char) : Local (fixed expected) := by
  intro before after h
  unfold fixed at h ⊢
  split at h
  · next hprefix =>
    rw [if_pos hprefix, if_pos]
    rw [List.isPrefixOf_iff_prefix] at hprefix ⊢
    exact List.prefix_of_prefix_length_le hprefix (List.prefix_append _ _) h
  · next hprefix =>
    rw [if_neg hprefix, if_neg]
    rw [List.isPrefixOf_iff_prefix] at hprefix ⊢
    exact fun hbefore => hprefix (hbefore.trans (List.prefix_append _ _))

/-! A match is no longer than its text. -/

/-- A run is in the text. -/
theorem runLength_le (first tail : Char → Bool) (text : List Char) :
    runLength first tail text ≤ text.length := by
  cases text with
  | nil => exact Nat.le_refl _
  | cons c cs =>
    have := (List.takeWhile_sublist (p := tail) (l := cs)).length_le
    simp only [runLength, List.length_cons]
    split <;> omega

/-- So is a fraction. -/
theorem fraction_le (text : List Char) : fraction text ≤ text.length := by
  unfold fraction
  split
  · next cs =>
    have : digits cs ≤ cs.length := runLength_le _ _ cs
    rw [List.length_cons]
    split <;> omega
  · exact Nat.zero_le _

/-- So is an exponent. -/
theorem exponent_le (text : List Char) : exponent text ≤ text.length := by
  cases text with
  | nil => exact Nat.le_refl _
  | cons c cs =>
    have : digits (cs.drop (signLength cs)) ≤ (cs.drop (signLength cs)).length :=
      runLength_le _ _ _
    rw [List.length_drop] at this
    rw [exponent_cons, List.length_cons]
    split
    · split <;> omega
    · exact Nat.zero_le _

/-- No pattern matches more than there is. -/
theorem matchLength_le (pattern : Pattern) (text : List Char) :
    pattern.matchLength text ≤ text.length := by
  have hfixed (expected : List Char) : fixed expected text ≤ text.length := by
    by_cases h : 0 < fixed expected text
    · obtain ⟨hlength, rest, rfl⟩ := of_fixed_pos h
      rw [hlength, List.length_append]
      omega
    · omega
  cases pattern with
  | blank | word => exact runLength_le _ _ _
  | lineComment | blockComment | quote | symbol => exact hfixed _
  | number =>
    have hdigits : digits text ≤ text.length := runLength_le _ _ _
    have hfraction := fraction_le (text.drop (digits text))
    have hexponent := exponent_le
      (text.drop (digits text + fraction (text.drop (digits text))))
    rw [List.length_drop] at hfraction hexponent
    simp only [matchLength, decimal]
    split <;> omega
  | hexNumber =>
    simp only [matchLength]
    unfold hexadecimal
    split
    · next x cs =>
      have := runLength_le isHexDigit isHexTail cs
      simp only [List.length_cons]
      split
      · split <;> omega
      · omega
    · exact Nat.zero_le _

/-- A pattern matches as much before a cut as without one, unless it matches beyond it. -/
theorem matchLength_append (pattern : Pattern) : Local pattern.matchLength := by
  cases pattern with
  | blank => exact local_runLength _ _
  | lineComment => exact local_fixed _
  | blockComment => exact local_fixed _
  | quote kind mark => exact local_fixed _
  | number => exact local_decimal
  | hexNumber => exact local_hexadecimal
  | word => exact local_runLength _ _
  | symbol kind => exact local_fixed _

/-- The same pattern is chosen before a cut behind its match. -/
theorem longest?_append
    (h : ∀ found, longest? (before ++ after) = some found → found.2 ≤ before.length) :
    longest? before = longest? (before ++ after) := by
  have hall : ∀ pattern ∈ all,
      pattern.matchLength before = pattern.matchLength (before ++ after) := by
    intro pattern hpattern
    apply matchLength_append
    cases hlongest : longest? (before ++ after) with
    | none =>
      rw [matchLength_of_longest?_eq_none hlongest hpattern]
      exact Nat.zero_le _
    | some found =>
      obtain ⟨best, length⟩ := found
      exact Nat.le_trans ((longest?_eq_some hlongest).2.2.2 pattern hpattern) (h _ hlongest)
  unfold longest?
  rw [List.map_congr_left fun pattern hpattern => by rw [hall pattern hpattern]]

end Pattern

/-! ### Delimiters -/

namespace Delimiter

variable {before after : List Char}

/-- A line comment that ends before a cut ends there without what is behind it. -/
theorem lineCommentEnd_append (h : lineCommentEnd (before ++ after) ≤ before.length) :
    lineCommentEnd before = lineCommentEnd (before ++ after) := by
  unfold lineCommentEnd at h ⊢
  rw [Pattern.takeWhile_append_of_length_le h]

/-- So does a block comment. -/
theorem blockCommentEnd?_append {length : Nat}
    (h : blockCommentEnd? (before ++ after) = some length) (hle : length ≤ before.length) :
    blockCommentEnd? before = some length := by
  induction before generalizing length with
  | nil =>
    -- a comment is closed by two characters
    obtain rfl := Nat.le_zero.mp hle
    unfold blockCommentEnd? at h
    split at h
    · split at h
      · cases h
      · simp at h
    · cases h
  | cons star before ih =>
    cases before with
    | nil =>
      cases after with
      | nil => simp [blockCommentEnd?] at h
      | cons slash after =>
        simp only [List.cons_append, List.nil_append, blockCommentEnd?] at h
        split at h
        · cases h
          simp at hle
        · obtain ⟨inner, hinner, rfl⟩ := Option.map_eq_some_iff.mp h
          obtain rfl : inner = 0 := by simpa using hle
          have := ih hinner (Nat.le_refl _)
          cases this
    | cons slash before =>
      simp only [List.cons_append, blockCommentEnd?] at h ⊢
      split at h
      · next hclose => rwa [if_pos hclose]
      · next hclose =>
        rw [if_neg hclose]
        obtain ⟨inner, hinner, rfl⟩ := Option.map_eq_some_iff.mp h
        rw [ih hinner (by simp at hle ⊢; omega)]
        rfl

/-- A block comment ends in the text. -/
theorem blockCommentEnd?_le {text : List Char} {length : Nat}
    (h : blockCommentEnd? text = some length) : length ≤ text.length := by
  induction text generalizing length with
  | nil => cases h
  | cons star text ih =>
    cases text with
    | nil => cases h
    | cons slash text =>
      simp only [blockCommentEnd?] at h
      split at h
      · cases h
        simp
      · obtain ⟨inner, hinner, rfl⟩ := Option.map_eq_some_iff.mp h
        have := ih hinner
        simp only [List.length_cons] at this ⊢
        omega

/-- The end of a string, found one character after the other. -/
def stringBody? (quote : Char) : List Char → Option Nat
  | [] => none
  | c :: cs =>
    if c = CodeUnit.ofAscii '\\' then
      match cs with
      | [] => none
      | _ :: later => (stringBody? quote later).map (2 + ·)
    else if isLineEnd c then none
    else if c = quote then some 1
    else (stringBody? quote cs).map (1 + ·)

/-- Where the search for the end of a string may not stop, it goes on to the next character. -/
theorem stringEndAtFuel?_skip {quote c : Char} (hc : isStop quote c = false) (fuel : Nat)
    (cs : List Char) :
    stringEndAtFuel? quote (fuel + 1) (c :: cs) =
      (stringEndAtFuel? quote (fuel + 1) cs).map (1 + ·) := by
  unfold stringEndAtFuel?
  rw [List.findIdx?_cons, hc]
  cases cs.findIdx? (isStop quote) with
  | none => rfl
  | some found =>
    simp only [Bool.false_eq_true, if_false, Option.map_some, List.drop_succ_cons]
    cases cs.drop found with
    | nil => rfl
    | cons unit after =>
      dsimp only
      split
      · cases after with
        | nil => rfl
        | cons d later =>
          simp only [Option.map_map, Function.comp_def]
          congr 1
          funext n
          omega
      · split
        · rfl
        · simp only [Option.map_some]
          congr 1
          omega

/-- The body of a string by its first character: an escape takes one more with it, a line end leaves
the string open, the quote closes it. -/
theorem stringBody?_cons (quote c : Char) (cs : List Char) :
    stringBody? quote (c :: cs) =
      if c = CodeUnit.ofAscii '\\' then
        match cs with
        | [] => none
        | _ :: later => (stringBody? quote later).map (2 + ·)
      else if isLineEnd c then none
      else if c = quote then some 1
      else (stringBody? quote cs).map (1 + ·) := by
  conv => lhs; unfold stringBody?

/-- The search from stop to stop finds the end that the search character by character does. -/
theorem stringEndAtFuel?_eq (quote : Char) : (text : List Char) → (fuel : Nat) →
    text.length < fuel → stringEndAtFuel? quote fuel text = stringBody? quote text
  | [], _ + 1, _ => rfl
  | c :: cs, fuel + 1, hfuel => by
    rw [List.length_cons] at hfuel
    rw [stringBody?_cons]
    cases hstop : isStop quote c with
    | false =>
      have hstop' := hstop
      unfold isStop at hstop'
      simp only [Bool.or_eq_false_iff, beq_eq_false_iff_ne] at hstop'
      obtain ⟨⟨hquote, hslash⟩, hline⟩ := hstop'
      rw [stringEndAtFuel?_skip hstop, stringEndAtFuel?_eq quote cs (fuel + 1) (by omega),
        if_neg hslash, if_neg (by simp [hline]), if_neg hquote]
    | true =>
      unfold stringEndAtFuel?
      rw [List.findIdx?_cons, hstop]
      simp only [if_true, List.drop_zero]
      by_cases hslash : c = CodeUnit.ofAscii '\\'
      · rw [if_pos hslash, if_pos hslash]
        cases cs with
        | nil => rfl
        | cons d later =>
          rw [List.length_cons] at hfuel
          simp only [stringEndAtFuel?_eq quote later fuel (by omega), Nat.zero_add]
      · rw [if_neg hslash, if_neg hslash]
        cases hline : isLineEnd c with
        | true => rfl
        | false =>
          have hquote : c = quote := by
            unfold isStop at hstop
            rw [hline] at hstop
            simpa [show (c == CodeUnit.ofAscii '\\') = false from beq_false_of_ne hslash] using hstop
          rw [if_pos hquote]

/-- The end of a string is found where its body ends. -/
theorem stringEnd?_eq (quote : Char) (text : List Char) :
    stringEnd? quote text = stringBody? quote text :=
  stringEndAtFuel?_eq quote text _ (Nat.lt_succ_self _)

/-- A body takes at least the quote that closes it. -/
theorem stringBody?_pos {quote : Char} {text : List Char} {length : Nat}
    (h : stringBody? quote text = some length) : 0 < length := by
  cases text with
  | nil => cases h
  | cons c cs =>
    rw [stringBody?_cons] at h
    split at h
    · split at h
      · cases h
      · obtain ⟨n, -, rfl⟩ := Option.map_eq_some_iff.mp h
        omega
    · split at h
      · cases h
      · split at h
        · cases h
          exact Nat.one_pos
        · obtain ⟨n, -, rfl⟩ := Option.map_eq_some_iff.mp h
          omega

/-- A string ends before a cut if it ends there without the cut. -/
theorem stringBody?_append (quote : Char) (after : List Char) : (before : List Char) →
    (length : Nat) → (stringBody? quote before = some length ↔
      stringBody? quote (before ++ after) = some length ∧ length ≤ before.length)
  | [], length => by
    refine ⟨nofun, fun ⟨h, hle⟩ => ?_⟩
    have := stringBody?_pos h
    simp at hle
    omega
  | [c], length => by
    rw [List.cons_append, List.nil_append, stringBody?_cons, stringBody?_cons]
    by_cases hslash : c = CodeUnit.ofAscii '\\'
    · simp only [if_pos hslash]
      refine ⟨nofun, fun ⟨h, hle⟩ => ?_⟩
      split at h
      · cases h
      · obtain ⟨n, -, rfl⟩ := Option.map_eq_some_iff.mp h
        simp at hle
        omega
    · simp only [if_neg hslash]
      split
      · simp
      · split
        · simp only [Option.some_inj, List.length_singleton]
          omega
        · refine ⟨nofun, fun ⟨h, hle⟩ => ?_⟩
          obtain ⟨n, hn, rfl⟩ := Option.map_eq_some_iff.mp h
          have := stringBody?_pos hn
          simp at hle
          omega
  | c :: d :: cs, length => by
    rw [List.cons_append, List.cons_append, stringBody?_cons quote c (d :: cs),
      stringBody?_cons quote c (d :: (cs ++ after))]
    by_cases hslash : c = CodeUnit.ofAscii '\\'
    · simp only [if_pos hslash, Option.map_eq_some_iff, List.length_cons]
      have ih := stringBody?_append quote after cs
      constructor
      · rintro ⟨n, hn, rfl⟩
        obtain ⟨hn, hle⟩ := (ih n).mp hn
        exact ⟨⟨n, hn, rfl⟩, by omega⟩
      · rintro ⟨⟨n, hn, rfl⟩, hle⟩
        exact ⟨n, (ih n).mpr ⟨hn, by omega⟩, rfl⟩
    · simp only [if_neg hslash]
      split
      · simp
      · split
        · simp only [Option.some_inj, List.length_cons]
          omega
        · simp only [Option.map_eq_some_iff]
          have ih := stringBody?_append quote after (d :: cs)
          simp only [List.cons_append, List.length_cons] at ih ⊢
          constructor
          · rintro ⟨n, hn, rfl⟩
            obtain ⟨hn, hle⟩ := (ih n).mp hn
            exact ⟨⟨n, hn, rfl⟩, by omega⟩
          · rintro ⟨⟨n, hn, rfl⟩, hle⟩
            exact ⟨n, (ih n).mpr ⟨hn, by omega⟩, rfl⟩

/-- A string ends before a cut exactly if it ends there in the whole text. -/
theorem stringEnd?_append {quote : Char} {length : Nat} :
    stringEnd? quote before = some length ↔
      stringEnd? quote (before ++ after) = some length ∧ length ≤ before.length := by
  rw [stringEnd?_eq, stringEnd?_eq]
  exact stringBody?_append quote after before length

end Delimiter

end SolidityParser
