import Mathlib.Algebra.Order.Field.Rat
import Mathlib.Data.Nat.Digits.Lemmas
import Mathlib.Tactic.FieldSimp
import Mathlib.Tactic.NormNum
import SolidityParser.Proofs.Literal.Numeral

/-!
# Exact values of number literals

The value of a literal is exact if the number that its text denotes is a natural number below
`2 ^ 128`, and not otherwise, but for some literals of zero and, in texts of a length that does not
occur, some with exponents that do not fit in sixty-four bits. These are the lost numerals
(`Numeral.Lost`), which come out as doubles whatever they denote
(`NumberValue.ofLiteral_eq_integer_iff`).

The digits are taken with a scale, the power of ten that they are multiplied with. Zeros at the end
of the digits are dropped to raise a negative scale, so what is left ends in another digit or the
scale is not negative (`NumberValue.dropZeros_spec`). In the first case the number is no integer,
unless no digit is left: then it is zero, and lost.
-/

namespace SolidityParser

namespace Numeral

/-- Numerals that are rounded whatever they denote: the exponent, less the places, does not fit in
sixty-four bits, or the digits are all zero and the exponent moves the point to the left of all of
them. -/
def Lost : Numeral → Prop
  | decimal whole places exponent =>
    2 ^ 63 ≤ exponent ∨ exponent - places.length < -2 ^ 63 ∨
      (positional 10 (whole ++ places) = 0 ∧ exponent + whole.length < 0)
  | hexadecimal _ => False

variable {text digits : List Char} {whole places : List Nat} {exponent : Int} {numeral : Numeral}

/-- Digits in front count for more by a power of the base for each digit behind. -/
theorem positional_append (base : Nat) (front back : List Nat) :
    positional base (front ++ back) =
      positional base front * base ^ back.length + positional base back := by
  unfold positional
  rw [List.reverse_append, Nat.ofDigits_append, List.length_reverse, Nat.add_comm, Nat.mul_comm]

/-- A decimal numeral denotes its digits, scaled by a power of ten. -/
theorem value_decimal (whole places : List Nat) (exponent : Int) :
    (decimal whole places exponent).value =
      positional 10 (whole ++ places) * 10 ^ (exponent - places.length) := by
  unfold value
  rw [positional_append, zpow_sub₀ (by norm_num), zpow_natCast]
  push_cast
  field_simp

/-- A natural number times a power of ten, as an equation between natural numbers. -/
theorem mul_zpow_eq_iff {n v : Nat} {scale : Int} (h : 0 ≤ scale) :
    (n * 10 ^ scale : ℚ) = v ↔ n * 10 ^ scale.toNat = v := by
  obtain ⟨k, rfl⟩ := Int.eq_ofNat_of_zero_le h
  rw [Int.toNat_natCast, zpow_natCast]
  exact_mod_cast Iff.rfl

/-- A natural number divided by a power of ten, as an equation between natural numbers. -/
theorem mul_zpow_neg_eq_iff {n v : Nat} {scale : Int} (h : scale ≤ 0) :
    (n * 10 ^ scale : ℚ) = v ↔ n = v * 10 ^ (-scale).toNat := by
  obtain ⟨k, hk⟩ := Int.eq_ofNat_of_zero_le (Int.neg_nonneg.mpr h)
  obtain rfl : scale = -(k : Int) := by omega
  rw [neg_neg, Int.toNat_natCast, zpow_neg, zpow_natCast, ← div_eq_mul_inv,
    div_eq_iff (by positivity)]
  exact_mod_cast Iff.rfl

end Numeral

namespace NumberValue

variable {digits reversed : List Char} {scale : Int} {v : Nat}

/-- One more digit multiplies by the base, and adds its value. -/
theorem ofDigits_concat (base : Nat) (digits : List Char) (c : Char) :
    ofDigits base (digits ++ [c]) = ofDigits base digits * base + digitValue c := by
  unfold ofDigits
  rw [List.foldl_append]
  rfl

/-- Zeros behind multiply by powers of ten. -/
theorem ofDigits_append_zeros (digits : List Char) (count : Nat) :
    ofDigits 10 (digits ++ List.replicate count '0') = ofDigits 10 digits * 10 ^ count := by
  induction count with
  | zero => rw [List.replicate_zero, List.append_nil, pow_zero, Nat.mul_one]
  | succ count ih =>
    rw [List.replicate_succ', ← List.append_assoc, ofDigits_concat, ih, pow_succ, Nat.mul_assoc]
    rfl

/-- Zeros are dropped for as long as the scale is negative. -/
theorem dropZeros_spec (reversed : List Char) (scale : Int) : ∃ count : Nat,
    reversed = List.replicate count '0' ++ (dropZeros reversed scale).1 ∧
      (dropZeros reversed scale).2 = scale + count ∧
      (0 ≤ (dropZeros reversed scale).2 ∨ ∀ c ∈ (dropZeros reversed scale).1.head?, c ≠ '0') := by
  fun_induction dropZeros reversed scale with
  | case1 scale digits hneg ih =>
    obtain ⟨count, hdigits, hscale, hrest⟩ := ih
    refine ⟨count + 1, ?_, by rw [hscale]; push_cast; omega, hrest⟩
    rw [List.replicate_succ, List.cons_append, ← hdigits]
  | case2 scale digits hneg => exact ⟨0, rfl, (Int.add_zero _).symm, .inl (Int.not_lt.mp hneg)⟩
  | case3 digits scale hzero =>
    refine ⟨0, rfl, (Int.add_zero _).symm, .inr fun c hc => ?_⟩
    rintro rfl
    obtain ⟨rest, rfl⟩ : ∃ rest, digits = '0' :: rest := by
      cases digits with
      | nil => cases hc
      | cons d rest => cases hc; exact ⟨rest, rfl⟩
    exact hzero _ rfl

/-- Powers of ten beyond the thirty-eighth are out of bounds. -/
theorem integerBound_le_pow {k : Nat} (h : 38 < k) : integerBound ≤ 10 ^ k :=
  calc integerBound ≤ 10 ^ 39 := by decide
    _ ≤ 10 ^ k := Nat.pow_le_pow_right (by decide) h

/-- A scale that is not negative gives the exact value wherever it is below the bound. -/
theorem exactly?_eq_some_iff {scale : Nat} : exactly? reversed scale = some v ↔
    ofDigits 10 reversed.reverse * 10 ^ scale = v ∧ v < integerBound := by
  unfold exactly?
  generalize ofDigits 10 reversed.reverse = base
  have hpow : 1 ≤ 10 ^ scale := Nat.one_le_pow _ _ (by decide)
  simp only [Nat.pow_eq]
  split
  · -- the digits alone reach the bound
    rename_i hbase
    have : base ≤ base * 10 ^ scale := Nat.le_mul_of_pos_right _ hpow
    refine iff_of_false nofun ?_
    rintro ⟨rfl, hv⟩
    omega
  · split
    · rename_i hzero
      rw [hzero, Nat.zero_mul]
      refine ⟨?_, ?_⟩
      · rintro ⟨⟩
        exact ⟨rfl, Nat.two_pow_pos 128⟩
      · rintro ⟨rfl, -⟩
        rfl
    · rename_i hzero
      split
      · -- the power alone reaches the bound
        rename_i hscale
        have := integerBound_le_pow hscale
        have : 10 ^ scale ≤ base * 10 ^ scale :=
          Nat.le_mul_of_pos_left _ (Nat.pos_of_ne_zero hzero)
        refine iff_of_false nofun ?_
        rintro ⟨rfl, hv⟩
        omega
      · split
        · rename_i hlt
          rw [Option.some_inj]
          exact ⟨fun h => ⟨h, h ▸ hlt⟩, And.left⟩
        · rename_i hle
          refine iff_of_false nofun ?_
          rintro ⟨rfl, hv⟩
          exact hle hv

/-- A digit other than zero has a value other than zero. -/
theorem digitValue_ne_zero {c : Char} (hc : c.isDigit = true) (hne : c ≠ '0') :
    digitValue c ≠ 0 := by
  obtain ⟨-, signs, hsigns, hsign⟩ := digitSigns_digitValue (isHexDigit_of_isDigit hc)
  have hfirst : ∀ signs ∈ digitSigns, signs[0]? = some '0' := by decide
  intro hzero
  rw [hzero, hfirst signs hsigns] at hsign
  exact hne (Option.some.inj hsign).symm

/-- Digits that end in another digit than zero denote no multiple of ten. -/
theorem ofDigits_reverse_mod {c : Char} {rest : List Char} (hc : c.isDigit = true)
    (hne : c ≠ '0') : ofDigits 10 (c :: rest).reverse % 10 ≠ 0 := by
  rw [List.reverse_cons, ofDigits_concat, Nat.mul_add_mod_self_right]
  have := digitValue_ne_zero hc hne
  have := digitValue_lt_ten hc
  omega

section Decimal

variable {whole places : List Nat} {exponent : Int}

open Numeral (value_decimal mul_zpow_eq_iff mul_zpow_neg_eq_iff)

/-- Digits that end in another digit than zero, divided by a power of ten, give no integer. -/
theorem ofDigits_mul_zpow_ne {c : Char} {rest : List Char} (hc : c.isDigit = true)
    (hne : c ≠ '0') (hscale : scale < 0) (v : Nat) :
    (ofDigits 10 (c :: rest).reverse * 10 ^ scale : ℚ) ≠ v := by
  intro hvalue
  rw [mul_zpow_neg_eq_iff (Int.le_of_lt hscale)] at hvalue
  obtain ⟨k, hk⟩ : ∃ k, (-scale).toNat = k + 1 := ⟨(-scale).toNat - 1, by omega⟩
  have hmod : ofDigits 10 (c :: rest).reverse % 10 ≠ 0 := ofDigits_reverse_mod hc hne
  rw [hvalue, hk, pow_succ, ← Nat.mul_assoc, Nat.mul_mod_left] at hmod
  exact hmod rfl

/-- Dropping zeros does not change the number that the digits and the scale denote. -/
theorem ofDigits_mul_zpow_dropZeros (digits : List Char) (scale : Int) : ∃ count : Nat,
    digits = (dropZeros digits.reverse scale).1.reverse ++ List.replicate count '0' ∧
      (dropZeros digits.reverse scale).2 = scale + count ∧
      (ofDigits 10 digits * 10 ^ scale : ℚ) =
        ofDigits 10 (dropZeros digits.reverse scale).1.reverse *
          10 ^ (dropZeros digits.reverse scale).2 := by
  obtain ⟨count, hdrop, hscale, -⟩ := dropZeros_spec digits.reverse scale
  have hfront : digits =
      (dropZeros digits.reverse scale).1.reverse ++ List.replicate count '0' := by
    calc digits = digits.reverse.reverse := (List.reverse_reverse digits).symm
      _ = (List.replicate count '0' ++ (dropZeros digits.reverse scale).1).reverse := by
        rw [← hdrop]
      _ = _ := by rw [List.reverse_append, List.reverse_replicate]
  refine ⟨count, hfront, hscale, ?_⟩
  have hdigits : ofDigits 10 digits =
      ofDigits 10 (dropZeros digits.reverse scale).1.reverse * 10 ^ count := by
    rw [← ofDigits_append_zeros, ← hfront]
  rw [hdigits, hscale, zpow_add₀ (by norm_num), zpow_natCast]
  push_cast
  ring

/-- The exponents that can be read are those of a signed word. -/
theorem isNarrow_eq_true_iff {n : Int} : isNarrow n = true ↔ -2 ^ 63 ≤ n ∧ n < 2 ^ 63 := by
  unfold isNarrow
  exact decide_eq_true_iff

/-- The exponent and the scale are followed if the scale is not below and the exponent not above
what sixty-four bits hold. -/
theorem isNarrow_and_isNarrow {places : Nat} :
    isNarrow exponent ∧ isNarrow (exponent - places) ↔
      -2 ^ 63 ≤ exponent - places ∧ exponent < 2 ^ 63 := by
  rw [isNarrow_eq_true_iff, isNarrow_eq_true_iff]
  omega

/-- The exact value of a decimal literal is the number that it denotes, if that is a natural number
below the bound, and the numeral is not lost. -/
theorem exact_eq_some_iff (hdigits : AreDigits 10 digits (whole ++ places)) :
    Parts.exact? ⟨digits, places.length, exponent⟩ = some v ↔
      (Numeral.decimal whole places exponent).value = v ∧ v < integerBound ∧
        ¬ (Numeral.decimal whole places exponent).Lost := by
  have hn : ofDigits 10 digits = positional 10 (whole ++ places) :=
    AreDigits.ofDigits_eq hdigits
  have hlength : (digits.length : Int) = whole.length + places.length := by
    rw [hdigits.length_eq, List.length_append]
    push_cast
    rfl
  unfold Parts.exact? Numeral.Lost
  simp only [isNarrow_and_isNarrow, value_decimal, ← hn]
  by_cases hnarrow : -2 ^ 63 ≤ exponent - places.length ∧ exponent < 2 ^ 63
  · rw [if_pos hnarrow]
    obtain ⟨count, hfront, hscale, hshift⟩ :=
      ofDigits_mul_zpow_dropZeros digits (exponent - places.length)
    obtain ⟨-, -, -, hlast⟩ := dropZeros_spec digits.reverse (exponent - places.length)
    rw [hshift]
    generalize dropZeros digits.reverse (exponent - places.length) = dropped at *
    obtain ⟨rest, scale⟩ := dropped
    simp only at hfront hscale hlast ⊢
    have hcount : digits.length = rest.length + count := by
      rw [hfront, List.length_append, List.length_reverse, List.length_replicate]
    by_cases hnonneg : 0 ≤ scale
    · rw [if_pos hnonneg, exactly?_eq_some_iff, mul_zpow_eq_iff hnonneg]
      refine and_congr_right fun _ => (and_iff_left ?_).symm
      omega
    · rw [if_neg hnonneg]
      refine iff_of_false nofun ?_
      rintro ⟨hvalue, -, hlost⟩
      cases rest with
      | nil =>
        -- all digits are dropped, so the number is zero
        have hzero : ofDigits 10 digits = 0 := by
          rw [hfront, ofDigits_append_zeros]
          exact Nat.zero_mul _
        simp only [List.length_nil] at hcount
        exact hlost (.inr (.inr ⟨hzero, by omega⟩))
      | cons c rest =>
        have hc : c.isDigit = true := hdigits.isDigit c (by rw [hfront]; simp)
        have hne : c ≠ '0' := hlast.resolve_left hnonneg c rfl
        exact ofDigits_mul_zpow_ne hc hne (Int.not_le.mp hnonneg) v hvalue
  · rw [if_neg hnarrow]
    refine iff_of_false nofun ?_
    rintro ⟨-, -, hlost⟩
    omega

end Decimal

section Text

variable {text : List Char} {numeral : Numeral}

/-- Hexadecimal digits give the integer that they write, if it is in bounds. -/
theorem ofHex_eq_integer_iff {values : List Nat} (hdigits : AreDigits 16 digits values) :
    ofHex digits = integer v ↔
      (Numeral.hexadecimal values).value = v ∧ v < integerBound := by
  unfold ofHex Numeral.value
  rw [AreDigits.ofDigits_eq hdigits, Nat.cast_inj]
  show (if positional 16 values < integerBound then _ else _) = _ ↔ _
  split
  · rename_i hlt
    rw [integer.injEq]
    exact ⟨fun h => ⟨h, h ▸ hlt⟩, And.left⟩
  · rename_i hle
    refine iff_of_false nofun ?_
    rintro ⟨rfl, hv⟩
    exact hle hv

/-- The value of a text is exact if the numeral that it writes denotes a natural number below the
bound, and is not lost. -/
theorem ofText_eq_integer_iff (h : numeral.WrittenIn text) :
    ofText text = integer v ↔ numeral.value = v ∧ v < integerBound ∧ ¬ numeral.Lost := by
  unfold ofText
  unfold Numeral.WrittenIn at h
  generalize text.filter (· != '_') = plain at h ⊢
  match numeral with
  | .decimal whole places exponent =>
    obtain ⟨digits, hparts, hdigits⟩ := h.parts
    have hdecimal : ofDecimal plain = integer v ↔
        (Numeral.decimal whole places exponent).value = v ∧ v < integerBound ∧
          ¬ (Numeral.decimal whole places exponent).Lost := by
      rw [← exact_eq_some_iff hdigits, ← hparts]
      unfold ofDecimal
      cases hexact : Parts.exact? (Parts.ofText plain) <;> simp [hexact]
    split
    · exact absurd rfl (h.ne_marker (.inl rfl) _)
    · exact absurd rfl (h.ne_marker (.inr rfl) _)
    · exact hdecimal
  | .hexadecimal values =>
    obtain ⟨mark, digits, hmark, rfl, hdigits⟩ := h.marker
    have hhex := ofHex_eq_integer_iff (v := v) hdigits
    have hlost : ¬ (Numeral.hexadecimal values).Lost := id
    rcases hmark with rfl | rfl <;>
      exact hhex.trans (and_congr_right fun _ => (and_iff_left hlost).symm)

end Text

end NumberValue

namespace Numeral

variable {text : List Char} {whole places : List Nat} {exponent : Int} {numeral : Numeral}

/-- A numeral has no more digits than the text that writes it has characters. -/
theorem WritesPlain.length_le {plain : List Char}
    (h : WritesPlain plain (.decimal whole places exponent)) :
    whole.length + places.length ≤ plain.length := by
  obtain ⟨hfirst, hsecond, hthird⟩ | _ := h
  have := hfirst.length_eq
  have := hsecond.areDigits.length_eq
  simp only [List.length_drop, List.length_append] at this ⊢
  omega

/-- In a text that is not beyond all measure in length, the only natural number below the bound
that is lost is zero. -/
theorem Lost.eq_zero {v : Nat} (h : numeral.Lost) (hwritten : numeral.WrittenIn text)
    (hlength : text.length < 2 ^ 62) (hvalue : numeral.value = v)
    (hv : v < NumberValue.integerBound) : v = 0 := by
  match numeral with
  | .hexadecimal _ => exact h.elim
  | .decimal whole places exponent =>
    obtain ⟨digits, -, hdigits⟩ := hwritten.parts
    have hcount : whole.length + places.length < 2 ^ 62 :=
      Nat.lt_of_le_of_lt (hwritten.length_le.trans (List.length_filter_le _ _)) hlength
    rw [value_decimal] at hvalue
    rcases h with hhigh | hlow | ⟨hzero, -⟩
    · -- ten to the scale is beyond the bound
      rw [mul_zpow_eq_iff (by omega)] at hvalue
      by_contra hne
      have hpos : 0 < positional 10 (whole ++ places) := by
        rcases Nat.eq_zero_or_pos (positional 10 (whole ++ places)) with hzero | hpos
        · rw [hzero, Nat.zero_mul] at hvalue
          exact absurd hvalue.symm hne
        · exact hpos
      have := NumberValue.integerBound_le_pow (k := (exponent - places.length).toNat) (by omega)
      have := Nat.le_mul_of_pos_left (10 ^ (exponent - places.length).toNat) hpos
      omega
    · -- there are fewer digits than it would take
      rw [mul_zpow_neg_eq_iff (by omega)] at hvalue
      by_contra hne
      have hlt : positional 10 (whole ++ places) < 10 ^ (whole ++ places).length := by
        unfold positional
        rw [← List.length_reverse]
        refine Nat.ofDigits_lt_base_pow_length (by decide) fun value hvalue => ?_
        exact AreDigits.lt hdigits value (List.mem_reverse.mp hvalue)
      have hle : 10 ^ (whole ++ places).length ≤ 10 ^ (-(exponent - places.length)).toNat :=
        Nat.pow_le_pow_right (by decide) (by rw [List.length_append]; omega)
      have := Nat.le_mul_of_pos_left (10 ^ (-(exponent - places.length)).toNat)
        (Nat.pos_of_ne_zero hne)
      omega
    · rw [hzero, Nat.cast_zero, zero_mul] at hvalue
      exact_mod_cast hvalue.symm

end Numeral

namespace NumberValue

/-- The text of a number literal writes one numeral. The value of the literal is a natural number
if the numeral denotes that number, the number is below `2 ^ 128` and the numeral is not lost; it is
a double in every other case. Of the natural numbers below the bound only zero is lost, in any text
shorter than `2 ^ 62` characters. -/
theorem ofLiteral_eq_integer_iff (literal : String)
    (h : literal.toList ∈ Pattern.number.language ∨
      literal.toList ∈ Pattern.hexNumber.language) :
    ∃ numeral : Numeral,
      (∀ other : Numeral, other.WrittenIn literal.toList ↔ other = numeral) ∧
      (∀ v, ofLiteral literal = integer v ↔
        numeral.value = v ∧ v < 2 ^ 128 ∧ ¬ numeral.Lost) ∧
      (numeral.Lost → literal.length < 2 ^ 62 →
        ∀ v : Nat, numeral.value = v → v < 2 ^ 128 → v = 0) := by
  obtain ⟨numeral, hwritten, hunique⟩ := Numeral.existsUnique_writtenIn h
  refine ⟨numeral, fun other => ⟨hunique other, ?_⟩, ?_, ?_⟩
  · rintro rfl
    exact hwritten
  · exact fun v => ofText_eq_integer_iff hwritten
  · exact fun hlost hlength v hvalue hv => hlost.eq_zero hwritten hlength hvalue hv

/-- A literal with a fraction and an exponent that denotes a natural number. -/
theorem ofLiteral_eq_integer_iff_scientific :
    "1_0.50E+1".toList ∈ Pattern.number.language ∧
      (Numeral.decimal [1, 0] [5, 0] 1).value = 105 ∧ ofLiteral "1_0.50E+1" = integer 105 := by
  have hmem : "1_0.50E+1".toList ∈ Pattern.number.language :=
    (Pattern.measures_decimal.fits "1_0.50E+1".toList (by decide)).2
  have hwritten : (Numeral.decimal [1, 0] [5, 0] 1).WrittenIn "1_0.50E+1".toList :=
    .decimal (areDigits_decimal ['1', '0'] (List.all_eq_true.mp (by decide)))
      (.some (areDigits_decimal ['5', '0'] (List.all_eq_true.mp (by decide))))
      (.positive (.inr rfl) (areDigits_decimal ['1'] (List.all_eq_true.mp (by decide))))
  have hvalue : (Numeral.decimal [1, 0] [5, 0] 1).value = 105 := by
    simp only [Numeral.value, positional]
    norm_num [Nat.ofDigits]
  have hlost : ¬ (Numeral.decimal [1, 0] [5, 0] 1).Lost := by
    unfold Numeral.Lost
    decide
  obtain ⟨numeral, hunique, hexact, -⟩ := ofLiteral_eq_integer_iff "1_0.50E+1" (.inl hmem)
  obtain rfl := (hunique _).mp hwritten
  exact ⟨hmem, hvalue, (hexact 105).mpr ⟨by exact_mod_cast hvalue, by decide, hlost⟩⟩

/-- A literal of zero whose exponent moves the point to the left of its digit. -/
theorem ofLiteral_zero_ne_integer :
    "0e-2".toList ∈ Pattern.number.language ∧
      (Numeral.decimal [0] [] (-2)).WrittenIn "0e-2".toList ∧
      (Numeral.decimal [0] [] (-2)).value = 0 ∧ ∀ v, ofLiteral "0e-2" ≠ integer v := by
  have hmem : "0e-2".toList ∈ Pattern.number.language :=
    (Pattern.measures_decimal.fits "0e-2".toList (by decide)).2
  have hwritten : (Numeral.decimal [0] [] (-2)).WrittenIn "0e-2".toList :=
    .decimal (areDigits_decimal ['0'] (List.all_eq_true.mp (by decide))) .none
      (.negative (.inl rfl) (areDigits_decimal ['2'] (List.all_eq_true.mp (by decide))))
  have hlost : (Numeral.decimal [0] [] (-2)).Lost := by
    unfold Numeral.Lost
    decide
  refine ⟨hmem, hwritten, ?_, fun v hv => ((ofText_eq_integer_iff hwritten).mp hv).2.2 hlost⟩
  simp only [Numeral.value, positional]
  norm_num [Nat.ofDigits]

end NumberValue

end SolidityParser
