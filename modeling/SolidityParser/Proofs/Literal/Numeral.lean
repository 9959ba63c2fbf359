import Mathlib.Data.Nat.Digits.Defs
import Mathlib.Data.Rat.Defs
import SolidityParser.Literal.Number
import SolidityParser.Proofs.Lexer.Language

/-!
# Numerals

What a number literal denotes, told from its text alone. A `Numeral` has the values of the digits
that are written, and its exponent; it denotes a rational number (`Numeral.value`), by the places
of its digits. `Numeral.WrittenIn` says which text writes which numeral: underscores are taken out
of the text first, and letters count in either case.

Every text that the lexer takes for a number writes one numeral and no other
(`Numeral.existsUnique_writtenIn`).
-/

namespace SolidityParser

/-! ### Digits -/

/-- The signs of the digits, the letters in lower case and in upper case. -/
def digitSigns : List (List Char) := ["0123456789abcdef".toList, "0123456789ABCDEF".toList]

/-- The characters are digits of a base up to sixteen, with these values. -/
def AreDigits (base : Nat) (text : List Char) (values : List Nat) : Prop :=
  List.Forall₂ (fun c value => value < base ∧ ∃ signs ∈ digitSigns, signs[value]? = some c)
    text values

/-- The number that digits denote by their places, the highest place first. -/
def positional (base : Nat) (values : List Nat) : Nat := Nat.ofDigits base values.reverse

/-! ### Numerals -/

/-- A numeral, by the values of its digits. -/
inductive Numeral
  /-- Digits before and after the point, and the exponent of ten. -/
  | decimal (whole places : List Nat) (exponent : Int)
  /-- Hexadecimal digits. -/
  | hexadecimal (digits : List Nat)

namespace Numeral

/-- The number that a numeral denotes. -/
def value : Numeral → ℚ
  | decimal whole places exponent =>
    (positional 10 whole + positional 10 places / 10 ^ places.length) * 10 ^ exponent
  | hexadecimal digits => positional 16 digits

/-- The text writes the digits after the point: nothing, or a point and digits. -/
inductive WritesPlaces : List Char → List Nat → Prop
  | none : WritesPlaces [] []
  | some {text : List Char} {values : List Nat} :
      AreDigits 10 text values → WritesPlaces ('.' :: text) values

/-- The text writes the exponent: nothing, or its letter with digits that a sign may precede. -/
inductive WritesExponent : List Char → Int → Prop
  | none : WritesExponent [] 0
  | unsigned {mark : Char} {text : List Char} {values : List Nat} :
      mark = 'e' ∨ mark = 'E' → AreDigits 10 text values →
      WritesExponent (mark :: text) (positional 10 values)
  | positive {mark : Char} {text : List Char} {values : List Nat} :
      mark = 'e' ∨ mark = 'E' → AreDigits 10 text values →
      WritesExponent (mark :: '+' :: text) (positional 10 values)
  | negative {mark : Char} {text : List Char} {values : List Nat} :
      mark = 'e' ∨ mark = 'E' → AreDigits 10 text values →
      WritesExponent (mark :: '-' :: text) (-positional 10 values)

/-- The text, which has no underscores, writes the numeral. -/
inductive WritesPlain : List Char → Numeral → Prop
  | decimal {first second third : List Char} {whole places : List Nat} {exponent : Int} :
      AreDigits 10 first whole → WritesPlaces second places → WritesExponent third exponent →
      WritesPlain (first ++ second ++ third) (.decimal whole places exponent)
  | hexadecimal {mark : Char} {text : List Char} {digits : List Nat} :
      mark = 'x' ∨ mark = 'X' → AreDigits 16 text digits →
      WritesPlain ('0' :: mark :: text) (.hexadecimal digits)

/-- The numeral is the one that a text writes when its underscores are taken out. -/
def WrittenIn (numeral : Numeral) (text : List Char) : Prop :=
  WritesPlain (text.filter (· != '_')) numeral

end Numeral

/-! ### Values of digits -/

open NumberValue (digitValue)

section Digits

variable {c : Char} {base : Nat} {text : List Char} {values : List Nat}

/-- Decimal digits are among the hexadecimal ones. -/
theorem isHexDigit_of_isDigit (h : c.isDigit = true) : Pattern.isHexDigit c = true := by
  unfold Pattern.isHexDigit
  rw [h]
  rfl

/-- Their values are below ten. -/
theorem digitValue_lt_ten (h : c.isDigit = true) : digitValue c < 10 := by
  unfold digitValue
  rw [if_pos h]
  unfold Char.isDigit at h
  simp only [Bool.and_eq_true, decide_eq_true_eq, UInt32.le_iff_toNat_le] at h
  have hhigh : c.toNat ≤ 57 := h.2
  show c.toNat - 48 < 10
  omega

/-- Every digit is the sign of its value. -/
theorem digitSigns_digitValue (h : Pattern.isHexDigit c = true) :
    digitValue c < 16 ∧ ∃ signs ∈ digitSigns, signs[digitValue c]? = some c := by
  have hall : ∀ n < 128, Pattern.isHexDigit (Char.ofNat n) = true →
      digitValue (Char.ofNat n) < 16 ∧
        ∃ signs ∈ digitSigns, signs[digitValue (Char.ofNat n)]? = some (Char.ofNat n) := by
    decide
  have hlow : c.toNat < 128 := by
    unfold Pattern.isHexDigit Char.isDigit at h
    simp only [Bool.or_eq_true, Bool.and_eq_true, decide_eq_true_eq, ge_iff_le, Char.le_def,
      UInt32.le_iff_toNat_le] at h
    rcases h with (⟨-, h⟩ | ⟨-, h⟩) | ⟨-, h⟩ <;> exact Nat.lt_of_le_of_lt h (by decide)
  have := hall c.toNat hlow
  rw [Char.ofNat_toNat] at this
  exact this h

/-- A sign has the value at which it stands, and those below ten are the decimal digits. -/
theorem digitValue_digitSigns {value : Nat} {signs : List Char} (hsigns : signs ∈ digitSigns)
    (hc : signs[value]? = some c) :
    digitValue c = value ∧ (value < 10 → c.isDigit = true) := by
  have hall : ∀ signs ∈ digitSigns, ∀ place ∈ signs.zipIdx,
      digitValue place.1 = place.2 ∧ (place.2 < 10 → place.1.isDigit = true) := by
    decide
  exact hall signs hsigns (c, value) (List.mk_mem_zipIdx_iff_getElem?.mpr hc)

/-- Hexadecimal digits stand for their values. -/
theorem areDigits_hexadecimal (text : List Char)
    (h : ∀ c ∈ text, Pattern.isHexDigit c = true) : AreDigits 16 text (text.map digitValue) := by
  unfold AreDigits
  rw [List.forall₂_map_right_iff, List.forall₂_same]
  exact fun c hc => digitSigns_digitValue (h c hc)

/-- So do decimal ones. -/
theorem areDigits_decimal (text : List Char) (h : ∀ c ∈ text, c.isDigit = true) :
    AreDigits 10 text (text.map digitValue) := by
  unfold AreDigits
  rw [List.forall₂_map_right_iff, List.forall₂_same]
  intro c hc
  have hsigns := (digitSigns_digitValue (isHexDigit_of_isDigit (h c hc))).2
  exact ⟨digitValue_lt_ten (h c hc), hsigns⟩

namespace AreDigits

/-- Digits have one value each. -/
theorem eq_map (h : AreDigits base text values) : values = text.map digitValue := by
  induction h with
  | nil => rfl
  | cons hhead htail ih =>
    obtain ⟨-, signs, hsigns, hc⟩ := hhead
    have := digitValue_digitSigns hsigns hc
    rw [List.map_cons, this.1, ← ih]

/-- Each value is below the base. -/
theorem lt (h : AreDigits base text values) : ∀ value ∈ values, value < base := by
  induction h with
  | nil => exact fun value hvalue => absurd hvalue List.not_mem_nil
  | cons hhead htail ih => exact List.forall_mem_cons.mpr ⟨hhead.1, ih⟩

/-- The characters are digits. -/
theorem isDigit (h : AreDigits 10 text values) : ∀ c ∈ text, c.isDigit = true := by
  induction h with
  | nil => exact fun c hc => absurd hc List.not_mem_nil
  | cons hhead htail ih =>
    obtain ⟨hvalue, signs, hsigns, hc⟩ := hhead
    have := digitValue_digitSigns hsigns hc
    exact List.forall_mem_cons.mpr ⟨this.2 hvalue, ih⟩

/-- The number that digits denote is the one that is read from them. -/
theorem ofDigits_eq (h : AreDigits base text values) :
    NumberValue.ofDigits base text = positional base values := by
  rw [h.eq_map]
  clear h
  unfold positional NumberValue.ofDigits
  induction text using List.reverseRecOn with
  | nil => rfl
  | append_singleton text c ih =>
    rw [List.foldl_append, ih, List.map_append, List.reverse_append]
    exact (Nat.add_comm _ _).trans (congrArg _ (Nat.mul_comm _ _))

end AreDigits

end Digits

/-! ### The parts of a text -/

namespace Numeral

open NumberValue (Parts signedOfDigits ofDigits)

variable {text first second third : List Char} {whole places : List Nat} {exponent : Int}
  {numeral : Numeral}

/-- Where a class of characters ends, the text is cut in two. -/
theorem takeWhile_dropWhile_append {p : Char → Bool} (hfirst : ∀ c ∈ first, p c = true)
    (hsecond : ∀ c ∈ second.head?, p c = false) :
    (first ++ second).takeWhile p = first ∧ (first ++ second).dropWhile p = second := by
  rw [List.takeWhile_append_of_pos hfirst, List.dropWhile_append_of_pos hfirst]
  cases second with
  | nil => exact ⟨List.append_nil first, rfl⟩
  | cons c second =>
    have hc : ¬ p c = true := by rw [hsecond c rfl]; decide
    rw [List.takeWhile_cons_of_neg hc, List.dropWhile_cons_of_neg hc]
    exact ⟨List.append_nil first, rfl⟩

namespace WritesExponent

/-- The digits after its letter give the exponent, with its sign. -/
theorem signedOfDigits_eq (h : WritesExponent third exponent) :
    signedOfDigits (third.drop 1) = exponent := by
  cases h with
  | none => rfl
  | @unsigned mark text values hmark hdigits =>
    show signedOfDigits text = _
    rw [← AreDigits.ofDigits_eq hdigits]
    unfold signedOfDigits
    -- a digit is not a sign
    split
    · exact absurd (hdigits.isDigit '-' List.mem_cons_self) (by decide)
    · exact absurd (hdigits.isDigit '+' List.mem_cons_self) (by decide)
    · rfl
  | positive hmark hdigits =>
    exact congrArg Nat.cast (AreDigits.ofDigits_eq hdigits)
  | negative hmark hdigits =>
    exact congrArg (fun n : Nat => -(n : Int)) (AreDigits.ofDigits_eq hdigits)

/-- An exponent begins with its letter. -/
theorem head? (h : WritesExponent third exponent) : ∀ c ∈ third.head?, c = 'e' ∨ c = 'E' := by
  intro c hc
  cases h with
  | none => cases hc
  | unsigned hmark | positive hmark | negative hmark =>
    cases hc
    exact hmark

end WritesExponent

namespace WritesPlaces

/-- The digits after the point are those of the places. -/
theorem areDigits (h : WritesPlaces second places) : AreDigits 10 (second.drop 1) places := by
  cases h with
  | none => exact .nil
  | some hdigits => exact hdigits

/-- Places begin with their point. -/
theorem head? (h : WritesPlaces second places) : ∀ c ∈ second.head?, c = '.' := by
  intro c hc
  cases h with
  | none => cases hc
  | some => cases hc; rfl

/-- There is nothing else in a fraction. -/
theorem isDigit (h : WritesPlaces second places) :
    ∀ c ∈ second, c = '.' ∨ c.isDigit = true := by
  cases h with
  | none => exact fun c hc => absurd hc List.not_mem_nil
  | some hdigits =>
    exact List.forall_mem_cons.mpr ⟨.inl rfl, fun c hc => .inr (hdigits.isDigit c hc)⟩

end WritesPlaces

/-- A digit is different from what is none. -/
theorem ne_of_isDigit {c d : Char} (hc : c.isDigit = true) (hd : d.isDigit = false) : c ≠ d := by
  rintro rfl
  rw [hc] at hd
  cases hd

/-- The parts that are read from a decimal numeral are those that are written. -/
theorem WritesPlain.parts (h : WritesPlain text (.decimal whole places exponent)) :
    ∃ digits, Parts.ofText text = ⟨digits, places.length, exponent⟩ ∧
      AreDigits 10 digits (whole ++ places) := by
  obtain ⟨hfirst, hsecond, hthird⟩ | _ := h
  rename_i first second third
  have hmark : ∀ c ∈ first ++ second, (!(c == 'e' || c == 'E')) = true := by
    intro c hc
    have hc : c = '.' ∨ c.isDigit = true :=
      (List.mem_append.mp hc).elim (fun hc => .inr (hfirst.isDigit c hc)) (hsecond.isDigit c)
    rw [Bool.not_eq_true', Bool.or_eq_false_iff, beq_eq_false_iff_ne, beq_eq_false_iff_ne]
    rcases hc with rfl | hc
    · decide
    · exact ⟨ne_of_isDigit hc rfl, ne_of_isDigit hc rfl⟩
  have hthird' : ∀ c ∈ third.head?, (!(c == 'e' || c == 'E')) = false := by
    intro c hc
    rcases hthird.head? c hc with rfl | rfl <;> rfl
  have hpoint : ∀ c ∈ first, (c != '.') = true := by
    intro c hc
    exact bne_iff_ne.mpr (ne_of_isDigit (hfirst.isDigit c hc) rfl)
  have hsecond' : ∀ c ∈ second.head?, (c != '.') = false := by
    intro c hc
    rw [hsecond.head? c hc]
    rfl
  obtain ⟨hmantissa, hexponent⟩ := takeWhile_dropWhile_append hmark hthird'
  obtain ⟨hwhole, hplaces⟩ := takeWhile_dropWhile_append hpoint hsecond'
  refine ⟨first ++ second.drop 1, ?_, List.rel_append hfirst hsecond.areDigits⟩
  unfold Parts.ofText
  simp only [hmantissa, hexponent, hwhole, hplaces, hthird.signedOfDigits_eq,
    hsecond.areDigits.length_eq]

/-- No decimal numeral has the marker of a hexadecimal one. -/
theorem WritesPlain.ne_marker (h : WritesPlain text (.decimal whole places exponent)) {mark : Char}
    (hmark : mark = 'x' ∨ mark = 'X') (rest : List Char) : text ≠ '0' :: mark :: rest := by
  rintro rfl
  obtain ⟨digits, hparts, hdigits⟩ := h.parts
  have hmem : mark ∈ digits := by
    have := congrArg Parts.digits hparts
    subst this
    rcases hmark with rfl | rfl <;> simp [Parts.ofText]
  rcases hmark with rfl | rfl <;> exact absurd (hdigits.isDigit _ hmem) (by decide)

/-- A hexadecimal number has its marker after a zero. -/
theorem WritesPlain.marker {values : List Nat} (h : WritesPlain text (.hexadecimal values)) :
    ∃ mark digits, (mark = 'x' ∨ mark = 'X') ∧ text = '0' :: mark :: digits ∧
      AreDigits 16 digits values := by
  obtain _ | ⟨hmark, hdigits⟩ := h
  exact ⟨_, _, hmark, rfl, hdigits⟩

/-- A text writes one numeral. -/
theorem WritesPlain.unique {other : Numeral} (h : WritesPlain text numeral)
    (hother : WritesPlain text other) : numeral = other := by
  match numeral, other with
  | .decimal whole places exponent, .decimal whole' places' exponent' =>
    obtain ⟨digits, hparts, hdigits⟩ := h.parts
    obtain ⟨digits', hparts', hdigits'⟩ := hother.parts
    rw [hparts, Parts.mk.injEq] at hparts'
    obtain ⟨rfl, hlength, rfl⟩ := hparts'
    have heq : whole ++ places = whole' ++ places' :=
      (hdigits.eq_map).trans (hdigits'.eq_map).symm
    obtain ⟨rfl, rfl⟩ := List.append_inj' heq hlength
    rfl
  | .decimal .., .hexadecimal _ =>
    obtain ⟨mark, digits, hmark, htext, -⟩ := hother.marker
    exact absurd htext (h.ne_marker hmark digits)
  | .hexadecimal _, .decimal .. =>
    obtain ⟨mark, digits, hmark, htext, -⟩ := h.marker
    exact absurd htext (hother.ne_marker hmark digits)
  | .hexadecimal _, .hexadecimal _ =>
    obtain ⟨mark, digits, -, rfl, hdigits⟩ := h.marker
    obtain ⟨mark', digits', -, heq, hdigits'⟩ := hother.marker
    cases heq
    rw [hdigits.eq_map, hdigits'.eq_map]

/-! ### Texts that are taken for numbers -/

/-- What is left of a run when the underscores are taken out is of its class. -/
theorem filter_of_mem_runs {p q : Char → Bool}
    (hq : ∀ c, c ≠ '_' → q c = true → p c = true) (h : text ∈ Pattern.runs p q) :
    ∀ c ∈ text.filter (· != '_'), p c = true := by
  obtain ⟨d, cs, rfl, hd, hcs⟩ := Pattern.mem_runs.mp h
  intro c hc
  obtain ⟨hmem, hne⟩ := List.mem_filter.mp hc
  rcases List.mem_cons.mp hmem with rfl | hmem
  · exact hd
  · exact hq c (bne_iff_ne.mp hne) (hcs c hmem)

/-- What is lexed as a run of digits is one, without its separators. -/
theorem areDigits_of_mem_digitRuns (h : text ∈ Pattern.digitRuns) :
    ∃ values, AreDigits 10 (text.filter (· != '_')) values := by
  refine ⟨_, areDigits_decimal _ (filter_of_mem_runs (fun c hne hc => ?_) h)⟩
  exact (Bool.or_eq_true_iff.mp hc).resolve_right fun h => hne (eq_of_beq h)

/-- A fraction that is lexed writes places. -/
theorem exists_writesPlaces (h : text ∈ Pattern.optional Pattern.fractions) :
    ∃ places, WritesPlaces (text.filter (· != '_')) places := by
  rcases Pattern.mem_optional.mp h with rfl | h
  · exact ⟨[], .none⟩
  · obtain ⟨_, ⟨c, hc, rfl⟩, digits, hdigits, rfl⟩ := Language.mem_mul.mp h
    obtain ⟨values, hvalues⟩ := areDigits_of_mem_digitRuns hdigits
    cases eq_of_beq hc
    exact ⟨values, .some hvalues⟩

/-- An exponent that is lexed writes an exponent. -/
theorem exists_writesExponent (h : text ∈ Pattern.optional Pattern.exponents) :
    ∃ exponent, WritesExponent (text.filter (· != '_')) exponent := by
  rcases Pattern.mem_optional.mp h with rfl | h
  · exact ⟨0, .none⟩
  · obtain ⟨_, ⟨mark, hmark, rfl⟩, _, hsigned, rfl⟩ := Language.mem_mul.mp h
    obtain ⟨sign, hsign, digits, hdigits, rfl⟩ := Language.mem_mul.mp hsigned
    obtain ⟨values, hvalues⟩ := areDigits_of_mem_digitRuns hdigits
    have hmark : mark = 'e' ∨ mark = 'E' :=
      (Bool.or_eq_true_iff.mp hmark).imp eq_of_beq eq_of_beq
    have hcons : ∀ rest, (mark :: rest).filter (· != '_') = mark :: rest.filter (· != '_') := by
      rcases hmark with rfl | rfl <;> exact fun _ => rfl
    show ∃ exponent, WritesExponent ((mark :: (sign ++ digits)).filter (· != '_')) exponent
    rw [hcons]
    rcases Pattern.mem_optional.mp hsign with rfl | ⟨c, hc, rfl⟩
    · exact ⟨_, .unsigned hmark hvalues⟩
    · rcases Bool.or_eq_true_iff.mp hc with hc | hc <;> cases eq_of_beq hc
      · exact ⟨_, .positive hmark hvalues⟩
      · exact ⟨_, .negative hmark hvalues⟩

/-- So every decimal token writes a numeral. -/
theorem exists_writtenIn_decimal (h : text ∈ Pattern.number.language) :
    ∃ numeral : Numeral, numeral.WrittenIn text := by
  unfold WrittenIn
  rcases (Language.mem_add _ _ _).mp h with h | h
  · obtain ⟨_, hmantissa, third, hthird, rfl⟩ := Language.mem_mul.mp h
    obtain ⟨first, hfirst, second, hsecond, rfl⟩ := Language.mem_mul.mp hmantissa
    obtain ⟨whole, hwhole⟩ := areDigits_of_mem_digitRuns hfirst
    obtain ⟨places, hplaces⟩ := exists_writesPlaces hsecond
    obtain ⟨exponent, hexponent⟩ := exists_writesExponent hthird
    rw [List.filter_append, List.filter_append]
    exact ⟨_, .decimal hwhole hplaces hexponent⟩
  · obtain ⟨second, hsecond, third, hthird, rfl⟩ := Language.mem_mul.mp h
    obtain ⟨places, hplaces⟩ := exists_writesPlaces (Pattern.mem_optional.mpr (.inr hsecond))
    obtain ⟨exponent, hexponent⟩ := exists_writesExponent hthird
    rw [List.filter_append]
    exact ⟨_, .decimal .nil hplaces hexponent⟩

/-- So does every hexadecimal one. -/
theorem exists_writtenIn_hexadecimal (h : text ∈ Pattern.hexNumber.language) :
    ∃ numeral : Numeral, numeral.WrittenIn text := by
  obtain ⟨_, ⟨zero, hzero, rfl⟩, _, hrest, rfl⟩ := Language.mem_mul.mp h
  obtain ⟨_, ⟨mark, hmark, rfl⟩, digits, hdigits, rfl⟩ := Language.mem_mul.mp hrest
  have hdigits : ∀ c ∈ digits.filter (· != '_'), Pattern.isHexDigit c = true := by
    refine filter_of_mem_runs (fun c hne hc => ?_) hdigits
    exact (Bool.or_eq_true_iff.mp hc).resolve_right fun h => hne (eq_of_beq h)
  have hmark : mark = 'x' ∨ mark = 'X' := (Bool.or_eq_true_iff.mp hmark).imp eq_of_beq eq_of_beq
  cases eq_of_beq hzero
  have hfilter : (['0'] ++ ([mark] ++ digits)).filter (· != '_') =
      '0' :: mark :: digits.filter (· != '_') := by
    rcases hmark with rfl | rfl <;> rfl
  unfold WrittenIn
  rw [hfilter]
  exact ⟨_, .hexadecimal hmark (areDigits_hexadecimal _ hdigits)⟩

/-- Every text that is taken for a number writes one numeral and no other. -/
theorem existsUnique_writtenIn
    (h : text ∈ Pattern.number.language ∨ text ∈ Pattern.hexNumber.language) :
    ∃! numeral : Numeral, numeral.WrittenIn text := by
  obtain ⟨numeral, hnumeral⟩ := h.elim exists_writtenIn_decimal exists_writtenIn_hexadecimal
  exact ⟨numeral, hnumeral, fun other hother => hother.unique hnumeral⟩

end Numeral

end SolidityParser
