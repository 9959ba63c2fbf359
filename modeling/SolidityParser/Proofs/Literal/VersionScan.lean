import Mathlib.Data.List.Find
import SolidityParser.Proofs.Lexer.StringSearch
import SolidityParser.Proofs.Literal.Version
import SolidityParser.Proofs.Spans
import SolidityParser.Tree.VersionScan

/-!
# The versions in a text, by index

`VersionScan.scan` goes through the bytes of a value, and may stand inside a character. **Theorem**
(`VersionScan.scan_stands`): it cuts out nothing there, and what it finds stands in the value, one
version behind the other. It finds what `VersionLiteral.scan` finds in the text (`run_eq`).

All characters that the scan looks for are ASCII (`SameClass`). So a round that begins between
characters does what is done with the text there (`round_eq`), and from there it comes to stand
between characters again: a version ends between characters, and a character that begins none is
passed over byte by byte (`run_inside`).
-/

namespace SolidityParser

open Text (bytes isAscii byteLength)

/-! ### Classes of bytes -/

/-- A class of characters has only ASCII characters, and a class of bytes has just their bytes. -/
structure SameClass (p : Char → Bool) (q : UInt8 → Bool) : Prop where
  ascii : ∀ c, isAscii c = true → q (CodeUnit.ofAscii c) = p c
  char : ∀ c, isAscii c = false → p c = false
  byte : ∀ byte : UInt8, 128 ≤ byte.toNat → q byte = false

namespace SameClass

variable {p : Char → Bool} {q : UInt8 → Bool}

/-- There are few enough bytes to look at all. -/
theorem of_forall (hascii : ∀ n : Fin 128, q (CodeUnit.ofAscii (Char.ofNat n)) = p (Char.ofNat n))
    (hchar : ∀ c, isAscii c = false → p c = false)
    (hbyte : ∀ n : Fin 128, q (UInt8.ofNat (n + 128)) = false) : SameClass p q where
  ascii _ hc := @Text.forall_ascii (fun c => q (CodeUnit.ofAscii c) = p c) hascii _ hc
  char := hchar
  byte byte hle := by
    have hlt := byte.toNat_lt
    have h := hbyte ⟨byte.toNat - 128, by omega⟩
    rwa [Nat.sub_add_cancel hle, UInt8.ofNat_toNat] at h

/-- The blank bytes are those of blank characters. -/
theorem isBlank : SameClass Pattern.isBlank VersionScan.isBlank := by
  refine of_forall (by decide +kernel) (fun c hc => ?_) (by decide +kernel)
  unfold Pattern.isBlank
  split <;> first | rfl | cases hc

/-- The bytes of versions are those of the characters of versions. -/
theorem isVersionChar : SameClass VersionLiteral.isVersionChar VersionScan.isVersionByte := by
  refine of_forall (by decide +kernel) (fun c hc => ?_) (by decide +kernel)
  have hdigit : c.isDigit = false := by
    have hle : ¬ c.toNat < 128 := of_decide_eq_false hc
    simp only [Char.isDigit, Bool.and_eq_false_iff, decide_eq_false_iff_not, UInt32.le_iff_toNat_le]
    change _ ∨ ¬ c.toNat ≤ 57
    omega
  unfold VersionLiteral.isVersionChar
  rw [hdigit, Bool.false_or]
  split <;> first | rfl | cases hc

/-- The bytes of a class at the front are those of the characters at the front. -/
theorem takeWhile_bytes (h : SameClass p q) (text : List Char) :
    (bytes text).takeWhile q = bytes (text.takeWhile p) := by
  induction text with
  | nil => rfl
  | cons c text ih =>
    rw [Text.bytes_cons]
    cases hc : isAscii c with
    | true =>
      rw [Text.utf8EncodeChar_ascii hc, List.singleton_append, List.takeWhile_cons,
        List.takeWhile_cons, h.ascii c hc, ih]
      split
      · rw [Text.bytes_cons, Text.utf8EncodeChar_ascii hc, List.singleton_append]
      · rfl
    | false =>
      obtain ⟨first, more, hfirst, hle, -⟩ := Text.exists_utf8EncodeChar c
      rw [hfirst, List.cons_append, List.takeWhile_cons_of_neg (by simp [h.byte first (hle hc)]),
        List.takeWhile_cons_of_neg (by simp [h.char c hc])]
      rfl

end SameClass

/-! ### Reads of a text -/

namespace Bytes

/-- The bytes of a text are those of its characters. -/
theorem ofString_eq (value : String) : ofString value = bytes value.toList :=
  Text.bytes_toList value

/-- There are as many as its length in bytes. -/
theorem length_ofString (value : String) : (ofString value).length = byteLength value.toList := by
  rw [ofString_eq, Text.length_bytes]

/-- The bytes of a class are passed. -/
theorem passWhile_eq (p : UInt8 → Bool) (bytes : List UInt8) (index : Nat) :
    passWhile p bytes index = index + ((bytes.drop index).takeWhile p).length := by
  fun_induction passWhile p bytes index with
  | case1 index h hp ih =>
    rw [ih, List.drop_eq_getElem_cons h, List.takeWhile_cons_of_pos hp, List.length_cons]
    omega
  | case2 index h hp =>
    rw [List.drop_eq_getElem_cons h, List.takeWhile_cons_of_neg hp]
    rfl
  | case3 index h =>
    rw [List.drop_eq_nil_of_le (Nat.le_of_not_lt h)]
    rfl

variable {value : String} {before middle after : List Char}

/-- The bytes from the end of a front on are those of the rest. -/
theorem drop_ofString (h : value.toList = before ++ after) :
    (ofString value).drop (byteLength before) = bytes after := by
  rw [ofString_eq, h, Text.bytes_append]
  exact List.drop_left' (Text.length_bytes before)

/-- Between characters a text may be cut. -/
theorem suffix_ofString (h : value.toList = before ++ after) :
    suffix (ofString value) (byteLength before) = .ok (bytes after) := by
  have hle : byteLength before ≤ (ofString value).length := by
    rw [length_ofString, h, Text.byteLength_append]
    exact Nat.le_add_right _ _
  rw [suffix_of_le hle, drop_ofString h]

/-- A cut between characters is not refused. -/
theorem cut_ofString (h : value.toList = before ++ (middle ++ after)) :
    cut value (byteLength before) (byteLength before + byteLength middle) = .ok middle := by
  rw [cut, h, Text.slice?_append]

/-- The characters of a class at the end of a front are passed. -/
theorem passWhile_ofString {p : Char → Bool} {q : UInt8 → Bool} (hclass : SameClass p q)
    (h : value.toList = before ++ after) :
    passWhile q (ofString value) (byteLength before) =
      byteLength (before ++ after.takeWhile p) := by
  rw [passWhile_eq, drop_ofString h, hclass.takeWhile_bytes, Text.length_bytes,
    Text.byteLength_append]

end Bytes

/-! ### One round -/

namespace VersionScan

open VersionLiteral (comparisons comparisonAt blankAt foundAt ofParts scanAtFuel)

variable {value : String} {before text after : List Char} {base : Nat}

/-- ASCII is at the front of bytes exactly if it is at the front of the text. -/
theorem isPrefixOf_bytes : {expected : List Char} → (∀ c ∈ expected, isAscii c = true) →
    (text : List Char) →
      (expected.map CodeUnit.ofAscii).isPrefixOf (bytes text) = expected.isPrefixOf text
  | [], _, _ => rfl
  | _ :: _, _, [] => rfl
  | d :: expected, hexpected, c :: text => by
    have hd := hexpected d (.head _)
    have hrest := isPrefixOf_bytes (fun c hc => hexpected c (.tail _ hc)) text
    rw [Text.bytes_cons, List.map_cons, List.isPrefixOf]
    cases hc : isAscii c with
    | true =>
      rw [Text.utf8EncodeChar_ascii hc, List.singleton_append, List.isPrefixOf, hrest]
      congr 1
      rw [Bool.eq_iff_iff, beq_iff_eq, beq_iff_eq]
      exact Delimiter.ofAscii_inj hd hc
    | false =>
      obtain ⟨first, more, hfirst, hle, -⟩ := Text.exists_utf8EncodeChar c
      have hfirst' : (CodeUnit.ofAscii d == first) = false :=
        beq_eq_false_iff_ne.mpr (Delimiter.ne_ofAscii_of_le hd (hle hc)).symm
      have hc' : (d == c) = false := by
        rw [beq_eq_false_iff_ne]
        rintro rfl
        rw [hd] at hc
        cases hc
      rw [hfirst, List.cons_append, List.isPrefixOf, hfirst', hc']
      rfl

/-- Comparisons are ASCII. -/
theorem isAscii_of_mem {comparison : List Char} {c : Char} (h : comparison ∈ comparisons)
    (hc : c ∈ comparison) : isAscii c = true := by
  have hall : comparisons.all (·.all isAscii) = true := rfl
  exact List.all_eq_true.mp (List.all_eq_true.mp hall comparison h) c hc

/-- The comparison among the bytes is the one in the text. -/
theorem comparison?_bytes (text : List Char) :
    comparison? (bytes text) =
      if (comparisonAt text).isEmpty then none else some (comparisonAt text) := by
  have hne : comparisons.all (!·.isEmpty) = true := rfl
  have hfind : comparison? (bytes text) = comparisons.find? (·.isPrefixOf text) :=
    List.find?_congr fun _ hmem => isPrefixOf_bytes (fun _ hc => isAscii_of_mem hmem hc) text
  unfold comparisonAt
  rw [hfind]
  cases hfound : comparisons.find? (·.isPrefixOf text) with
  | none => rfl
  | some comparison =>
    have hfull := List.all_eq_true.mp hne comparison (List.mem_of_find?_eq_some hfound)
    rw [Option.getD_some, if_neg (by simpa using hfull)]

/-- Under the limit, the offset of an index is exact. -/
theorem offset_eq {index : Nat} (h : base + index ≤ Span.limit) :
    offset base index = base + index := by
  unfold offset
  omega

/-- A version goes on as far as it can. -/
theorem takeWhile_versionAt (hafter : ∀ c ∈ after.head?, VersionLiteral.isVersionChar c = false) :
    (VersionLiteral.versionAt text ++ after).takeWhile VersionLiteral.isVersionChar =
      VersionLiteral.versionAt text := by
  have hall : ∀ c ∈ VersionLiteral.versionAt text, VersionLiteral.isVersionChar c = true :=
    fun c hc => List.all_eq_true.mp List.all_takeWhile c hc
  rw [List.takeWhile_append_of_pos hall]
  cases after with
  | nil => exact List.append_nil _
  | cons c after => rw [List.takeWhile_cons_of_neg (by simp [hafter c rfl]), List.append_nil]

/-- A round at the front of a text with another text before it. -/
def textRound (base : Nat) (before text : List Char) : Nat × Option VersionLiteral :=
  if VersionLiteral.versionAt text = [] then (byteLength before + 1, none)
  else
    let stop := byteLength (before ++ foundAt text)
    (stop, some (ofParts (comparisonAt text) (VersionLiteral.versionAt text)
      ⟨base + byteLength before, base + stop⟩))

section Boundary

variable (h : value.toList = before ++ text)
include h

/-- The version is looked for behind the comparison and the blanks after it. -/
theorem versionStart_eq :
    versionStart (Bytes.ofString value) (byteLength before) (comparison? (bytes text)) =
      byteLength (before ++ (comparisonAt text ++ blankAt text)) := by
  rw [comparison?_bytes]
  rcases VersionLiteral.comparisonAt_cases text with ⟨hmem, more, hmore⟩ | ⟨hnil, -⟩
  · have hne : (comparisonAt text).isEmpty = false := by
      have hall : comparisons.all (!·.isEmpty) = true := rfl
      simpa using List.all_eq_true.mp hall _ hmem
    have hlength := Text.byteLength_of_ascii fun _ hc => isAscii_of_mem hmem hc
    have hsplit : value.toList = (before ++ comparisonAt text) ++ more := by
      rw [List.append_assoc, hmore, h]
    have hblank : blankAt text = more.takeWhile Pattern.isBlank := by
      have hdrop : text.drop (comparisonAt text).length = more := by
        conv => lhs; arg 2; rw [← hmore]
        exact List.drop_left
      rw [VersionLiteral.blankAt, VersionLiteral.gapAt, hne, hdrop]
      rfl
    rw [hne, ← List.append_assoc, hblank]
    show Bytes.passWhile isBlank _ (byteLength before + (comparisonAt text).length) = _
    rw [← hlength, ← Text.byteLength_append, Bytes.passWhile_ofString .isBlank hsplit]
  · rw [VersionLiteral.blankAt, hnil]
    simp [versionStart, VersionLiteral.gapAt]

/-- The version is cut out between characters. -/
theorem stop_eq :
    Bytes.passWhile isVersionByte (Bytes.ofString value)
        (byteLength (before ++ (comparisonAt text ++ blankAt text))) =
      byteLength (before ++ foundAt text) ∧
    Bytes.cut value (byteLength (before ++ (comparisonAt text ++ blankAt text)))
        (byteLength (before ++ foundAt text)) = .ok (VersionLiteral.versionAt text) ∧
    byteLength (before ++ foundAt text) ≤ byteLength value.toList := by
  obtain ⟨after, htext, hafter⟩ := VersionLiteral.exists_after text
  have hfound : before ++ foundAt text =
      before ++ (comparisonAt text ++ blankAt text) ++ VersionLiteral.versionAt text := by
    rw [foundAt, List.append_assoc before]
  have hwhole : value.toList = before ++ foundAt text ++ after := by
    conv => lhs; rw [h, htext]
    rw [List.append_assoc]
  have hsplit := hwhole
  rw [hfound, List.append_assoc] at hsplit
  refine ⟨?_, ?_, ?_⟩
  · rw [Bytes.passWhile_ofString .isVersionChar hsplit, takeWhile_versionAt hafter, hfound]
  · rw [hfound, Text.byteLength_append _ (VersionLiteral.versionAt text)]
    exact Bytes.cut_ofString hsplit
  · rw [hwhole, Text.byteLength_append _ after]
    exact Nat.le_add_right _ _

/-- What is found at an index between characters is what is at the front of the text there. -/
theorem versionAt_eq (hlimit : base + byteLength value.toList ≤ Span.limit) :
    versionAt base value (byteLength before) = .ok (textRound base before text) := by
  obtain ⟨hstop, hcut, hle⟩ := stop_eq h
  have hfound : byteLength (before ++ foundAt text) =
      byteLength (before ++ (comparisonAt text ++ blankAt text)) +
        byteLength (VersionLiteral.versionAt text) := by
    rw [foundAt, ← List.append_assoc, Text.byteLength_append]
  have hbefore : byteLength before ≤ byteLength (before ++ foundAt text) := by
    rw [Text.byteLength_append]
    exact Nat.le_add_right _ _
  dsimp only [versionAt, textRound]
  rw [Bytes.suffix_ofString h]
  simp only [bind, Except.bind, pure, Except.pure, versionStart_eq h, hstop, hcut,
    @offset_eq base (byteLength before) (by omega),
    @offset_eq base (byteLength (before ++ foundAt text)) (by omega)]
  by_cases hversion : VersionLiteral.versionAt text = []
  · rw [if_pos hversion, if_pos (by rw [hfound, hversion]; rfl)]
  · have hpos := Text.byteLength_pos hversion
    rw [if_neg hversion, if_neg (by omega), comparison?_bytes, ofParts]
    cases (comparisonAt text).isEmpty <;> rfl

end Boundary

/-- No version begins with a blank. -/
theorem versionAt_of_isBlank {c : Char} (hc : Pattern.isBlank c = true) (cs : List Char) :
    VersionLiteral.versionAt (c :: cs) = [] := by
  have hnil : comparisonAt (c :: cs) = [] := by
    rcases VersionLiteral.comparisonAt_cases (c :: cs) with ⟨hmem, hprefix⟩ | ⟨hnil, -⟩
    · cases hfound : comparisonAt (c :: cs) with
      | nil => rfl
      | cons d comparison =>
        have hall : comparisons.all (·.all fun c => !Pattern.isBlank c) = true := rfl
        rw [hfound] at hmem hprefix
        obtain ⟨rfl, -⟩ := List.cons_prefix_cons.mp hprefix
        have hblank := List.all_eq_true.mp (List.all_eq_true.mp hall _ hmem) d (.head _)
        rw [hc] at hblank
        cases hblank
    · exact hnil
  rw [VersionLiteral.versionAt_of_nil hnil, List.takeWhile_cons_of_neg]
  intro hchar
  rw [VersionLiteral.isBlank_of_isVersionChar hchar] at hc
  cases hc

/-- A round at the first byte of a character finds what is at the front of the text there. -/
theorem round_eq {c : Char} {cs : List Char} (h : value.toList = before ++ c :: cs)
    (hlimit : base + byteLength value.toList ≤ Span.limit) :
    round base value (byteLength before) = .ok (textRound base before (c :: cs)) := by
  obtain ⟨first, more, hfirst, hle, -⟩ := Text.exists_utf8EncodeChar c
  have hdrop := Bytes.drop_ofString h
  rw [Text.bytes_cons, hfirst, List.cons_append] at hdrop
  have hblank : isBlank first = Pattern.isBlank c := by
    cases hc : isAscii c with
    | true =>
      rw [Text.utf8EncodeChar_ascii hc] at hfirst
      obtain ⟨rfl, -⟩ := List.cons.inj hfirst
      exact SameClass.isBlank.ascii c hc
    | false => rw [SameClass.isBlank.byte first (hle hc), SameClass.isBlank.char c hc]
  unfold round
  rw [Bytes.read_of_drop hdrop]
  simp only [bind, Except.bind, pure, Except.pure, hblank]
  split
  · next hc => rw [textRound, if_pos (versionAt_of_isBlank hc cs)]
  · exact versionAt_eq h hlimit

/-- No comparison begins with a byte that is not ASCII. -/
theorem comparison?_of_le {byte : UInt8} (hbyte : 128 ≤ byte.toNat) (more : List UInt8) :
    comparison? (byte :: more) = none := by
  refine List.find?_eq_none.mpr fun comparison hmem hprefix => ?_
  have hne : comparisons.all (!·.isEmpty) = true := rfl
  cases comparison with
  | nil => exact absurd (List.all_eq_true.mp hne _ hmem) (by decide)
  | cons c comparison =>
    have hc := isAscii_of_mem hmem (.head _)
    rw [List.map_cons, List.isPrefixOf, Bool.and_eq_true, beq_iff_eq] at hprefix
    exact Delimiter.ne_ofAscii_of_le hc hbyte hprefix.1.symm

/-- A round at a byte inside a character goes on to the next byte. -/
theorem round_inside {start : Nat} {byte : UInt8} {more : List UInt8}
    (h : (Bytes.ofString value).drop start = byte :: more) (hbyte : 128 ≤ byte.toNat) :
    round base value start = .ok (start + 1, none) := by
  have hle : start ≤ (Bytes.ofString value).length := by
    have := congrArg List.length h
    rw [List.length_drop, List.length_cons] at this
    omega
  have hstop : Bytes.passWhile isVersionByte (Bytes.ofString value) start = start := by
    rw [Bytes.passWhile_eq, h, List.takeWhile_cons_of_neg
      (by simp [SameClass.isVersionChar.byte byte hbyte])]
    rfl
  unfold round
  rw [Bytes.read_of_drop h]
  simp only [bind, Except.bind, pure, Except.pure, SameClass.isBlank.byte byte hbyte]
  dsimp only [versionAt]
  rw [Bytes.suffix_of_le hle, h]
  simp only [bind, Except.bind, pure, Except.pure, comparison?_of_le hbyte, versionStart, hstop]
  rfl

/-! ### The whole scan -/

/-- A round that goes well is followed by the rest of the scan. -/
theorem run_of_round {start next : Nat} {found : Option VersionLiteral}
    (hlt : start < (Bytes.ofString value).length)
    (h : round base value start = .ok (next, found)) :
    run base value start = (run base value next).map (found.toList ++ ·) := by
  rw [run, if_pos hlt]
  split
  · next herror =>
    rw [h] at herror
    cases herror
  · next hok =>
    rw [h] at hok
    cases hok
    rfl

/-- A round that finds nothing is left out of the run. -/
theorem run_of_miss {start next : Nat} (hlt : start < (Bytes.ofString value).length)
    (h : round base value start = .ok (next, none)) :
    run base value start = run base value next := by
  rw [run_of_round hlt h]
  cases run base value next <;> rfl

/-- The bytes of a character after its first are passed over. -/
theorem run_inside {later : List UInt8} : (inside : List UInt8) → {start : Nat} →
    (∀ byte ∈ inside, 128 ≤ byte.toNat) →
      (Bytes.ofString value).drop start = inside ++ later →
        run base value start = run base value (start + inside.length)
  | [], _, _, _ => rfl
  | byte :: inside, start, hinside, h => by
    have hlt : start < (Bytes.ofString value).length := by
      have := congrArg List.length h
      simp only [List.length_drop, List.length_append, List.length_cons] at this
      omega
    have hdrop : (Bytes.ofString value).drop (start + 1) = inside ++ later := by
      rw [← List.drop_drop, h]
      rfl
    rw [run_of_miss hlt (round_inside h (hinside byte (.head _))),
      run_inside inside (fun byte hbyte => hinside byte (.tail _ hbyte)) hdrop,
      List.length_cons, Nat.add_right_comm, Nat.add_assoc]

/-- Before a character the scan is not at its end. -/
theorem lt_of_cons {c : Char} {cs : List Char} (h : value.toList = before ++ c :: cs) :
    byteLength before < (Bytes.ofString value).length := by
  have hpos := Text.byteLength_pos (List.cons_ne_nil c cs)
  rw [Bytes.length_ofString, h, Text.byteLength_append]
  omega

/-- At the end of the value the run ends. -/
theorem run_end (h : value.toList = before ++ []) :
    run base value (byteLength before) = .ok [] := by
  rw [run, Bytes.length_ofString, h, List.append_nil, if_neg (Nat.lt_irrefl _)]

/-- Where no version begins, the whole character is passed over. -/
theorem run_miss {c : Char} {cs : List Char}
    (hlimit : base + byteLength value.toList ≤ Span.limit)
    (h : value.toList = before ++ c :: cs) (hmiss : VersionLiteral.versionAt (c :: cs) = []) :
    run base value (byteLength before) = run base value (byteLength (before ++ [c])) := by
  obtain ⟨first, inside, hfirst, -, hinside⟩ := Text.exists_utf8EncodeChar c
  have hdrop := Bytes.drop_ofString h
  rw [Text.bytes_cons, hfirst, List.cons_append] at hdrop
  have hround := round_eq h hlimit
  rw [textRound, if_pos hmiss] at hround
  have hnext : (Bytes.ofString value).drop (byteLength before + 1) = inside ++ bytes cs := by
    rw [← List.drop_drop, hdrop]
    rfl
  have hsize : byteLength (before ++ [c]) = byteLength before + 1 + inside.length := by
    have hlength := String.length_utf8EncodeChar c
    rw [hfirst, List.length_cons] at hlength
    rw [Text.byteLength_append, byteLength, ← hlength, Text.byteLength_nil]
    omega
  rw [run_of_miss (lt_of_cons h) hround, run_inside inside hinside hnext, hsize]

/-- Between characters the scan by index finds what the scan of the text finds. -/
theorem run_eq (hlimit : base + byteLength value.toList ≤ Span.limit) {fuel : Nat}
    (h : value.toList = before ++ text) (hfuel : text.length ≤ fuel) :
    run base value (byteLength before) = .ok (scanAtFuel fuel (base + byteLength before) text) := by
  induction fuel generalizing before text with
  | zero =>
    obtain rfl := List.eq_nil_of_length_eq_zero (Nat.le_zero.mp hfuel)
    exact run_end h
  | succ fuel ih =>
    cases text with
    | nil => exact run_end h
    | cons c cs =>
      rw [List.length_cons] at hfuel
      by_cases hversion : VersionLiteral.versionAt (c :: cs) = []
      · rw [run_miss hlimit h hversion, ih (by rw [h, List.append_cons]) (by omega),
          VersionLiteral.scanAtFuel_miss hversion, Text.byteLength_append, ← Nat.add_assoc]
        rfl
      · obtain ⟨after, hafter, -⟩ := VersionLiteral.exists_after (c :: cs)
        have hround := round_eq h hlimit
        rw [textRound, if_neg hversion] at hround
        have hshort : after.length ≤ fuel := by
          have hlength := congrArg List.length hafter
          have hpos := List.length_pos_iff.mpr hversion
          simp only [foundAt, List.length_append, List.length_cons] at hlength
          omega
        have hrest : value.toList = (before ++ foundAt (c :: cs)) ++ after := by
          rw [List.append_assoc, ← hafter, h]
        rw [run_of_round (lt_of_cons h) hround, ih hrest hshort,
          VersionLiteral.scanAtFuel_hit hversion hafter, Text.byteLength_append, ← Nat.add_assoc]
        rfl

end VersionScan

/-! ### What is found -/

namespace VersionLiteral

/-- A version stands in a value that begins at `base`: its place has some bytes of the value, and
cuts its comparison, blanks and the version out of it. Without a comparison there are no blanks. -/
structure StandsIn (base : Nat) (value : String) (v : VersionLiteral) : Prop where
  inside : v.span.Inside ⟨base, base + value.utf8ByteSize⟩
  lt : v.span.start < v.span.stop
  version_ne : v.version ≠ ""
  operator_mem : ∀ operator ∈ v.operator, operator.toList ∈ comparisons
  slice : ∃ gap, (∀ c ∈ gap, Pattern.isBlank c = true) ∧ (v.operator = none → gap = []) ∧
    Text.slice? value.toList ⟨v.span.start - base, v.span.stop - base⟩ =
      some ((v.operator.getD "").toList ++ gap ++ v.version.toList)

/-- Each version that is found ends before the next. -/
theorem scanAtFuel_ordered (fuel offset : Nat) (text : List Char) :
    (scanAtFuel fuel offset text).Pairwise fun v w => v.span.stop ≤ w.span.start := by
  induction fuel generalizing offset text with
  | zero => exact .nil
  | succ fuel ih =>
    cases text with
    | nil => exact .nil
    | cons c cs =>
      by_cases hversion : versionAt (c :: cs) = []
      · rw [scanAtFuel_miss hversion]
        exact ih _ _
      · obtain ⟨after, hafter, -⟩ := exists_after (c :: cs)
        rw [scanAtFuel_hit hversion hafter]
        exact List.pairwise_cons.mpr ⟨fun w hw => (scanAtFuel_inside hw).1, ih _ _⟩

/-- A version that was found behind a comparison is given with it. -/
theorem operator_ofParts_of_mem {comparison : List Char} (h : comparison ∈ comparisons)
    (version : List Char) (span : Span) :
    (ofParts comparison version span).operator = some (String.ofList comparison) := by
  cases comparison with
  | nil => exact absurd h (by decide)
  | cons c comparison => rfl

/-- What is found stands in the value. -/
theorem standsIn_of_mem {base : Nat} {value : String} {v : VersionLiteral}
    (h : v ∈ scan base value.toList) : v.StandsIn base value := by
  have hinside := scanAtFuel_inside h
  rw [Text.byteLength_toList] at hinside
  obtain ⟨before, comparison, gap, version, after, hpicks, hv⟩ := exists_picks h
  have hspan := congrArg VersionLiteral.span hv
  have hversion : v.version = String.ofList version := congrArg VersionLiteral.version hv
  have hoperator : (∀ operator ∈ v.operator, operator.toList ∈ comparisons) ∧
      (v.operator = none → gap = []) ∧ (v.operator.getD "").toList = comparison := by
    rcases hpicks.comparison_mem with hmem | ⟨rfl, rfl⟩
    · rw [hv, operator_ofParts_of_mem hmem]
      simpa using hmem
    · rw [hv]
      exact ⟨nofun, fun _ => rfl, rfl⟩
  have hpos := Text.byteLength_pos hpicks.version_ne_nil
  refine ⟨hinside, ?_, ?_, hoperator.1, gap, hpicks.gap_blank, hoperator.2.1, ?_⟩
  · rw [hspan]
    show base + byteLength before <
      base + byteLength before + byteLength (comparison ++ gap ++ version)
    rw [Text.byteLength_append]
    omega
  · rw [hversion, Ne, String.ofList_eq_empty_iff]
    exact hpicks.version_ne_nil
  · rw [hoperator.2.2, hversion, hspan, String.toList_ofList]
    show Text.slice? _ ⟨base + _ - base, base + _ + _ - base⟩ = some (comparison ++ gap ++ version)
    rw [Nat.add_assoc, Nat.add_sub_cancel_left, Nat.add_sub_cancel_left, hpicks.text_eq,
      List.append_assoc]
    exact Text.slice?_append _ _ _

end VersionLiteral

namespace VersionScan

/-- The scan of a value that ends below 4 GiB ends, and cuts out text between characters alone. Each
version that it finds stands in the value, and ends before the next. -/
theorem scan_stands {base : Nat} {value : String}
    (hlimit : base + value.utf8ByteSize ≤ Span.limit) :
    scan base value = .ok (VersionLiteral.scan base value.toList) ∧
      (VersionLiteral.scan base value.toList).Pairwise (fun v w => v.span.stop ≤ w.span.start) ∧
      ∀ v ∈ VersionLiteral.scan base value.toList, v.StandsIn base value := by
  have hbytes : base + byteLength value.toList ≤ Span.limit := by rwa [Text.byteLength_toList]
  exact ⟨run_eq hbytes (List.nil_append _).symm (Nat.le_refl _),
    VersionLiteral.scanAtFuel_ordered _ _ _, fun _ => VersionLiteral.standsIn_of_mem⟩

/-- A value with characters of two and three bytes, with a comparison and a blank that no version
follows, and with blanks between a comparison and its version. -/
theorem scan_stands_unicode :
    let value := "≥ ^ é>= \t0.8||<€=*"
    let found : List VersionLiteral :=
      [⟨some ">=", "0.8", ⟨24, 31⟩⟩, ⟨some "=", "*", ⟨37, 39⟩⟩]
    16 + value.utf8ByteSize ≤ Span.limit ∧ scan 16 value = .ok found ∧
      found.Pairwise (fun v w => v.span.stop ≤ w.span.start) ∧
      ∀ v ∈ found, v.StandsIn 16 value := by
  intro value found
  have hlimit : 16 + value.utf8ByteSize ≤ Span.limit := by decide +kernel
  have hfound : VersionLiteral.scan 16 value.toList = found := by decide +kernel
  have hscan := scan_stands hlimit
  rw [hfound] at hscan
  exact ⟨hlimit, hscan⟩

end VersionScan

end SolidityParser
