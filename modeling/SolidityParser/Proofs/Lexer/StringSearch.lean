import SolidityParser.Lexer.StringSearch
import SolidityParser.Proofs.Lexer.Search

/-!
# The end of a string, one unit at a time

`StringReading.step` reads what follows an opening quote one unit at a time, and
`StringReading.EndsAt` says that the reading meets the closing quote. Three searches find it:

* `Delimiter.stringEnd?`, which jumps from stop to stop (`stringEnd?_eq_some_iff_endsAt`);
* the same among the bytes of a text instead of its characters (`stringEnd?_bytes`);
* `StringSearch.stringEnd?`, which goes by index and takes the nearer result of two searches for
  bytes. **Theorem** (`StringSearch.stringEnd?_reads`): it never reads what is not there, and
  answers as the reading does. So among the bytes of a text it finds what the lexer finds among the
  characters (`StringSearch.stringEnd?_text`).

The invariant of the last is that the reading stands inside the string wherever a round begins
(`Reached`); a round keeps it or ends the search with the right answer (`round_fits`).
-/

namespace SolidityParser

open Delimiter (isStop isLineEnd)

/-- Where a reading stands that began after an opening quote. -/
inductive StringReading
  /-- Inside the string. -/
  | inside
  /-- After a backslash, which takes the next unit with it. -/
  | escaping
  /-- After the closing quote. -/
  | closed
  /-- After a line end, which left the string open. -/
  | broken
deriving DecidableEq

/-! ### Reading unit by unit -/

namespace StringReading

section Units

variable {α : Type} [DecidableEq α] [CodeUnit α]

/-- A reading after one more unit. -/
def step (quote : α) : StringReading → α → StringReading
  | inside, unit =>
    if unit = CodeUnit.ofAscii '\\' then escaping
    else if isLineEnd unit then broken
    else if unit = quote then closed
    else inside
  | escaping, _ => inside
  | closed, _ => closed
  | broken, _ => broken

/-- A reading after some units. -/
def after (quote : α) (units : List α) : StringReading := units.foldl (step quote) inside

/-- A reading meets the closing quote as the `n`-th unit of a text. -/
def EndsAt (quote : α) (text : List α) (n : Nat) : Prop :=
  ∃ before rest, text = before ++ quote :: rest ∧ n = before.length + 1 ∧
    after quote before = inside

variable {quote unit : α} {before front text rest : List α} {n : Nat}

/-- A text is read from the state after what stands before it. -/
theorem after_append (quote : α) (before text : List α) :
    after quote (before ++ text) = text.foldl (step quote) (after quote before) :=
  List.foldl_append

/-- Once closed, a string stays closed. -/
theorem foldl_closed (quote : α) (text : List α) : text.foldl (step quote) closed = closed := by
  induction text with
  | nil => rfl
  | cons unit text ih => exact ih

/-- So it does once broken. -/
theorem foldl_broken (quote : α) (text : List α) : text.foldl (step quote) broken = broken := by
  induction text with
  | nil => rfl
  | cons unit text ih => exact ih

/-- A unit that is no stop changes nothing. -/
theorem step_inside (h : isStop quote unit = false) : step quote inside unit = inside := by
  simp only [isStop, Bool.or_eq_false_iff, beq_eq_false_iff_ne] at h
  simp [step, h]

/-- Units that are no stops leave the state as it is. -/
theorem foldl_inside (h : ∀ unit ∈ text, isStop quote unit = false) :
    text.foldl (step quote) inside = inside := by
  induction text with
  | nil => rfl
  | cons unit text ih =>
    rw [List.foldl_cons, step_inside (h unit (.head _))]
    exact ih fun unit hunit => h unit (.tail _ hunit)

section Quote

variable (hslash : quote ≠ CodeUnit.ofAscii '\\') (hline : isLineEnd quote = false)
include hslash hline

/-- The quote closes a string that is read. -/
theorem step_quote : step quote inside quote = closed := by simp [step, hslash, hline]

/-- What was read without leaving the string does not count for where it ends. -/
theorem endsAt_append (h : after quote front = inside) :
    EndsAt quote (front ++ text) n ↔ ∃ m, n = front.length + m ∧ EndsAt quote text m := by
  constructor
  · rintro ⟨before, rest, hsplit, rfl, hbefore⟩
    rcases List.append_eq_append_iff.mp hsplit with ⟨a, rfl, rfl⟩ | ⟨a, rfl, hrest⟩
    · refine ⟨a.length + 1, by rw [List.length_append]; omega, a, rest, rfl, rfl, ?_⟩
      rwa [after_append, h] at hbefore
    · cases a with
      | nil =>
        rw [List.append_nil] at h ⊢
        exact ⟨1, rfl, [], rest, hrest.symm, rfl, rfl⟩
      | cons unit a =>
        -- the string would have been closed before
        obtain ⟨rfl, -⟩ := List.cons.inj hrest
        rw [after_append, hbefore, List.foldl_cons, step_quote hslash hline, foldl_closed] at h
        cases h
  · rintro ⟨m, rfl, before, rest, rfl, rfl, hbefore⟩
    refine ⟨front ++ before, rest, by simp, by rw [List.length_append]; omega, ?_⟩
    rw [after_append, h]
    exact hbefore

/-- A backslash takes the next unit with it. -/
theorem endsAt_escape : EndsAt quote (CodeUnit.ofAscii '\\' :: unit :: text) n ↔
    ∃ m, n = 2 + m ∧ EndsAt quote text m := by
  have hfront : after quote [CodeUnit.ofAscii '\\', unit] = inside := by simp [after, step]
  exact endsAt_append hslash hline hfront

/-- The quote itself ends a string. -/
theorem endsAt_quote : EndsAt quote (quote :: text) n ↔ n = 1 := by
  constructor
  · rintro ⟨before, rest, hsplit, rfl, hbefore⟩
    cases before with
    | nil => rfl
    | cons first before =>
      obtain ⟨rfl, -⟩ := List.cons.inj hsplit
      rw [after, List.foldl_cons, step_quote hslash hline, foldl_closed] at hbefore
      cases hbefore
  · rintro rfl
    exact ⟨[], text, rfl, rfl, rfl⟩

omit hline in
/-- A backslash at the end leaves a string open. -/
theorem not_endsAt_backslash : ¬ EndsAt quote [CodeUnit.ofAscii '\\'] n := by
  rintro ⟨before, rest, hsplit, -, -⟩
  cases before with
  | nil => exact hslash (List.cons.inj hsplit).1.symm
  | cons first before => simp at hsplit

end Quote

/-- A line end leaves a string open. -/
theorem not_endsAt_lineEnd (hline : isLineEnd quote = false) (hunit : isLineEnd unit = true)
    (hne : unit ≠ CodeUnit.ofAscii '\\') : ¬ EndsAt quote (unit :: text) n := by
  rintro ⟨before, rest, hsplit, -, hbefore⟩
  cases before with
  | nil =>
    obtain ⟨rfl, -⟩ := List.cons.inj hsplit
    rw [hline] at hunit
    cases hunit
  | cons first before =>
    obtain ⟨rfl, -⟩ := List.cons.inj hsplit
    have hbroken : step quote inside unit = broken := by simp [step, hne, hunit]
    rw [after, List.foldl_cons, hbroken, foldl_broken] at hbefore
    cases hbefore

/-- Without a stop a string does not end. -/
theorem not_endsAt_of_forall (h : ∀ unit ∈ text, isStop quote unit = false) :
    ¬ EndsAt quote text n := by
  rintro ⟨before, rest, rfl, -, -⟩
  have hquote := h quote (by simp)
  simp [isStop] at hquote

end Units

end StringReading

/-! ### From stop to stop -/

namespace Delimiter

section Units

variable {α : Type} [DecidableEq α] [CodeUnit α] {quote : α} {text : List α} {n : Nat}

open StringReading

/-- The stop that is found is the first. -/
theorem exists_stop {found : Nat} (h : text.findIdx? (isStop quote) = some found) :
    ∃ front unit rest, text = front ++ unit :: rest ∧ found = front.length ∧
      (∀ unit ∈ front, isStop quote unit = false) ∧ isStop quote unit = true := by
  obtain ⟨hlt, hfound, hfirst⟩ := List.findIdx?_eq_some_iff_getElem.mp h
  refine ⟨text.take found, text[found], text.drop (found + 1), ?_, ?_, ?_, hfound⟩
  · rw [List.getElem_cons_drop, List.take_append_drop]
  · rw [List.length_take_of_le (Nat.le_of_lt hlt)]
  · intro unit hunit
    obtain ⟨i, hi, rfl⟩ := List.mem_take_iff_getElem.mp hunit
    simpa using hfirst i (by omega)

/-- A stop that is no backslash and no line end is the quote. -/
theorem eq_quote_of_isStop {unit : α} (hstop : isStop quote unit = true)
    (hslash : unit ≠ CodeUnit.ofAscii '\\') (hline : isLineEnd unit = false) : unit = quote := by
  simpa [isStop, hslash, hline] using hstop

/-- The search from stop to stop ends a string where reading it does. -/
theorem stringEndAtFuel?_eq_some_iff (hslash : quote ≠ CodeUnit.ofAscii '\\')
    (hline : isLineEnd quote = false) {fuel : Nat} (hfuel : text.length < fuel) :
    stringEndAtFuel? quote fuel text = some n ↔ EndsAt quote text n := by
  induction fuel generalizing text n with
  | zero => cases hfuel
  | succ fuel ih =>
    unfold stringEndAtFuel?
    cases hfound : text.findIdx? (isStop quote) with
    | none => simp [not_endsAt_of_forall (List.findIdx?_eq_none_iff.mp hfound)]
    | some found =>
      obtain ⟨front, unit, rest, rfl, rfl, hfront, hstop⟩ := exists_stop hfound
      rw [endsAt_append hslash hline (foldl_inside hfront)]
      simp only [List.drop_left]
      by_cases hunit : unit = CodeUnit.ofAscii '\\'
      · rw [if_pos hunit, hunit]
        cases rest with
        | nil => simp [not_endsAt_backslash hslash]
        | cons next later =>
          simp only [List.length_append, List.length_cons] at hfuel
          simp only [Option.map_eq_some_iff, endsAt_escape hslash hline,
            ih (show later.length < fuel by omega)]
          constructor
          · rintro ⟨m, hm, rfl⟩
            exact ⟨2 + m, by omega, m, rfl, hm⟩
          · rintro ⟨_, rfl, m, rfl, hm⟩
            exact ⟨m, hm, by omega⟩
      · rw [if_neg hunit]
        cases hend : isLineEnd unit with
        | true => simp [not_endsAt_lineEnd hline hend hunit]
        | false =>
          obtain rfl := eq_quote_of_isStop hstop hunit hend
          simp [endsAt_quote hslash hline, eq_comm]

/-- The lexer's function ends a string where reading unit by unit does. -/
theorem stringEnd?_eq_some_iff_endsAt (hslash : quote ≠ CodeUnit.ofAscii '\\')
    (hline : isLineEnd quote = false) :
    stringEnd? quote text = some n ↔ EndsAt quote text n :=
  stringEndAtFuel?_eq_some_iff hslash hline (Nat.lt_succ_self _)

end Units

end Delimiter

/-! ### Bytes instead of characters -/

namespace StringReading

variable {quote : Char} {text : List Char} {n : Nat}

open Text (isAscii bytes byteLength)

/-- The bytes of a character do what the character does. -/
theorem foldl_utf8EncodeChar (hquote : isAscii quote = true) (reading : StringReading)
    (c : Char) : (String.utf8EncodeChar c).foldl (step (CodeUnit.ofAscii quote)) reading =
      step quote reading c := by
  cases reading with
  | closed => exact foldl_closed _ _
  | broken => exact foldl_broken _ _
  | escaping =>
    obtain ⟨first, more, hc⟩ := List.exists_cons_of_ne_nil (@String.utf8EncodeChar_ne_nil c)
    rw [hc]
    exact foldl_inside (Delimiter.isStop_tail hquote hc)
  | inside =>
    cases hstop : isStop quote c with
    | false => rw [step_inside hstop, foldl_inside (Delimiter.isStop_bytes hquote hstop)]
    | true =>
      have hc : isAscii c = true := by
        simp only [isStop, isLineEnd, Bool.or_eq_true, beq_iff_eq] at hstop
        rcases hstop with (rfl | rfl) | rfl | rfl <;> first | exact hquote | rfl
      rw [Text.utf8EncodeChar_ascii hc]
      simp only [List.foldl_cons, List.foldl_nil, step, isLineEnd,
        Delimiter.ofAscii_inj hc hquote, @Delimiter.ofAscii_inj c '\\' hc rfl,
        Bool.or_eq_true, beq_iff_eq, @Delimiter.ofAscii_inj c '\n' hc rfl,
        @Delimiter.ofAscii_inj c '\r' hc rfl]
      rfl

/-- The bytes of a text lead to the same state as its characters. -/
theorem after_bytes (hquote : isAscii quote = true) (text : List Char) :
    after (CodeUnit.ofAscii quote) (bytes text) = after quote text := by
  unfold after
  generalize inside = reading
  induction text generalizing reading with
  | nil => rfl
  | cons c text ih =>
    rw [Text.bytes_cons, List.foldl_append, foldl_utf8EncodeChar hquote, List.foldl_cons, ih]

/-- Among bytes a string ends with the byte of the character with which it ends. -/
theorem endsAt_bytes (hquote : isAscii quote = true) :
    EndsAt (CodeUnit.ofAscii quote) (bytes text) n ↔
      ∃ m, EndsAt quote text m ∧ n = byteLength (text.take m) := by
  have hsize (front later : List Char) :
      byteLength ((front ++ quote :: later).take (front.length + 1)) =
        (bytes front).length + 1 := by
    have htake : (front ++ quote :: later).take (front.length + 1) = front ++ [quote] := by
      rw [List.append_cons]
      exact List.take_left' (by simp)
    have hone : byteLength [quote] = 1 := by
      rw [← Text.length_bytes, Text.bytes_cons, Text.utf8EncodeChar_ascii hquote]
      rfl
    rw [htake, Text.byteLength_append, hone, Text.length_bytes]
  constructor
  · rintro ⟨before, rest, hsplit, rfl, hbefore⟩
    have hunit : (CodeUnit.ofAscii quote : UInt8).toNat < 128 := by
      rw [Delimiter.ofAscii_toNat hquote]
      exact of_decide_eq_true hquote
    obtain ⟨front, c, later, rfl, rfl, hc, heq⟩ := Text.exists_of_bytes_eq hunit hsplit
    obtain rfl := (Delimiter.ofAscii_inj hquote hc).mp heq
    rw [after_bytes hquote] at hbefore
    exact ⟨_, ⟨front, later, rfl, rfl, hbefore⟩, (hsize front later).symm⟩
  · rintro ⟨m, ⟨front, later, rfl, rfl, hfront⟩, rfl⟩
    refine ⟨bytes front, bytes later, ?_, hsize front later, ?_⟩
    · rw [Text.bytes_append, Text.bytes_cons, Text.utf8EncodeChar_ascii hquote]
      rfl
    · rwa [after_bytes hquote]

end StringReading

namespace Delimiter

/-- The byte of a quote is not taken for a backslash or a line end either. -/
theorem ofAscii_quote {quote : Char} (hquote : Text.isAscii quote = true) (hslash : quote ≠ '\\')
    (hline : isLineEnd quote = false) :
    (CodeUnit.ofAscii quote : UInt8) ≠ CodeUnit.ofAscii '\\' ∧
      isLineEnd (CodeUnit.ofAscii quote : UInt8) = false := by
  simp only [isLineEnd, Bool.or_eq_false_iff, beq_eq_false_iff_ne] at hline ⊢
  exact ⟨fun h => hslash ((ofAscii_inj hquote rfl).mp h),
    fun h => hline.1 ((ofAscii_inj hquote rfl).mp h),
    fun h => hline.2 ((ofAscii_inj hquote rfl).mp h)⟩

/-- The search among the bytes of a text finds the byte of the character that is found in it. -/
theorem stringEnd?_bytes {quote : Char} (hquote : Text.isAscii quote = true)
    (hslash : quote ≠ '\\') (hline : isLineEnd quote = false) (text : List Char) :
    stringEnd? (CodeUnit.ofAscii quote : UInt8) (Text.bytes text) =
      (stringEnd? quote text).map fun n => Text.byteLength (text.take n) := by
  obtain ⟨hslash', hline'⟩ := ofAscii_quote hquote hslash hline
  ext n
  rw [stringEnd?_eq_some_iff_endsAt hslash' hline', StringReading.endsAt_bytes hquote,
    Option.map_eq_some_iff]
  simp only [stringEnd?_eq_some_iff_endsAt hslash hline, eq_comm]

end Delimiter

/-! ### By index -/

namespace StringSearch

open StringReading

variable {search : ByteSearch} {quote unit : UInt8} {rest later : List UInt8}
  {position found : Nat}

/-- The nearer of two first places is the first place for either. -/
theorem merge_min_findIdx? (p q : UInt8 → Bool) (bytes : List UInt8) :
    Option.merge min (bytes.findIdx? p) (bytes.findIdx? q) =
      bytes.findIdx? fun byte => p byte || q byte := by
  induction bytes with
  | nil => rfl
  | cons byte bytes ih =>
    simp only [List.findIdx?_cons]
    rw [← ih]
    cases p byte <;> cases q byte <;> cases bytes.findIdx? p <;> cases bytes.findIdx? q <;>
      simp [Option.merge]

/-- The nearer of the two results is the next stop. -/
theorem nextStop_eq (hfinds : search.Finds) (hposition : position ≤ rest.length) :
    nextStop search quote rest position =
      .ok ((rest.drop position).findIdx? (isStop quote)) := by
  have hstop : isStop quote = fun unit => (unit == quote || unit == CodeUnit.ofAscii '\\' ||
      unit == CodeUnit.ofAscii '\n') || unit == CodeUnit.ofAscii '\r' := by
    funext unit
    simp only [isStop, isLineEnd, Bool.or_assoc]
  rw [hstop, ← merge_min_findIdx?, ← hfinds.one, ← hfinds.three]
  unfold nextStop
  rw [Bytes.suffix_of_le hposition]
  rfl

/-- What is done at a stop, told by what stands there. -/
theorem atStop_eq (h : rest.drop found = unit :: later) : atStop rest found = .ok
    (if unit = CodeUnit.ofAscii '\\' then
      if later = [] then .answer none else .goOn (found + 2)
    else if isLineEnd unit then .answer none else .answer (some (found + 1))) := by
  have hlength : rest.length = found + (later.length + 1) := by
    have := congrArg List.length h
    simp only [List.length_drop, List.length_cons] at this
    omega
  have hlast : rest.length ≤ found + 1 ↔ later = [] := by
    rw [← List.length_eq_zero_iff]
    omega
  unfold atStop
  rw [Bytes.read_of_drop h]
  simp only [bind, Except.bind, pure, Except.pure, hlast]
  split
  · split <;> rfl
  · split <;> rfl

/-- The search may stand at a position: what is before it was read without leaving the string. -/
structure Reached (quote : UInt8) (rest : List UInt8) (position : Nat) : Prop where
  le : position ≤ rest.length
  inside : after quote (rest.take position) = .inside

/-- What a round may come to: a position at which the search may stand, or the answer of reading one
byte at a time. -/
def Round.Fits (quote : UInt8) (rest : List UInt8) : Round → Prop
  | .goOn position => Reached quote rest position
  | .answer length => ∀ n, length = some n ↔ EndsAt quote rest n

namespace Reached

/-- Where a string ends is told by what is behind the position. -/
theorem endsAt_iff (h : Reached quote rest position) (hslash : quote ≠ CodeUnit.ofAscii '\\')
    (hline : isLineEnd quote = false) {n : Nat} :
    EndsAt quote rest n ↔ ∃ m, n = position + m ∧ EndsAt quote (rest.drop position) m := by
  conv => lhs; rw [← List.take_append_drop position rest]
  rw [endsAt_append hslash hline h.inside, List.length_take_of_le h.le]

/-- The search may go on over what does not leave the string. -/
theorem append {front : List UInt8} (h : Reached quote rest position)
    (hdrop : rest.drop position = front ++ later) (hfront : after quote front = .inside) :
    Reached quote rest (position + front.length) ∧
      rest.drop (position + front.length) = later := by
  have hlength := congrArg List.length hdrop
  rw [List.length_drop, List.length_append] at hlength
  have hle := h.le
  refine ⟨⟨by omega, ?_⟩, ?_⟩
  · rw [List.take_add, hdrop, List.take_left, after_append, h.inside]
    exact hfront
  · rw [← List.drop_drop, hdrop, List.drop_left]

end Reached

/-- A round that goes well is followed by the rest of the search, or by nothing. -/
theorem run_of_round {next : Round} (h : round search quote rest position = .ok next) :
    run search quote rest position =
      match next with
      | .goOn position => run search quote rest position
      | .answer length => .ok length := by
  rw [run]
  split
  · next herror =>
    rw [h] at herror
    cases herror
  · next hanswer =>
    rw [h] at hanswer
    cases hanswer
    rfl
  · next hgoOn =>
    rw [h] at hgoOn
    cases hgoOn
    rfl

section Quote

variable (hslash : quote ≠ CodeUnit.ofAscii '\\') (hline : isLineEnd quote = false)
include hslash hline

/-- At a stop the search goes on where it may stand, or has its answer. -/
theorem atStop_fits (h : Reached quote rest found) (hdrop : rest.drop found = unit :: later)
    (hstop : isStop quote unit = true) :
    ∃ next, atStop rest found = .ok next ∧ next.Fits quote rest := by
  refine ⟨_, atStop_eq hdrop, ?_⟩
  by_cases hunit : unit = CodeUnit.ofAscii '\\'
  · rw [if_pos hunit]
    cases later with
    | nil =>
      intro n
      simp [h.endsAt_iff hslash hline, hdrop, hunit, not_endsAt_backslash hslash]
    | cons next later =>
      have hpair : after quote [unit, next] = .inside := by simp [after, step, hunit]
      exact (h.append hdrop hpair).1
  · rw [if_neg hunit]
    cases hend : isLineEnd unit with
    | true =>
      intro n
      simp [h.endsAt_iff hslash hline, hdrop, not_endsAt_lineEnd hline hend hunit]
    | false =>
      obtain rfl := Delimiter.eq_quote_of_isStop hstop hunit hend
      intro n
      simp [h.endsAt_iff hslash hline, hdrop, endsAt_quote hslash hline, eq_comm]

/-- A round from where the search may stand reads nothing that is not there. -/
theorem round_fits (hfinds : search.Finds) (h : Reached quote rest position) :
    ∃ next, round search quote rest position = .ok next ∧ next.Fits quote rest := by
  unfold round
  rw [nextStop_eq hfinds h.le]
  cases hstop : (rest.drop position).findIdx? (isStop quote) with
  | none =>
    have hnone {m : Nat} : ¬ EndsAt quote (rest.drop position) m :=
      not_endsAt_of_forall (List.findIdx?_eq_none_iff.mp hstop)
    refine ⟨.answer none, rfl, fun n => ?_⟩
    simp [h.endsAt_iff hslash hline, hnone]
  | some offset =>
    obtain ⟨front, unit, later, hdrop, rfl, hfront, hunit⟩ := Delimiter.exists_stop hstop
    obtain ⟨hreached, hdrop'⟩ := h.append hdrop (foldl_inside hfront)
    exact atStop_fits hslash hline hreached hdrop' hunit

/-- The search ends, reads nothing that is not there, and answers as reading does. -/
theorem run_fits (hfinds : search.Finds) {position : Nat} (h : Reached quote rest position) :
    ∃ length, run search quote rest position = .ok length ∧
      ∀ n, length = some n ↔ EndsAt quote rest n := by
  obtain ⟨next, hround, hfits⟩ := round_fits hslash hline hfinds h
  rw [run_of_round hround]
  cases next with
  | answer length => exact ⟨length, rfl, hfits⟩
  | goOn next =>
    have hlt := lt_of_round hround
    exact run_fits hfinds hfits
termination_by rest.length - position

/-- The search by index comes to what the search from stop to stop does. -/
theorem stringEnd?_eq (hfinds : search.Finds) (rest : List UInt8) :
    stringEnd? search quote rest = .ok (Delimiter.stringEnd? quote rest) := by
  obtain ⟨length, hrun, hlength⟩ := run_fits hslash hline hfinds ⟨Nat.zero_le rest.length, rfl⟩
  rw [stringEnd?, hrun]
  congr 1
  ext n
  rw [hlength, Delimiter.stringEnd?_eq_some_iff_endsAt hslash hline]

end Quote

/-- Among the bytes of a text the search by index finds the byte of the character that the search
in the text finds. -/
theorem stringEnd?_text {quote : Char} (hquote : Text.isAscii quote = true)
    (hslash : quote ≠ '\\') (hline : isLineEnd quote = false) (hfinds : search.Finds)
    (text : List Char) :
    stringEnd? search (CodeUnit.ofAscii quote) (Text.bytes text) =
      .ok ((Delimiter.stringEnd? quote text).map fun n => Text.byteLength (text.take n)) := by
  obtain ⟨hslash', hline'⟩ := Delimiter.ofAscii_quote hquote hslash hline
  rw [stringEnd?_eq hslash' hline' hfinds, Delimiter.stringEnd?_bytes hquote hslash hline]

/-- For either quote, the search ends and reads nothing that is not there. It finds the `n`-th byte
exactly if reading one byte at a time, where a backslash takes the next byte with it, meets the
quote there inside the string. -/
theorem stringEnd?_reads {search : ByteSearch} (hfinds : search.Finds) {quote : UInt8}
    (hquote : quote = CodeUnit.ofAscii '\x22' ∨ quote = CodeUnit.ofAscii '\x27')
    (rest : List UInt8) :
    stringEnd? search quote rest = .ok (Delimiter.stringEnd? quote rest) ∧
      ∀ n, Delimiter.stringEnd? quote rest = some n ↔
        ∃ before later, rest = before ++ quote :: later ∧ n = before.length + 1 ∧
          StringReading.after quote before = .inside := by
  have hslash : quote ≠ CodeUnit.ofAscii '\\' := by
    rcases hquote with rfl | rfl <;> decide
  have hline : isLineEnd quote = false := by
    rcases hquote with rfl | rfl <;> decide
  exact ⟨stringEnd?_eq hslash hline hfinds rest,
    fun _ => Delimiter.stringEnd?_eq_some_iff_endsAt hslash hline⟩

/-- A body with an escaped quote, an escaped line feed and an escaped backslash before its end, and
another quote after it. -/
theorem stringEnd?_reads_escaped :
    let rest := Bytes.ofString "\\\x22é\\\n\x27\\\\\x22 \x22"
    ByteSearch.linear.Finds ∧ (34 : UInt8) = CodeUnit.ofAscii '\x22' ∧
      stringEnd? .linear 34 rest = .ok (some 10) ∧
      ∃ before later, rest = before ++ 34 :: later ∧ 10 = before.length + 1 ∧
        StringReading.after 34 before = .inside := by
  intro rest
  obtain ⟨hrun, hends⟩ := stringEnd?_reads ByteSearch.linear_finds (.inl rfl) rest
  have hfound : Delimiter.stringEnd? (CodeUnit.ofAscii '\x22') rest = some 10 := by decide +kernel
  rw [hfound] at hrun
  exact ⟨ByteSearch.linear_finds, rfl, hrun, (hends 10).mp hfound⟩

end StringSearch

end SolidityParser
