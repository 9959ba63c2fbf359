import Mathlib.Data.List.DropRight
import Mathlib.Data.Prod.Lex
import SolidityParser.Proofs.Expected
import SolidityParser.Proofs.Lexer.Join
import SolidityParser.Proofs.Lexer.Lossless
import SolidityParser.Proofs.Lexer.Search
import SolidityParser.Proofs.Location
import SolidityParser.Proofs.Spans

/-!
# Offsets and the places they stand for

`LineTable.Resolves` says what a line table tells of the offsets of its text: the line of an offset
is counted in line feeds before it, and the column of an offset that cuts no character in characters
since the last of them. So on such offsets lines and columns are in the order of the offsets.

**Theorem** (`Source.offsets_resolve`): the table of a source that is not too long resolves its
offsets unless the source overflows (`Text.Overflows`): it is as long as a source may be, and either
all of it is line feeds, so that the line of its end is one too many for 32 bits, or none is and
every character is a byte, so that the column is. The number wraps to zero there, and that is what
the error of such a source gives as its column (`Source.not_resolves_blanks`).

A table has no column for an offset inside a character, and tells that of the end of the text
instead. No such offset is ever asked for: all that is given out about a source is placed by
offsets that cut no character.
-/

namespace SolidityParser

open Text (byteLength byteLength_append)

/-! ### Offsets that cut no character -/

namespace Text

variable {text before front middle after rest : List Char} {offset count : Nat} {span : Span}

/-- A text can be cut at the offset. -/
def IsBoundary (text : List Char) (offset : Nat) : Prop :=
  ∃ before after, text = before ++ after ∧ byteLength before = offset

/-- The number of line feeds among the first bytes of a text. -/
def lineFeeds (text : List Char) (count : Nat) : Nat := ((bytes text).take count).count 10

/-- A boundary is in the text, or at its end. -/
theorem IsBoundary.le (h : IsBoundary text offset) : offset ≤ byteLength text := by
  obtain ⟨before, after, rfl, rfl⟩ := h
  rw [byteLength_append]
  exact Nat.le_add_right _ _

/-- A cut of a part is one of the whole. -/
theorem IsBoundary.append (h : IsBoundary rest offset) (before after : List Char) :
    IsBoundary (before ++ rest ++ after) (byteLength before + offset) := by
  obtain ⟨left, right, rfl, rfl⟩ := h
  exact ⟨before ++ left, right ++ after, by simp, byteLength_append _ _⟩

/-- The end of any number of characters is a boundary. -/
theorem isBoundary_take (before text : List Char) (n : Nat) :
    IsBoundary (before ++ text) (byteLength (before ++ text.take n)) :=
  ⟨before ++ text.take n, text.drop n, by rw [List.append_assoc, List.take_append_drop], rfl⟩

/-- So is the beginning of a text. -/
theorem isBoundary_zero (text : List Char) : IsBoundary text 0 := ⟨[], text, rfl, rfl⟩

/-- So is its end. -/
theorem isBoundary_byteLength (text : List Char) : IsBoundary text (byteLength text) :=
  ⟨text, [], (List.append_nil text).symm, rfl⟩

/-- What is taken off the front of a text is a part of it with as many bytes. -/
theorem takeBytes?_eq_some_iff :
    takeBytes? count text = some front ↔
      ∃ after, text = front ++ after ∧ byteLength front = count := by
  constructor
  · intro h
    refine ⟨text.drop front.length, ?_, byteLength_of_takeBytes? h⟩
    induction text generalizing count front with
    | nil =>
      unfold takeBytes? at h
      split at h <;> cases h
      rfl
    | cons c cs ih =>
      unfold takeBytes? at h
      split at h
      · cases h
        rfl
      · split at h
        · obtain ⟨rest, hrest, rfl⟩ := Option.map_eq_some_iff.mp h
          exact congrArg (c :: ·) (ih hrest)
        · cases h
  · rintro ⟨after, rfl, rfl⟩
    exact takeBytes?_append front after

/-- A front of a text can be taken just up to a boundary. -/
theorem isSome_takeBytes?_iff : (takeBytes? count text).isSome ↔ IsBoundary text count := by
  simp only [Option.isSome_iff_exists, takeBytes?_eq_some_iff, IsBoundary]

/-- What is left of a text without its first bytes follows as many bytes. -/
theorem exists_of_dropBytes? (h : dropBytes? count text = some rest) :
    ∃ before, text = before ++ rest ∧ byteLength before = count := by
  induction text generalizing count with
  | nil =>
    unfold dropBytes? at h
    split at h <;> cases h
    exact ⟨[], rfl, (‹count = 0›).symm⟩
  | cons c cs ih =>
    unfold dropBytes? at h
    split at h
    · cases h
      exact ⟨[], rfl, (‹count = 0›).symm⟩
    · split at h
      · next hle =>
        obtain ⟨before, rfl, hbefore⟩ := ih h
        exact ⟨c :: before, rfl, by rw [byteLength, hbefore]; omega⟩
      · cases h

/-- What a span cuts out stands between its offsets. -/
theorem exists_of_slice? (h : slice? text span = some middle) :
    ∃ before after, text = before ++ middle ++ after ∧ span.start = byteLength before ∧
      span.stop = byteLength before + byteLength middle := by
  unfold slice? at h
  split at h
  · next hle =>
    obtain ⟨rest, hdrop, htake⟩ := Option.bind_eq_some_iff.mp h
    obtain ⟨before, rfl, hbefore⟩ := exists_of_dropBytes? hdrop
    obtain ⟨after, rfl, hmiddle⟩ := takeBytes?_eq_some_iff.mp htake
    refine ⟨before, after, by simp, hbefore.symm, ?_⟩
    rw [hbefore, hmiddle, Span.length]
    omega
  · cases h

/-- Both ends of a span that cuts something out are boundaries. -/
theorem isBoundary_of_slice? (h : slice? text span = some middle) :
    IsBoundary text span.start ∧ IsBoundary text span.stop := by
  obtain ⟨before, after, rfl, hstart, hstop⟩ := exists_of_slice? h
  refine ⟨⟨before, middle ++ after, by simp, hstart.symm⟩, before ++ middle, after, rfl, ?_⟩
  rw [byteLength_append, hstop]

/-- A character takes a byte at least. -/
theorem length_le_byteLength (text : List Char) : text.length ≤ byteLength text := by
  induction text with
  | nil => exact Nat.le_refl 0
  | cons c text ih =>
    have := c.utf8Size_pos
    rw [List.length_cons, byteLength]
    omega

/-! ### Line feeds among characters and among bytes -/

/-- A line feed is one byte, and no byte of another character. -/
theorem count_utf8EncodeChar (c : Char) :
    (String.utf8EncodeChar c).count 10 = if c = '\n' then 1 else 0 := by
  cases hc : isAscii c with
  | true =>
    have hbyte : (CodeUnit.ofAscii c : UInt8) = 10 ↔ c = '\n' :=
      @Delimiter.ofAscii_inj c '\n' hc rfl
    rw [utf8EncodeChar_ascii hc, List.count_singleton]
    simp [hbyte]
  | false =>
    rw [if_neg (by rintro rfl; cases hc)]
    refine List.count_eq_zero.mpr fun hmem => ?_
    exact absurd (le_of_mem_utf8EncodeChar hc hmem) (by decide)

/-- Of bytes that end inside the first character, none is a line feed. -/
theorem lineFeeds_of_lt {c : Char} (h : count < c.utf8Size) (text : List Char) :
    lineFeeds (c :: text) count = 0 := by
  have hlength : (String.utf8EncodeChar c).length = c.utf8Size := String.length_utf8EncodeChar c
  rw [lineFeeds, bytes_cons, List.take_append_of_le_length (by omega)]
  by_cases hc : c = '\n'
  · subst hc
    obtain rfl : count = 0 := Nat.lt_one_iff.mp h
    rfl
  · have hnone := count_utf8EncodeChar c
    rw [if_neg hc, List.count_eq_zero] at hnone
    exact List.count_eq_zero.mpr fun hmem => hnone (List.mem_of_mem_take hmem)

/-- Bytes that go on behind the first character. -/
theorem lineFeeds_of_le {c : Char} (h : c.utf8Size ≤ count) (text : List Char) :
    lineFeeds (c :: text) count =
      (if c = '\n' then 1 else 0) + lineFeeds text (count - c.utf8Size) := by
  have hlength : (String.utf8EncodeChar c).length = c.utf8Size := String.length_utf8EncodeChar c
  rw [lineFeeds, bytes_cons, List.take_append, hlength, List.take_of_length_le (by omega),
    List.count_append, count_utf8EncodeChar, lineFeeds]

/-- No more line feeds are counted than the text has. -/
theorem lineFeeds_le (text : List Char) (count : Nat) : lineFeeds text count ≤ text.count '\n' := by
  induction text generalizing count with
  | nil => simp [lineFeeds]
  | cons c text ih =>
    by_cases h : c.utf8Size ≤ count
    · have hrest := ih (count - c.utf8Size)
      rw [lineFeeds_of_le h, List.count_cons]
      by_cases hc : c = '\n'
      · rw [if_pos hc, if_pos (by simpa using hc)]
        omega
      · rw [if_neg hc]
        omega
    · rw [lineFeeds_of_lt (Nat.lt_of_not_le h)]
      exact Nat.zero_le _

/-- Without line feeds, all of a text stands on its last line. -/
theorem rtakeWhile_of_notMem (h : '\n' ∉ text) : text.rtakeWhile (· ≠ '\n') = text := by
  have hall : ∀ c ∈ text.reverse, decide (c ≠ '\n') = true := by
    intro c hc
    refine decide_eq_true fun heq => h ?_
    exact heq ▸ List.mem_reverse.mp hc
  rw [List.rtakeWhile, List.takeWhile_eq_self_iff.mpr hall, List.reverse_reverse]

/-! ### Texts with too many lines or columns -/

/-- A text as long as a source may be with as many lines, or as many columns on its one line, as
there are offsets: the number of the last does not fit in 32 bits. -/
def Overflows (text : List Char) : Prop :=
  text = List.replicate Span.limit '\n' ∨ text.length = Span.limit ∧ '\n' ∉ text

/-- A text that does not overflow has fewer line feeds than there are numbers. -/
theorem count_lt (hsize : byteLength text ≤ Span.limit) (h : ¬ Overflows text) :
    text.count '\n' < Span.limit := by
  have hlength := length_le_byteLength text
  have hcount : text.count '\n' ≤ text.length := List.count_le_length
  refine Nat.lt_of_le_of_ne (by omega) fun heq => h (.inl ?_)
  have hall : text.count '\n' = text.length := by omega
  rw [List.count_eq_length] at hall
  exact List.eq_replicate_iff.mpr ⟨by omega, fun c hc => (hall c hc).symm⟩

/-- Nor does a line of it have as many characters. -/
theorem column_lt (hsize : byteLength (before ++ after) ≤ Span.limit)
    (h : ¬ Overflows (before ++ after)) :
    (before.rtakeWhile (· ≠ '\n')).length < Span.limit := by
  have hlength := length_le_byteLength (before ++ after)
  have hsuffix : before.rtakeWhile (· ≠ '\n') <:+ before := List.rtakeWhile_suffix _ _
  have hle := hsuffix.length_le
  rw [List.length_append] at hlength
  refine Nat.lt_of_le_of_ne (by omega) fun heq => h (.inr ⟨?_, ?_⟩)
  · rw [List.length_append]
    omega
  · -- all of the text stands on the line
    have hself := hsuffix.eq_of_length (by omega)
    obtain rfl : after = [] := List.eq_nil_of_length_eq_zero (by omega)
    rw [List.append_nil, ← hself]
    intro hmem
    simpa using List.mem_rtakeWhile_imp hmem

end Text

/-! ### Bisection -/

/-- Searches sorted numbers between two indices: where a number stands, or else where it has to be
put in. -/
def bisect (numbers : Array Nat) (target low high : Nat) (hhigh : high ≤ numbers.size) :
    Except Nat Nat :=
  if h : low < high then
    let middle := low + (high - low) / 2
    have hmiddle : middle < numbers.size := by omega
    if numbers[middle] = target then .ok middle
    else if numbers[middle] < target then bisect numbers target (middle + 1) high hhigh
    else bisect numbers target low middle (by omega)
  else .error low
termination_by high - low

/-- The outcome of a search. -/
def IsFound (numbers : Array Nat) (target : Nat) : Except Nat Nat → Prop
  | .ok index => numbers[index]? = some target
  | .error index => index ≤ numbers.size ∧
      (∀ n ∈ numbers.toList.take index, n < target) ∧ ∀ n ∈ numbers.toList.drop index, target < n

/-- The search between indices that the number cannot stand outside of. -/
theorem bisect_isFound {numbers : Array Nat} {target low high : Nat} {hhigh : high ≤ numbers.size}
    (hsorted : numbers.toList.Pairwise (· < ·)) (hle : low ≤ high)
    (hbelow : ∀ n ∈ numbers.toList.take low, n < target)
    (habove : ∀ n ∈ numbers.toList.drop high, target < n) :
    IsFound numbers target (bisect numbers target low high hhigh) := by
  fun_induction bisect numbers target low high hhigh with
  | case1 low high hhigh hlt middle hmiddle heq =>
    exact Array.getElem?_eq_some_iff.mpr ⟨hmiddle, heq⟩
  | case2 low high hhigh hlt middle hmiddle hne hless ih =>
    refine ih (by omega) (fun n hn => ?_) habove
    rw [List.mem_take_iff_getElem] at hn
    obtain ⟨j, hj, rfl⟩ := hn
    rcases Nat.lt_or_eq_of_le (Nat.le_of_lt_succ (Nat.lt_of_lt_of_le hj (Nat.min_le_left ..)))
      with hj' | rfl
    · exact Nat.lt_trans (List.pairwise_iff_getElem.mp hsorted j middle _ hmiddle hj') hless
    · exact hless
  | case3 low high hhigh hlt middle hmiddle hne hless ih =>
    refine ih (by omega) hbelow fun n hn => ?_
    rw [List.mem_drop_iff_getElem] at hn
    obtain ⟨j, hj, rfl⟩ := hn
    have hfirst : target < numbers.toList[middle] := by
      have : numbers.toList[middle] = numbers[middle] := rfl
      omega
    rcases Nat.eq_zero_or_pos j with rfl | hpos
    · exact hfirst
    · exact Nat.lt_trans hfirst
        (List.pairwise_iff_getElem.mp hsorted middle _ hmiddle _ (by omega))
  | case4 low high hhigh hnot =>
    obtain rfl : low = high := by omega
    exact ⟨hhigh, hbelow, habove⟩

namespace LineTable

variable {lines column before middle after rest text : List Char} {line : LineStart}
  {later : List LineStart} {offset index target : Nat}

/-! ### The line of an offset -/

/-- The offsets at which the lines begin. -/
def starts (table : LineTable) : List Nat := (table.first :: table.later).map (·.offset)

/-- The index of the line on which a search for an offset ends: where no line begins at the offset,
of the last that begins before. -/
def lineFound : Except Nat Nat → Nat
  | .ok index => index
  | .error index => index - 1

/-- The line an offset falls on, found by bisection of the line starts. -/
def bisectedLine (table : LineTable) (offset : Nat) : Nat :=
  number (lineFound (bisect table.starts.toArray offset 0 table.starts.length (by simp)))

/-- Lines are recorded in the order in which they begin. -/
theorem pairwise_linesAfter (offset : Nat) (text : List Char) :
    (linesAfter offset text).Pairwise (·.offset < ·.offset) := by
  induction text generalizing offset with
  | nil => exact .nil
  | cons c text ih =>
    rw [linesAfter]
    split
    · exact List.pairwise_cons.mpr ⟨fun _ h => lt_offset_of_mem_linesAfter h, ih _⟩
    · exact ih _

/-- Lines begin one after the other. -/
theorem pairwise_starts (text : List Char) : (ofText text).starts.Pairwise (· < ·) :=
  List.pairwise_map.mpr <| List.pairwise_cons.mpr
    ⟨fun _ h => lt_offset_of_mem_linesAfter h, pairwise_linesAfter 0 text⟩

/-- The walk along the lines ends where the next one begins behind the target. -/
theorem lastStart_fst {count : Nat} (hcount : count ≤ later.length)
    (hle : ∀ next ∈ later.take count, next.offset ≤ target)
    (hlt : ∀ next ∈ later.drop count, target < next.offset) :
    (lastStart target index line later).1 = index + count := by
  induction count generalizing index line later with
  | zero => exact congrArg Prod.fst (lastStart_of_lt hlt)
  | succ count ih =>
    cases later with
    | nil => cases hcount
    | cons next later =>
      obtain ⟨hnext, hlater⟩ := List.forall_mem_cons.mp hle
      rw [lastStart, if_pos hnext, ih (Nat.le_of_succ_le_succ hcount) hlater hlt]
      omega

/-- The line with the last start that is not behind the offset. -/
theorem lineAt_eq {table : LineTable} {index : Nat} (hindex : index < table.starts.length)
    (hle : ∀ n ∈ table.starts.take (index + 1), n ≤ offset)
    (hlt : ∀ n ∈ table.starts.drop (index + 1), offset < n) :
    table.lineAt offset = number index := by
  rw [starts, List.length_map, List.length_cons] at hindex
  rw [starts, List.map_cons, List.take_succ_cons, ← List.map_take] at hle
  rw [starts, List.map_cons, List.drop_succ_cons, ← List.map_drop] at hlt
  rw [lineAt, lastStart_fst (Nat.le_of_lt_succ hindex)
    (List.forall_mem_map.mp (List.forall_mem_cons.mp hle).2) (List.forall_mem_map.mp hlt),
    Nat.zero_add]

/-- Bisection finds the line that the walk along the lines ends on. -/
theorem lineAt_eq_bisectedLine (text : List Char) (offset : Nat) :
    (ofText text).lineAt offset = (ofText text).bisectedLine offset := by
  have hsorted := pairwise_starts text
  have hsize : (ofText text).starts.length ≤ (ofText text).starts.toArray.size := by simp
  have hfound : IsFound (ofText text).starts.toArray offset
      (bisect (ofText text).starts.toArray offset 0 (ofText text).starts.length hsize) :=
    bisect_isFound hsorted (Nat.zero_le _) (by simp) (by simp)
  unfold bisectedLine
  cases hresult : bisect (ofText text).starts.toArray offset 0 (ofText text).starts.length _ with
  | ok index =>
    rw [hresult, IsFound, List.getElem?_toArray] at hfound
    rw [lineFound]
    obtain ⟨hindex, rfl⟩ := List.getElem?_eq_some_iff.mp hfound
    refine lineAt_eq hindex (fun n hn => ?_) fun n hn => ?_
    · obtain ⟨j, hj, rfl⟩ := List.mem_take_iff_getElem.mp hn
      rcases Nat.lt_or_eq_of_le (show j ≤ index by omega) with hj' | rfl
      · exact Nat.le_of_lt (List.pairwise_iff_getElem.mp hsorted j index _ hindex hj')
      · exact Nat.le_refl _
    · obtain ⟨j, hj, rfl⟩ := List.mem_drop_iff_getElem.mp hn
      exact List.pairwise_iff_getElem.mp hsorted index _ hindex _ (by omega)
  | error index =>
    rw [hresult] at hfound
    obtain ⟨hindex, hbelow, habove⟩ := hfound
    -- a line begins at the start of the text
    have hpos : 0 < index := by
      refine Nat.pos_of_ne_zero fun hzero => ?_
      rw [hzero] at habove
      exact Nat.not_lt_zero _ (habove 0 List.mem_cons_self)
    obtain ⟨last, rfl⟩ := Nat.exists_eq_succ_of_ne_zero (Nat.ne_of_gt hpos)
    exact lineAt_eq hindex (fun n hn => Nat.le_of_lt (hbelow n hn)) habove

/-- The index of the line counts the line feeds before the offset. -/
theorem lastStart_linesAfter (h : offset ≤ target) :
    (lastStart target index line (linesAfter offset text)).1 =
      index + Text.lineFeeds text (target - offset) := by
  induction text generalizing offset index line with
  | nil => simp [linesAfter, lastStart, Text.lineFeeds]
  | cons c text ih =>
    by_cases hnext : offset + c.utf8Size ≤ target
    · have hcount : target - offset - c.utf8Size = target - (offset + c.utf8Size) := by omega
      rw [Text.lineFeeds_of_le (by omega), hcount, linesAfter]
      by_cases hc : c = '\n'
      · rw [if_pos hc, if_pos hc, lastStart, if_pos hnext, ih hnext, Nat.add_assoc]
      · rw [if_neg hc, if_neg hc, Nat.zero_add, ih hnext]
    · rw [Text.lineFeeds_of_lt (by omega), lastStart_of_lt fun next hmem => ?_, Nat.add_zero]
      rw [linesAfter] at hmem
      split at hmem
      · rcases List.mem_cons.mp hmem with rfl | hmem
        · exact Nat.lt_of_not_le hnext
        · exact Nat.lt_trans (Nat.lt_of_not_le hnext) (lt_offset_of_mem_linesAfter hmem)
      · exact Nat.lt_trans (Nat.lt_of_not_le hnext) (lt_offset_of_mem_linesAfter hmem)

/-! ### The column of an offset -/

/-- What stands before an offset on its line; nothing is told of an offset inside a character. -/
def before? (table : LineTable) (offset : Nat) : Option (List Char) :=
  let clamped := min offset table.size
  let line := (lastStart clamped 0 table.first table.later).2
  Text.takeBytes? (clamped - line.offset) line.rest

/-- An offset of the text whose column is counted up to the offset itself. -/
def IsExact (table : LineTable) (offset : Nat) : Prop :=
  offset ≤ table.size ∧ (table.before? offset).isSome

/-- Lines begin where they say. -/
theorem exists_of_mem_linesAfter (h : line ∈ linesAfter offset text) :
    ∃ before, text = before ++ line.rest ∧ line.offset = offset + byteLength before := by
  induction text generalizing offset with
  | nil => cases h
  | cons c text ih =>
    have hlater (h : line ∈ linesAfter (offset + c.utf8Size) text) :
        ∃ before, c :: text = before ++ line.rest ∧ line.offset = offset + byteLength before := by
      obtain ⟨before, hbefore, hoffset⟩ := ih h
      exact ⟨c :: before, congrArg (c :: ·) hbefore, by rw [hoffset, byteLength, Nat.add_assoc]⟩
    rw [linesAfter] at h
    split at h
    · rcases List.mem_cons.mp h with rfl | h
      · exact ⟨[c], rfl, rfl⟩
      · exact hlater h
    · exact hlater h

/-- The walk along the lines ends on one of them, not behind the target. -/
theorem lastStart_snd (h : line.offset ≤ target) :
    (lastStart target index line later).2 ∈ line :: later ∧
      (lastStart target index line later).2.offset ≤ target := by
  induction later generalizing index line with
  | nil => exact ⟨List.mem_cons_self, h⟩
  | cons next later ih =>
    rw [lastStart]
    split
    · next hnext => exact ⟨.tail _ (ih hnext).1, (ih hnext).2⟩
    · exact ⟨List.mem_cons_self, h⟩

/-- The line that the walk ends on begins where the text before it ends. -/
theorem exists_lastStart (text : List Char) (target : Nat) :
    ∃ before, text = before ++ (lastStart target 0 ⟨0, text⟩ (linesAfter 0 text)).2.rest ∧
      (lastStart target 0 ⟨0, text⟩ (linesAfter 0 text)).2.offset = byteLength before ∧
        byteLength before ≤ target := by
  have hfirst : (⟨0, text⟩ : LineStart).offset ≤ target := Nat.zero_le target
  obtain ⟨hmem, hle⟩ :
      (lastStart target 0 ⟨0, text⟩ (linesAfter 0 text)).2 ∈ ⟨0, text⟩ :: linesAfter 0 text ∧ _ :=
    lastStart_snd hfirst
  rcases List.mem_cons.mp hmem with heq | hmem
  · rw [heq]
    exact ⟨[], rfl, rfl, Nat.zero_le _⟩
  · obtain ⟨before, hbefore, hoffset⟩ := exists_of_mem_linesAfter hmem
    rw [Nat.zero_add] at hoffset
    exact ⟨before, hbefore, hoffset, hoffset ▸ hle⟩

/-- The exact offsets of a text are those that cut no character. -/
theorem isExact_iff : (ofText text).IsExact offset ↔ Text.IsBoundary text offset := by
  constructor
  · rintro ⟨hle, hsome⟩
    have hclamped : min offset (ofText text).size = offset := Nat.min_eq_left hle
    rw [before?, hclamped] at hsome
    obtain ⟨before, hbefore, hoffset, hstart⟩ := exists_lastStart text offset
    have hcut := (Text.isSome_takeBytes?_iff.mp hsome).append before []
    change Text.IsBoundary (before ++ (lastStart offset 0 ⟨0, text⟩ (linesAfter 0 text)).2.rest ++ [])
      (byteLength before + (offset -
        (lastStart offset 0 ⟨0, text⟩ (linesAfter 0 text)).2.offset)) at hcut
    rwa [List.append_nil, ← hbefore, hoffset, Nat.add_sub_cancel' hstart] at hcut
  · intro h
    have hle := h.le
    obtain ⟨before, after, rfl, rfl⟩ := h
    obtain ⟨lines, column, rfl, hlines⟩ := exists_isLines before
    refine ⟨hle, ?_⟩
    have hclamped : min (byteLength (lines ++ column)) (ofText (lines ++ column ++ after)).size =
        byteLength (lines ++ column) := Nat.min_eq_left hle
    unfold before?
    dsimp only
    rw [hclamped]
    simp only [ofText]
    rw [lastStart_append hlines, byteLength_append, Nat.add_sub_cancel_left,
      Text.takeBytes?_append]
    rfl

/-- No more characters are counted than there are. -/
theorem charactersBefore_le (count : Nat) (text : List Char) :
    charactersBefore count text ≤ text.length := by
  unfold charactersBefore
  cases h : Text.takeBytes? count text with
  | none => exact Nat.le_refl _
  | some front =>
    obtain ⟨after, rfl, -⟩ := Text.takeBytes?_eq_some_iff.mp h
    rw [Option.getD_some, List.length_append]
    exact Nat.le_add_right _ _

/-- Line and column of the end of a part at the front. -/
theorem locate_byteLength (before after : List Char) :
    (ofText (before ++ after)).locate (byteLength before) =
      ⟨number (before.count '\n'), number (before.rtakeWhile (· ≠ '\n')).length,
        byteLength before⟩ := by
  obtain ⟨lines, column, rfl, h⟩ := exists_isLines before
  have hcount : (lines ++ column).count '\n' = lines.count '\n' := by
    rw [List.count_append, List.count_eq_zero.mpr h.open_line, Nat.add_zero]
  have hcolumn : (lines ++ column).rtakeWhile (· ≠ '\n') = column := by
    have hall : ∀ c ∈ column.reverse, decide (c ≠ '\n') = true := by
      intro c hc
      refine decide_eq_true fun heq => h.open_line ?_
      exact heq ▸ List.mem_reverse.mp hc
    have hstop : lines.reverse.takeWhile (· ≠ '\n') = [] := by
      cases hreverse : lines.reverse with
      | nil => rfl
      | cons c rest =>
        have hlast : c = '\n' := h.ended c (by rw [← List.head?_reverse, hreverse]; rfl)
        exact List.takeWhile_cons_of_neg (by simp [hlast])
    rw [List.rtakeWhile, List.reverse_append, List.takeWhile_append_of_pos hall, hstop,
      List.append_nil, List.reverse_reverse]
  rw [locate_append h, hcount, hcolumn]

/-- Nothing but the clamped offset counts. -/
theorem locate_min (table : LineTable) (offset : Nat) :
    table.locate (min offset table.size) = table.locate offset := by
  unfold locate
  rw [Nat.min_assoc, Nat.min_self]

/-- The place of a location in the order of lines and columns. -/
def order (table : LineTable) (offset : Nat) : ℕ ×ₗ ℕ :=
  toLex ((table.locate offset).line, (table.locate offset).column)

/-- Greater counts have greater numbers, short of the largest. -/
theorem number_lt_number {count other : Nat} (h : count < other) (hother : other < Span.limit) :
    number count < number other := by
  rw [number_of_lt hother, number_of_lt (Nat.lt_trans h hother)]
  exact Nat.succ_lt_succ h

/-- A number is at most the count it stands for, and one. -/
theorem number_le (count : Nat) : number count ≤ count + 1 := by
  unfold number
  split
  · exact Nat.mod_le _ _
  · exact Nat.le_trans (Nat.mod_le _ _) (by omega)

/-- Further on in the text, the line is a later one, or the column of the same line. -/
theorem order_lt (hmiddle : middle ≠ []) (before after : List Char)
    (hline : (before ++ middle).count '\n' < Span.limit)
    (hcolumn : ((before ++ middle).rtakeWhile (· ≠ '\n')).length < Span.limit) :
    (ofText (before ++ middle ++ after)).order (byteLength before) <
      (ofText (before ++ middle ++ after)).order (byteLength (before ++ middle)) := by
  have hbefore := locate_byteLength before (middle ++ after)
  rw [← List.append_assoc] at hbefore
  rw [order, order, hbefore, locate_byteLength, Prod.Lex.toLex_lt_toLex]
  dsimp only
  have hcount : (before ++ middle).count '\n' = before.count '\n' + middle.count '\n' :=
    List.count_append
  by_cases hfeed : '\n' ∈ middle
  · have := List.count_pos_iff.mpr hfeed
    exact .inl (number_lt_number (by omega) hline)
  · have hall : ∀ c ∈ middle.reverse, decide (c ≠ '\n') = true := by
      intro c hc
      refine decide_eq_true fun heq => hfeed ?_
      exact heq ▸ List.mem_reverse.mp hc
    have hlength : ((before ++ middle).rtakeWhile (· ≠ '\n')).length =
        (before.rtakeWhile (· ≠ '\n')).length + middle.length := by
      simp only [List.rtakeWhile, List.reverse_append, List.takeWhile_append_of_pos hall,
        List.length_append, List.length_reverse, Nat.add_comm]
    have hpos := List.length_pos_iff.mpr hmiddle
    rw [List.count_eq_zero.mpr hfeed, Nat.add_zero] at hcount
    exact .inr ⟨by rw [hcount], number_lt_number (by omega) hcolumn⟩

/-- What a line table tells of the offsets of a text. -/
structure Resolves (table : LineTable) (text : List Char) : Prop where
  /-- An offset past the end stands for the end. -/
  offset : ∀ o, (table.locate o).offset = min o (byteLength text)
  /-- The line is one more than the line feeds before the offset. -/
  line : ∀ o, (table.locate o).line = 1 + Text.lineFeeds text (min o (byteLength text))
  /-- The column is one more than the characters after the last of them, where the offset cuts no
  character. -/
  column : ∀ o before after, text = before ++ after → byteLength before = min o (byteLength text) →
    (table.locate o).column = 1 + (before.rtakeWhile (· ≠ '\n')).length
  /-- Lines begin one after the other, and the line of an offset is found by bisection. -/
  sorted : table.starts.Pairwise (· < ·)
  bisected : ∀ o, (table.locate o).line = table.bisectedLine (min o (byteLength text))
  /-- The column is not counted up to the offset where that cuts a character, and there alone. -/
  exact : ∀ o, table.IsExact o ↔ Text.IsBoundary text o
  /-- Offsets that cut no character are in the order of their lines and columns. -/
  strictMono : StrictMonoOn table.order {o | Text.IsBoundary text o}
  injective : Set.InjOn table.order {o | Text.IsBoundary text o}
  /-- No number is greater than the size of the text by more than one. -/
  bounded : ∀ o, (table.locate o).line ≤ byteLength text + 1 ∧
    (table.locate o).column ≤ byteLength text + 1

/-- The numbers of a text that does not overflow are in the order of its offsets. -/
theorem strictMonoOn_order (hsize : byteLength text ≤ Span.limit) (h : ¬ Text.Overflows text) :
    StrictMonoOn (ofText text).order {o | Text.IsBoundary text o} := by
  rintro o ⟨before, after, rfl, rfl⟩ o' ⟨before', after', htext, rfl⟩ hlt
  -- the shorter part at the front begins the longer one
  rcases List.append_eq_append_iff.mp htext with ⟨middle, rfl, rfl⟩ | ⟨middle, rfl, -⟩
  · have hmiddle : middle ≠ [] := by
      rintro rfl
      rw [List.append_nil] at hlt
      exact Nat.lt_irrefl _ hlt
    rw [← List.append_assoc] at hsize h ⊢
    have hcount : (before ++ middle ++ after').count '\n' =
        (before ++ middle).count '\n' + after'.count '\n' := List.count_append
    have hlimit := Text.count_lt hsize h
    exact order_lt hmiddle before after' (by omega) (Text.column_lt hsize h)
  · rw [byteLength_append] at hlt
    omega

/-- The line table of a text that does not overflow resolves its offsets. -/
theorem resolves_of_not_overflows (hsize : byteLength text ≤ Span.limit)
    (h : ¬ Text.Overflows text) : (ofText text).Resolves text where
  offset o := rfl
  line o := by
    have hline : ((ofText text).locate o).line =
        number (0 + Text.lineFeeds text (min o (byteLength text) - 0)) :=
      congrArg number (lastStart_linesAfter (Nat.zero_le _))
    rw [Nat.zero_add, Nat.sub_zero] at hline
    rw [hline, number_of_lt, Nat.add_comm]
    exact Nat.lt_of_le_of_lt (Text.lineFeeds_le _ _) (Text.count_lt hsize h)
  column o before after htext hbefore := by
    subst htext
    have hlocate := locate_byteLength before after
    rw [hbefore, show byteLength (before ++ after) = (ofText (before ++ after)).size from rfl,
      locate_min] at hlocate
    rw [hlocate, Nat.add_comm]
    exact number_of_lt (Text.column_lt hsize h)
  sorted := pairwise_starts text
  bisected o := lineAt_eq_bisectedLine text _
  exact o := isExact_iff
  strictMono := strictMonoOn_order hsize h
  injective := (strictMonoOn_order hsize h).injOn
  bounded o := by
    constructor
    · have hcount : Text.lineFeeds text (min o (byteLength text)) ≤ byteLength text := by
        rw [← Text.length_bytes]
        exact Nat.le_trans List.count_le_length (List.length_take_le' _ _)
      have hline : (lastStart (min o (byteLength text)) 0 ⟨0, text⟩ (linesAfter 0 text)).1 =
          0 + Text.lineFeeds text (min o (byteLength text)) :=
        lastStart_linesAfter (Nat.zero_le _)
      refine Nat.le_trans (number_le _) (Nat.succ_le_succ ?_)
      exact Nat.le_trans (Nat.le_of_eq hline) (by omega)
    · obtain ⟨before, htext, -, -⟩ := exists_lastStart text (min o (byteLength text))
      have hle := charactersBefore_le (min o (byteLength text) -
        (lastStart (min o (byteLength text)) 0 ⟨0, text⟩ (linesAfter 0 text)).2.offset)
        (lastStart (min o (byteLength text)) 0 ⟨0, text⟩ (linesAfter 0 text)).2.rest
      have hrest := Text.length_le_byteLength
        (lastStart (min o (byteLength text)) 0 ⟨0, text⟩ (linesAfter 0 text)).2.rest
      have hbytes := congrArg byteLength htext
      rw [byteLength_append] at hbytes
      refine Nat.le_trans (number_le _) (Nat.succ_le_succ ?_)
      simp only [ofText] at hle hrest hbytes ⊢
      omega

/-- At the end of a text that overflows, the line or the column is zero. -/
theorem not_resolves_of_overflows (h : Text.Overflows text) : ¬ (ofText text).Resolves text := by
  intro hresolves
  have hend := locate_byteLength text []
  rw [List.append_nil] at hend
  rcases h with rfl | ⟨hlength, hfeed⟩
  · have hline := hresolves.line (byteLength (List.replicate Span.limit '\n'))
    rw [hend, List.count_replicate_self] at hline
    dsimp only at hline
    rw [number_limit] at hline
    omega
  · have hcolumn := hresolves.column (byteLength text) text [] (List.append_nil text).symm
      (Nat.min_self _).symm
    rw [hend, Text.rtakeWhile_of_notMem hfeed, hlength] at hcolumn
    dsimp only at hcolumn
    rw [number_limit] at hcolumn
    omega

/-- The line table of a text that is not too long resolves its offsets unless the text overflows. -/
theorem resolves_ofText_iff (hsize : byteLength text ≤ Span.limit) :
    (ofText text).Resolves text ↔ ¬ Text.Overflows text :=
  ⟨fun h hoverflows => not_resolves_of_overflows hoverflows h, resolves_of_not_overflows hsize⟩

/-- Both ends of a span are exact. -/
def Cuts (table : LineTable) (span : Span) : Prop :=
  table.IsExact span.start ∧ table.IsExact span.stop

/-- A node of a tree stands between exact offsets, and so do the versions in it. -/
def Places (table : LineTable) (part : Part .located) : Prop :=
  table.Cuts part.place ∧
    ∀ value ∈ part.values, ∀ version ∈ value.versions, table.Cuts version.span

end LineTable

/-! ### Offsets of a source -/

/-- The versions of a text stand between boundaries. -/
theorem VersionLiteral.scanAtFuel_isBoundary {fuel : Nat} {before text : List Char}
    {v : VersionLiteral} (h : v ∈ scanAtFuel fuel (byteLength before) text) :
    Text.IsBoundary (before ++ text) v.span.start ∧ Text.IsBoundary (before ++ text) v.span.stop := by
  induction fuel generalizing before text with
  | zero => cases h
  | succ fuel ih =>
    match text with
    | [] => cases h
    | c :: cs =>
      unfold scanAtFuel at h
      dsimp only at h
      split at h
      · have hnext : byteLength (before ++ [c]) = byteLength before + c.utf8Size :=
          byteLength_append _ _
        rw [← hnext] at h
        simpa using ih h
      · rw [← byteLength_append] at h
        rcases List.mem_cons.mp h with rfl | h
        · exact ⟨⟨before, c :: cs, rfl, rfl⟩, Text.isBoundary_take before (c :: cs) _⟩
        · have hrest := ih h
          rwa [List.append_assoc, List.take_append_drop] at hrest

namespace Layout

/-- Versions in the value of a pragma stand between boundaries. -/
theorem versions_isBoundary (layout : Layout) (place : Extent) :
    ∀ v ∈ (layout.pragmaValue place).versions,
      Text.IsBoundary layout.text v.span.start ∧ Text.IsBoundary layout.text v.span.stop := by
  intro v hv
  have hscan := mem_scan hv
  unfold passage Text.slice at hscan
  cases hslice : Text.slice? layout.text (layout.span place) with
  | none =>
    rw [hslice] at hscan
    cases hscan
  | some middle =>
    obtain ⟨before, after, htext, hstart, -⟩ := Text.exists_of_slice? hslice
    rw [hslice, hstart] at hscan
    obtain ⟨hfirst, hlast⟩ := VersionLiteral.scanAtFuel_isBoundary hscan
    rw [htext]
    have happend {o : Nat} (h : Text.IsBoundary (before ++ middle) o) :
        Text.IsBoundary (before ++ middle ++ after) o := by
      simpa using h.append [] after
    exact ⟨happend hfirst, happend hlast⟩

end Layout

namespace Source

variable {source : String}

/-- Tokens and comments stand between boundaries. -/
theorem mark_isBoundary (mark : Mark) (h : mark ∈ (lex source).marks) :
    Text.IsBoundary source.toList mark.span.start ∧ Text.IsBoundary source.toList mark.span.stop := by
  have hsolid := Lexer.solid_pieces source.toList
  have htext : source.toList = (Lexer.pieces source.toList).flatMap (·.text) := by
    simpa using (Lexer.cuts_pieces source.toList).text_eq
  have hmarks : (lex source).marks = Lexer.marksFrom 0 (Lexer.pieces source.toList) :=
    Lexer.merge_tokensFrom fun piece hmem => (hsolid piece hmem).1
  rw [hmarks] at h
  exact Text.isBoundary_of_slice? (@Lexer.marksFrom_written _ [] _ htext mark h)

/-- Tokens begin and end between characters. -/
theorem token_isBoundary {token : Token} (h : token ∈ (lex source).tokens.tokens) :
    Text.IsBoundary source.toList token.span.start ∧ Text.IsBoundary source.toList token.span.stop :=
  mark_isBoundary (.token token) <|
    List.mem_merge_left _ (List.mem_map_of_mem (Array.mem_toList_iff.mpr h))

/-- So do comments. -/
theorem comment_isBoundary {comment : Comment} (h : comment ∈ (lex source).comments) :
    Text.IsBoundary source.toList comment.span.start ∧
      Text.IsBoundary source.toList comment.span.stop :=
  mark_isBoundary (.comment comment) <| List.mem_merge_right _ (List.mem_map_of_mem h)

/-- So do the spans of all indices, also past the end. -/
theorem tokenSpan_isBoundary (source : String) (n : Nat) :
    Text.IsBoundary source.toList ((lex source).tokens.span n).start ∧
      Text.IsBoundary source.toList ((lex source).tokens.span n).stop := by
  unfold TokenList.span
  split
  · next token htoken => exact token_isBoundary (Array.mem_of_getElem? htoken)
  · cases hlast : (lex source).tokens.tokens.back? with
    | none => exact ⟨Text.isBoundary_zero _, Text.isBoundary_zero _⟩
    | some token => exact token_isBoundary (Array.mem_of_back? hlast)

/-- The extents of the grammar come to spans between boundaries. -/
theorem span_isBoundary (source : String) (extent : Extent) :
    Text.IsBoundary source.toList ((layout source).span extent).start ∧
      Text.IsBoundary source.toList ((layout source).span extent).stop := by
  have hstart := (tokenSpan_isBoundary source extent.first).1
  refine ⟨hstart, ?_⟩
  have hlast : Text.IsBoundary source.toList ((lex source).tokens.spanBefore extent.next).stop := by
    unfold TokenList.spanBefore
    split
    · exact Text.isBoundary_zero _
    · exact (tokenSpan_isBoundary source _).2
  rcases Nat.le_total ((lex source).tokens.spanBefore extent.next).stop
      ((lex source).tokens.span extent.first).start with hle | hle
  · rw [Layout.span, layout]
    dsimp only
    rwa [Nat.max_eq_right hle]
  · rw [Layout.span, layout]
    dsimp only
    rwa [Nat.max_eq_left hle]

open LineTable in
/-- The nodes of a tree that is placed in a source. -/
theorem all_places (source : String) (part : Part .parsed) :
    (part.relocate (layout source).relocation).All (ofText source.toList).Places := by
  have hcuts {span : Span} (h : Text.IsBoundary source.toList span.start ∧
      Text.IsBoundary source.toList span.stop) : (ofText source.toList).Cuts span :=
    ⟨isExact_iff.mpr h.1, isExact_iff.mpr h.2⟩
  refine (Part.all_relocate _).mpr fun p _ => ⟨?_, ?_⟩
  · rw [Part.place_relocate]
    exact hcuts (span_isBoundary source p.place)
  · rw [Part.values_relocate]
    exact List.forall_mem_map.mpr fun value _ version hversion =>
      hcuts ((layout source).versions_isBoundary value version hversion)

open LineTable in
/-- All that is given out about a source is placed by offsets that are exact. -/
structure Exact (source : String) (table : LineTable) : Prop where
  token : ∀ token ∈ (lex source).tokens.tokens, table.Cuts token.span
  comment : ∀ comment ∈ (lex source).comments, table.Cuts comment.span
  /-- A comment that is found without cutting the rest into tokens. -/
  scanned : ∀ comment ∈ scanComments source, table.Cuts comment.span
  program : ∀ tolerant program, parse source tolerant = .ok program →
    table.Cuts program.span ∧ ∀ u ∈ program.body, (Part.unit u).All table.Places
  expression : ∀ e, parseExpression source = .ok e → (Part.expression e).All table.Places
  statement : ∀ s, parseStatement source = .ok s → (Part.statement s).All table.Places
  /-- The error of whatever is asked of the source. -/
  error : ∀ (request : Request) (error : SyntaxError), request.read source = .error error →
    ∃ o, table.IsExact o ∧ error.location = table.locate o

/-- The line table of a source that is not too long resolves its offsets if and only if the source
does not overflow, and is asked for none inside a character. -/
theorem offsets_resolve {source : String} (hsize : WithinLimit source) :
    ((LineTable.ofText source.toList).Resolves source.toList ↔ ¬ Text.Overflows source.toList) ∧
      Exact source (LineTable.ofText source.toList) := by
  have hcuts {span : Span} (h : Text.IsBoundary source.toList span.start ∧
      Text.IsBoundary source.toList span.stop) : (LineTable.ofText source.toList).Cuts span :=
    ⟨LineTable.isExact_iff.mpr h.1, LineTable.isExact_iff.mpr h.2⟩
  refine ⟨LineTable.resolves_ofText_iff hsize, ?_⟩
  constructor
  case token => exact fun token h => hcuts (token_isBoundary h)
  case comment => exact fun comment h => hcuts (comment_isBoundary h)
  case scanned =>
    have hscan : scanComments source = (lex source).comments :=
      (CommentScan.commentsFrom_pieces (Nat.le_refl _)).symm
    exact fun comment h => hcuts (comment_isBoundary (hscan ▸ h))
  case program =>
    intro tolerant program h
    obtain ⟨-, units, -, rfl⟩ := read_eq_ok_iff.mp h
    refine ⟨hcuts ⟨Text.isBoundary_zero _, Text.isBoundary_byteLength _⟩, ?_⟩
    exact List.forall_mem_map.mpr fun u _ => all_places source (.unit u)
  case expression =>
    intro e h
    obtain ⟨-, found, -, rfl⟩ := read_eq_ok_iff.mp h
    exact all_places source (.expression found)
  case statement =>
    intro s h
    obtain ⟨-, found, -, rfl⟩ := read_eq_ok_iff.mp h
    exact all_places source (.statement found)
  case error =>
    intro request error h
    obtain ⟨htoo, -⟩ | ⟨-, fault, s, -, rfl⟩ := Request.read_eq_error.mp h
    · exact absurd hsize htoo
    · exact ⟨_, LineTable.isExact_iff.mpr (tokenSpan_isBoundary source _).1, rfl⟩

/-- A source with a comment that holds a character of two bytes, on its second line. -/
theorem offsets_resolve_twoLines :
    let source := "a;\n/* é */ b;"
    WithinLimit source ∧ ¬ Text.Overflows source.toList ∧
      (LineTable.ofText source.toList).Resolves source.toList ∧
      Exact source (LineTable.ofText source.toList) ∧
      (LineTable.ofText source.toList).locate 11 = ⟨2, 8, 11⟩ ∧
      (LineTable.ofText source.toList).locate 7 = ⟨2, 11, 7⟩ := by
  intro source
  have hsize : WithinLimit source := by
    rw [withinLimit_ofList]
    decide
  have hshort : ¬ Text.Overflows source.toList := by
    have hlength : source.toList.length = 13 := by decide
    rintro (hfeeds | ⟨hlimit, -⟩)
    · have hlimit := congrArg List.length hfeeds
      rw [hlength, List.length_replicate] at hlimit
      exact absurd hlimit (by decide)
    · rw [hlength] at hlimit
      exact absurd hlimit (by decide)
  obtain ⟨hresolves, hexact⟩ := offsets_resolve hsize
  exact ⟨hsize, hshort, hresolves.mpr hshort, hexact, by decide, by decide⟩

/-- A row of blanks has a byte for each. -/
theorem byteLength_blanks (n : Nat) : byteLength (List.replicate n ' ') = n := by
  induction n with
  | zero => rfl
  | succ n ih =>
    rw [List.replicate_succ, byteLength, ih, Nat.add_comm]
    rfl

/-- It is one line. -/
theorem lineFeed_notMem_blanks (n : Nat) : '\n' ∉ List.replicate n ' ' := fun hmem =>
  absurd (List.eq_of_mem_replicate hmem) (by decide)

/-- A text of blanks has no token but the end. -/
theorem tokensFrom_blanks (n offset : Nat) :
    Lexer.tokensFrom offset (Lexer.pieces (List.replicate n ' ')) = [.ending (offset + n)] := by
  induction n generalizing offset with
  | zero => rfl
  | succ n ih =>
    rw [List.replicate_succ, Lexer.tokensFrom_pieces_blank rfl, ih, Nat.add_assoc, Nat.add_comm n]
    rfl

/-- Blanks are no expression, and the error is at their end. -/
theorem parseExpression_blanks {n : Nat} (h : WithinLimit (String.ofList (List.replicate n ' '))) :
    parseExpression (String.ofList (List.replicate n ' ')) =
      .error ⟨"Expected expression but end of input found.", 1, LineTable.number n, n⟩ := by
  have htokens : (lex (String.ofList (List.replicate n ' '))).tokens = ⟨#[.ending n]⟩ := by
    rw [lex, String.toList_ofList, Lexer.lexText]
    dsimp only
    rw [tokensFrom_blanks, Nat.zero_add]
  have hlexemes : (lex (String.ofList (List.replicate n ' '))).tokens.lexemes = #[⟨.eof, ""⟩] := by
    rw [htokens]
    simp [TokenList.lexemes, Token.ending]
  -- the grammar sees the end of the input alone
  have hfails : (errorOf? (Grammar.parseExpression #[⟨.eof, ""⟩])).map (fun record =>
      (record.position, record.message #[⟨.eof, ""⟩])) =
        some (0, "Expected expression but end of input found.") := by decide +kernel
  obtain ⟨record, hrecord, hmembers⟩ := Option.map_eq_some_iff.mp hfails
  obtain ⟨hposition, hmessage⟩ := Prod.mk.inj hmembers
  have hrun : Grammar.parseExpression #[⟨.eof, ""⟩] = .error record :=
    errorOf?_eq_some_iff.mp hrecord
  have hlocate := LineTable.locate_byteLength (List.replicate n ' ') []
  rw [List.append_nil, byteLength_blanks, List.count_eq_zero.mpr (lineFeed_notMem_blanks n),
    Text.rtakeWhile_of_notMem (lineFeed_notMem_blanks n), List.length_replicate] at hlocate
  unfold parseExpression
  rw [read_of_withinLimit h, hlexemes, hrun]
  refine congrArg Except.error ?_
  rw [syntaxError, layout, hlexemes, htokens, hposition, hmessage, String.toList_ofList]
  exact congrArg (SyntaxError.mk _) hlocate

/-- At the end of a source that is one line of blanks, and as long as a source may be, the column is
zero. The error of the source is there. -/
theorem not_resolves_blanks :
    WithinLimit (String.ofList (List.replicate Span.limit ' ')) ∧
      ¬ (LineTable.ofText (String.ofList (List.replicate Span.limit ' ')).toList).Resolves
        (String.ofList (List.replicate Span.limit ' ')).toList ∧
      parseExpression (String.ofList (List.replicate Span.limit ' ')) =
        .error ⟨"Expected expression but end of input found.", 1, 0, Span.limit⟩ := by
  have hsize : WithinLimit (String.ofList (List.replicate Span.limit ' ')) := by
    rw [withinLimit_ofList, byteLength_blanks]
  have hread := parseExpression_blanks hsize
  rw [LineTable.number_limit] at hread
  refine ⟨hsize, ?_, hread⟩
  rw [String.toList_ofList]
  exact LineTable.not_resolves_of_overflows
    (.inr ⟨List.length_replicate, lineFeed_notMem_blanks Span.limit⟩)

end Source

end SolidityParser
