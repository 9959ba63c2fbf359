import SolidityParser.Lexer.ByteCursor
import SolidityParser.Proofs.Lexer.Delimiter

/-!
# The backslashes that a search passes

`Delimiter.search` is the search for the end of a string that keeps a record: with the end it gives
the offsets of the backslashes at which it skipped two units. The end is the one that `stringEnd?`
finds (`search_fst`). `Delimiter.Closes` describes a body by its units, one after the other, and a
search through a body that closes makes the record described (`Closes.search_append`).

A body that closes among characters closes among their bytes (`Closes.bytes`), with the offsets
counted in bytes. A skip of two bytes ends inside a character where a backslash stands before a long
one, but the bytes left of that character are none that the search stops at.
-/

namespace SolidityParser

/-- The UTF-8 bytes of a text. -/
def Text.bytes (text : List Char) : List UInt8 := text.flatMap String.utf8EncodeChar

namespace Delimiter

/-! ### The search and its record -/

section Units

variable {α : Type} [DecidableEq α] [CodeUnit α]

/-- The search of `stringEndAtFuel?`, with the offsets of the backslashes that it passes. -/
def searchAtFuel (quote : α) : Nat → List α → Option Nat × List Nat
  | 0, _ => (none, [])
  | fuel + 1, rest =>
    match rest.findIdx? (isStop quote) with
    | none => (none, [])
    | some found =>
      match rest.drop found with
      | [] => (none, [])
      | unit :: after =>
        if unit = CodeUnit.ofAscii '\\' then
          match after with
          | [] => (none, [])
          | _ :: later =>
            let (stop, passed) := searchAtFuel quote fuel later
            (stop.map (found + 2 + ·), found :: passed.map (found + 2 + ·))
        else if isLineEnd unit then (none, [])
        else (some (found + 1), [])

/-- Length of a string body, closing quote included, and the offsets of the backslashes that took
the next unit with them. -/
def search (quote : α) (rest : List α) : Option Nat × List Nat :=
  searchAtFuel quote (rest.length + 1) rest

/-- The rest of a string after its opening quote, with the offsets of the backslashes that take the
next unit with them. -/
inductive Closes (quote : α) : List α → List Nat → Prop
  | close : Closes quote [quote] []
  | escape (unit : α) {body : List α} {passed : List Nat} (rest : Closes quote body passed) :
      Closes quote (CodeUnit.ofAscii '\\' :: unit :: body) (0 :: passed.map (2 + ·))
  | plain {unit : α} {body : List α} {passed : List Nat} (stop : isStop quote unit = false)
      (rest : Closes quote body passed) : Closes quote (unit :: body) (passed.map (1 + ·))

variable {quote unit : α} {body rest : List α} {passed : List Nat} {fuel : Nat}

/-- The record does not change the end that is found. -/
theorem searchAtFuel_fst (quote : α) (fuel : Nat) (rest : List α) :
    (searchAtFuel quote fuel rest).1 = stringEndAtFuel? quote fuel rest := by
  induction fuel generalizing rest with
  | zero => rfl
  | succ fuel ih =>
    unfold searchAtFuel stringEndAtFuel?
    cases rest.findIdx? (isStop quote) with
    | none => rfl
    | some found =>
      dsimp only
      cases rest.drop found with
      | nil => rfl
      | cons unit after =>
        dsimp only
        split
        · cases after with
          | nil => rfl
          | cons next later => exact congrArg (Option.map _) (ih later)
        · split <;> rfl

/-- The search finds where a string ends. -/
theorem search_fst (quote : α) (rest : List α) :
    (search quote rest).1 = stringEnd? quote rest :=
  searchAtFuel_fst quote _ rest

/-- A unit that is no stop is passed over. -/
theorem searchAtFuel_skip (hstop : isStop quote unit = false) (fuel : Nat) (rest : List α) :
    searchAtFuel quote (fuel + 1) (unit :: rest) =
      ((searchAtFuel quote (fuel + 1) rest).1.map (1 + ·),
        (searchAtFuel quote (fuel + 1) rest).2.map (1 + ·)) := by
  unfold searchAtFuel
  rw [List.findIdx?_cons, hstop]
  cases rest.findIdx? (isStop quote) with
  | none => rfl
  | some found =>
    simp only [Bool.false_eq_true, if_false, Option.map_some, List.drop_succ_cons]
    cases rest.drop found with
    | nil => rfl
    | cons unit after =>
      dsimp only
      split
      · cases after with
        | nil => rfl
        | cons next later =>
          have hadd : ((1 + ·) ∘ (found + 2 + ·) : Nat → Nat) = (found + 1 + 2 + ·) := by
            funext n
            simp only [Function.comp_apply]
            omega
          simp only [Option.map_map, List.map_cons, List.map_map, hadd, Nat.add_comm 1 found]
      · split
        · rfl
        · simp only [Option.map_some, List.map_nil, Nat.add_comm 1 (found + 1)]

/-- The search through a body that closes ends with it, and passes its backslashes. -/
theorem Closes.searchAtFuel_append (hslash : quote ≠ CodeUnit.ofAscii '\\')
    (hline : isLineEnd quote = false) (h : Closes quote body passed) (rest : List α)
    (hfuel : body.length < fuel) :
    searchAtFuel quote fuel (body ++ rest) = (some body.length, passed) := by
  induction h generalizing fuel with
  | close =>
    obtain ⟨fuel, rfl⟩ := Nat.exists_eq_succ_of_ne_zero (Nat.ne_of_gt (Nat.zero_lt_of_lt hfuel))
    have hstop : isStop quote quote = true := by simp [isStop]
    simp [searchAtFuel, List.findIdx?_cons, hstop, hslash, hline]
  | @escape unit body passed _ ih =>
    obtain ⟨fuel, rfl⟩ := Nat.exists_eq_succ_of_ne_zero (Nat.ne_of_gt (Nat.zero_lt_of_lt hfuel))
    have hstop : isStop quote (CodeUnit.ofAscii '\\' : α) = true := by simp [isStop]
    simp only [List.length_cons] at hfuel
    have hrest := @ih fuel (by omega)
    simp [searchAtFuel, List.findIdx?_cons, hstop, hrest, Nat.add_comm 2]
  | @plain unit body passed hstop _ ih =>
    obtain ⟨fuel, rfl⟩ := Nat.exists_eq_succ_of_ne_zero (Nat.ne_of_gt (Nat.zero_lt_of_lt hfuel))
    rw [List.length_cons] at hfuel
    rw [List.cons_append, searchAtFuel_skip hstop, ih (by omega), List.length_cons,
      Option.map_some, Nat.add_comm]

/-- A body that closes is found to close, whatever comes after the quote. -/
theorem Closes.search_append (hslash : quote ≠ CodeUnit.ofAscii '\\')
    (hline : isLineEnd quote = false) (h : Closes quote body passed) (rest : List α) :
    search quote (body ++ rest) = (some body.length, passed) :=
  h.searchAtFuel_append hslash hline rest (by rw [List.length_append]; omega)

/-- Units that are no stops are passed over one by one. -/
theorem Closes.append_left (h : Closes quote body passed) :
    (before : List α) → (∀ unit ∈ before, isStop quote unit = false) →
      Closes quote (before ++ body) (passed.map (before.length + ·))
  | [], _ => by simpa using h
  | unit :: before, hbefore => by
    have hrest := h.append_left before fun unit hunit => hbefore unit (.tail _ hunit)
    have hadd : ((1 + ·) ∘ (before.length + ·) : Nat → Nat) = (before.length + 1 + ·) := by
      funext n
      simp only [Function.comp_apply]
      omega
    have hall := Closes.plain (hbefore unit (.head _)) hrest
    rwa [List.map_map, hadd] at hall

end Units

end Delimiter

/-! ### Bytes of characters -/

namespace Text

variable {c : Char} {unit : UInt8}

/-- Is the character one of ASCII? -/
def isAscii (c : Char) : Bool := decide (c.toNat < 128)

@[simp] theorem bytes_nil : bytes [] = [] := rfl

@[simp] theorem bytes_cons (c : Char) (text : List Char) :
    bytes (c :: text) = String.utf8EncodeChar c ++ bytes text := rfl

@[simp] theorem bytes_append (left right : List Char) :
    bytes (left ++ right) = bytes left ++ bytes right := List.flatMap_append

/-- There are as many bytes as the length of a text in bytes. -/
theorem length_bytes (text : List Char) : (bytes text).length = byteLength text := by
  induction text with
  | nil => rfl
  | cons c text ih => rw [bytes_cons, List.length_append, ih, String.length_utf8EncodeChar]; rfl

/-- The bytes of a source are those of its characters. -/
theorem bytes_toList (source : String) : source.toUTF8.data.toList = bytes source.toList := by
  conv => lhs; rw [← @String.ofList_toList source]
  rw [String.toUTF8_eq_toByteArray, String.toByteArray_ofList]
  exact List.toList_data_toByteArray

/-- A character of ASCII is one byte. -/
theorem utf8EncodeChar_ascii (h : isAscii c = true) :
    String.utf8EncodeChar c = [CodeUnit.ofAscii c] := by
  have hle : c.val.toNat ≤ 127 := Nat.le_of_lt_succ (of_decide_eq_true h)
  simp only [String.utf8EncodeChar, if_pos hle]
  rfl

/-- No byte of a longer character is one of ASCII. -/
theorem le_of_mem_utf8EncodeChar (h : isAscii c = false) (hunit : unit ∈ String.utf8EncodeChar c) :
    128 ≤ unit.toNat := by
  have hle : ¬ c.val.toNat ≤ 127 := fun hle => of_decide_eq_false h (Nat.lt_succ_of_le hle)
  simp only [String.utf8EncodeChar, if_neg hle] at hunit
  split at hunit
  · simp only [List.mem_cons, List.not_mem_nil, or_false] at hunit
    rcases hunit with rfl | rfl <;> simp only [UInt8.toNat_ofNat'] <;> omega
  · split at hunit
    · simp only [List.mem_cons, List.not_mem_nil, or_false] at hunit
      rcases hunit with rfl | rfl | rfl <;> simp only [UInt8.toNat_ofNat'] <;> omega
    · simp only [List.mem_cons, List.not_mem_nil, or_false] at hunit
      rcases hunit with rfl | rfl | rfl | rfl <;> simp only [UInt8.toNat_ofNat'] <;> omega

/-- Only the first byte of a character may be one of ASCII. -/
theorem le_of_mem_tail {first : UInt8} {more : List UInt8}
    (h : String.utf8EncodeChar c = first :: more) (hunit : unit ∈ more) : 128 ≤ unit.toNat := by
  cases hc : isAscii c with
  | false => exact le_of_mem_utf8EncodeChar hc (h ▸ .tail _ hunit)
  | true =>
    rw [utf8EncodeChar_ascii hc] at h
    cases h
    cases hunit

/-- A character has a first byte, which is none of ASCII unless the character is. -/
theorem exists_utf8EncodeChar (c : Char) : ∃ first more,
    String.utf8EncodeChar c = first :: more ∧ (isAscii c = false → 128 ≤ first.toNat) ∧
      ∀ unit ∈ more, 128 ≤ unit.toNat := by
  obtain ⟨first, more, hfirst⟩ := List.exists_cons_of_ne_nil (@String.utf8EncodeChar_ne_nil c)
  refine ⟨first, more, hfirst, fun hc => ?_, fun unit hunit => le_of_mem_tail hfirst hunit⟩
  exact le_of_mem_utf8EncodeChar hc (hfirst ▸ List.mem_cons_self)

/-- What holds of 128 characters holds of all of ASCII. -/
theorem forall_ascii {P : Char → Prop} (h : ∀ n : Fin 128, P (Char.ofNat n)) {c : Char}
    (hc : isAscii c = true) : P c := by
  have hchar := h ⟨c.toNat, of_decide_eq_true hc⟩
  rwa [Char.ofNat_toNat] at hchar

/-- The size of a text counts the bytes of its characters. -/
theorem byteLength_toList (value : String) : byteLength value.toList = value.utf8ByteSize := by
  rw [← length_bytes, ← bytes_toList]
  rfl

/-- A text of ASCII has a byte for each character. -/
theorem byteLength_of_ascii {text : List Char} (h : ∀ c ∈ text, isAscii c = true) :
    byteLength text = text.length := by
  induction text with
  | nil => rfl
  | cons c text ih =>
    rw [byteLength, ih fun c hc => h c (.tail _ hc), ← String.length_utf8EncodeChar,
      utf8EncodeChar_ascii (h c (.head _)), List.length_singleton, List.length_cons, Nat.add_comm]

/-- A byte of ASCII among the bytes of a text is that of a character. -/
theorem exists_of_bytes_eq {unit : UInt8} (hunit : unit.toNat < 128) {rest : List UInt8} :
    {text : List Char} → {before : List UInt8} → bytes text = before ++ unit :: rest →
      ∃ front c later, text = front ++ c :: later ∧ before = bytes front ∧ isAscii c = true ∧
        unit = CodeUnit.ofAscii c
  | [], before, h => by simp at h
  | c :: text, before, h => by
    have hlater {before : List UInt8} (h : bytes text = before ++ unit :: rest) :
        ∃ front d later, c :: text = front ++ d :: later ∧
          String.utf8EncodeChar c ++ before = bytes front ∧ isAscii d = true ∧
          unit = CodeUnit.ofAscii d := by
      obtain ⟨front, d, later, rfl, rfl, hd⟩ := exists_of_bytes_eq hunit h
      exact ⟨c :: front, d, later, rfl, rfl, hd⟩
    rcases List.append_eq_append_iff.mp h with ⟨a, rfl, hrest⟩ | ⟨a, hc, hrest⟩
    · exact hlater hrest
    · cases a with
      | nil =>
        obtain rfl : String.utf8EncodeChar c = before := by simpa using hc
        simpa using @hlater [] hrest.symm
      | cons first a =>
        -- the byte is one of the character, which then has no other
        obtain ⟨rfl, -⟩ := List.cons.inj hrest
        cases hascii : isAscii c with
        | false =>
          have hmem : unit ∈ String.utf8EncodeChar c := by simp [hc]
          have hle := le_of_mem_utf8EncodeChar hascii hmem
          omega
        | true =>
          rw [utf8EncodeChar_ascii hascii] at hc
          obtain ⟨rfl, hc⟩ : before = [] ∧ [CodeUnit.ofAscii c] = unit :: a := by
            cases before with
            | nil => exact ⟨rfl, hc⟩
            | cons _ before => simp at hc
          exact ⟨[], c, text, rfl, rfl, hascii, (List.cons.inj hc).1.symm⟩

end Text

namespace Delimiter

open Text

variable {c d quote : Char} {unit : UInt8} {body : List Char} {passed : List Nat}

/-- It has the number of the character. -/
theorem ofAscii_toNat (h : isAscii c = true) : (CodeUnit.ofAscii c : UInt8).toNat = c.toNat := by
  have hlt : c.toNat < 128 := of_decide_eq_true h
  exact Nat.mod_eq_of_lt (Nat.lt_trans hlt (by decide))

/-- Such bytes are different for different characters. -/
theorem ofAscii_inj (hc : isAscii c = true) (hd : isAscii d = true) :
    (CodeUnit.ofAscii c : UInt8) = CodeUnit.ofAscii d ↔ c = d := by
  refine ⟨fun h => ?_, congrArg _⟩
  have hnat := congrArg UInt8.toNat h
  rw [ofAscii_toNat hc, ofAscii_toNat hd] at hnat
  exact Char.toNat_inj.mp hnat

/-- The byte of an ASCII character is none of a longer character. -/
theorem ne_ofAscii_of_le (hd : isAscii d = true) (hle : 128 ≤ unit.toNat) :
    unit ≠ CodeUnit.ofAscii d := by
  rintro rfl
  have hlt : d.toNat < 128 := of_decide_eq_true hd
  rw [ofAscii_toNat hd] at hle
  omega

/-- A search among bytes stops at ASCII alone. -/
theorem isStop_of_le (hquote : isAscii quote = true) (hle : 128 ≤ unit.toNat) :
    isStop (CodeUnit.ofAscii quote) unit = false := by
  simp only [isStop, isLineEnd, Bool.or_eq_false_iff, beq_eq_false_iff_ne]
  exact ⟨⟨ne_ofAscii_of_le hquote hle, ne_ofAscii_of_le rfl hle⟩, ne_ofAscii_of_le rfl hle,
    ne_ofAscii_of_le rfl hle⟩

/-- A search among bytes stops at no byte of a character at which the search among characters does
not stop. -/
theorem isStop_bytes (hquote : isAscii quote = true) (hstop : isStop quote c = false) :
    ∀ unit ∈ String.utf8EncodeChar c, isStop (CodeUnit.ofAscii quote) unit = false := by
  intro unit hunit
  cases hc : isAscii c with
  | false => exact isStop_of_le hquote (le_of_mem_utf8EncodeChar hc hunit)
  | true =>
    rw [utf8EncodeChar_ascii hc, List.mem_singleton] at hunit
    subst hunit
    simp only [isStop, isLineEnd, Bool.or_eq_false_iff, beq_eq_false_iff_ne] at hstop ⊢
    simp only [Ne, ofAscii_inj hc hquote, @ofAscii_inj c '\\' hc rfl, @ofAscii_inj c '\n' hc rfl,
      @ofAscii_inj c '\r' hc rfl]
    exact hstop

/-- A skip that ends inside a character leaves no stop of it. -/
theorem isStop_tail (hquote : isAscii quote = true) {first : UInt8} {more : List UInt8}
    (hc : String.utf8EncodeChar c = first :: more) :
    ∀ unit ∈ more, isStop (CodeUnit.ofAscii quote) unit = false :=
  fun _ hunit => isStop_of_le hquote (le_of_mem_tail hc hunit)

/-- A body that closes among characters closes among their bytes. -/
theorem Closes.bytes (hquote : isAscii quote = true) (h : Closes quote body passed) :
    Closes (CodeUnit.ofAscii quote : UInt8) (Text.bytes body)
      (passed.map fun offset => byteLength (body.take offset)) := by
  induction h with
  | close =>
    rw [bytes_cons, utf8EncodeChar_ascii hquote]
    exact .close
  | @escape c body passed _ ih =>
    obtain ⟨first, more, hc⟩ :=
      List.exists_cons_of_ne_nil (@String.utf8EncodeChar_ne_nil c)
    have hsize : c.utf8Size = more.length + 1 := by
      rw [← String.length_utf8EncodeChar, hc, List.length_cons]
    have hslash : String.utf8EncodeChar (CodeUnit.ofAscii '\\') = [CodeUnit.ofAscii '\\'] :=
      utf8EncodeChar_ascii rfl
    have hoffset (offset : Nat) :
        byteLength ((CodeUnit.ofAscii '\\' :: c :: body).take (2 + offset)) =
          2 + (more.length + byteLength (body.take offset)) := by
      rw [Nat.add_comm 2, List.take_succ_cons, List.take_succ_cons, byteLength, byteLength, hsize]
      show 1 + _ = _
      omega
    have hrest := Closes.escape first (ih.append_left more (isStop_tail hquote hc))
    rw [bytes_cons, bytes_cons, hc, hslash, List.map_cons, List.take_zero, List.map_map]
    simp only [List.map_map, Function.comp_def] at hrest
    simp only [Function.comp_def, hoffset]
    exact hrest
  | @plain c body passed hstop _ ih =>
    have hoffset (offset : Nat) : byteLength ((c :: body).take (1 + offset)) =
        (String.utf8EncodeChar c).length + byteLength (body.take offset) := by
      rw [Nat.add_comm 1, List.take_succ_cons, byteLength, String.length_utf8EncodeChar]
    have hrest := ih.append_left _ (isStop_bytes hquote hstop)
    rw [bytes_cons]
    simpa only [List.map_map, Function.comp_def, hoffset] using hrest

end Delimiter

end SolidityParser
