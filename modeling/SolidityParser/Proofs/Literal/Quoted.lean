import SolidityParser.Literal.Quoted
import SolidityParser.Proofs.Lexer.Munch
import SolidityParser.Proofs.Lexer.Search

/-!
# Strings are read as they were cut

**Theorem** (`lex_strings_agree`): every text has an escaped form that lexes as one string token and
decodes to the text, and in every string token with escapes the decoder and the search for the
closing quote take the same backslashes together with the same characters.

`Quoted.read` is the decoder that keeps a record of the backslashes that begin an escape. A body
that closes is one through which the decoder goes in step with the search
(`Quoted.closes_readFrom`): whatever an escape leaves open, a backslash that the search passes
finds the decoder not in the middle of an escape, and hexadecimal digits and continued lines take no
backslash.
-/

namespace SolidityParser

namespace Quoted

open Delimiter (Closes)
open Text (IsStringBody)

/-! ### The decoder and its record -/

/-- What the decoder makes of a body. -/
structure Reading where
  /-- The text that it stands for. -/
  text : List Char
  /-- The offsets of the backslashes that begin an escape. -/
  escapes : List Nat
  /-- What the end of the body leaves open. -/
  left : Pending

/-- The reading of `unescapeFrom`, with its record. -/
def readFrom : Pending → List Char → Reading
  | pending, [] => ⟨[], [], pending⟩
  | pending, c :: cs =>
    let (yielded, next) := step pending c
    let rest := readFrom next cs
    ⟨yielded ++ rest.text,
      (if next = .escape then [0] else []) ++ rest.escapes.map (1 + ·), rest.left⟩

/-- The reading of a body. -/
def read (body : List Char) : Reading := readFrom .nothing body

variable {pending : Pending} {c mark : Char} {cs body text : List Char} {kind : StringKind}

/-- The record does not change the text. -/
theorem readFrom_text (pending : Pending) (body : List Char) :
    (readFrom pending body).text = unescapeFrom pending body := by
  induction body generalizing pending with
  | nil => rfl
  | cons c body ih => exact congrArg ((step pending c).1 ++ ·) (ih _)

/-- An escape begins with each backslash that is not escaped itself. -/
theorem step_eq_escape_iff : (step pending c).2 = .escape ↔ pending ≠ .escape ∧ c = '\\' := by
  have hplain : (plain c).2 = .escape ↔ c = '\\' := by
    unfold plain
    split <;> simp_all
  cases pending with
  | nothing => simp [step, hplain]
  | escape =>
    simp only [step]
    split <;> simp
  | digits left value =>
    simp only [step]
    split
    · next hdigit =>
      have hslash : c ≠ '\\' := by
        rintro rfl
        cases hdigit
      cases left <;> simp [hslash]
    · simp [hplain]
  | continued =>
    simp only [step]
    split
    · next hline => simp [hline]
    · simp [hplain]

/-- Outside an escape, a backslash and the next character are taken together. -/
theorem readFrom_escape (h : pending ≠ .escape) (c : Char) (cs : List Char) :
    ∃ next ≠ .escape, (readFrom pending ('\\' :: c :: cs)).escapes =
        0 :: (readFrom next cs).escapes.map (2 + ·) ∧
      (readFrom pending ('\\' :: c :: cs)).left = (readFrom next cs).left := by
  have hfirst : (step pending '\\').2 = .escape := step_eq_escape_iff.mpr ⟨h, rfl⟩
  have hnext : (step .escape c).2 ≠ .escape := fun hc => (step_eq_escape_iff.mp hc).1 rfl
  refine ⟨_, hnext, ?_, ?_⟩
  · simp only [readFrom, hfirst, hnext, if_true, if_false, List.nil_append, List.map_map,
      List.singleton_append]
    congr 2
    funext n
    simp only [Function.comp_apply]
    omega
  · simp only [readFrom, hfirst]

/-- Outside an escape, any other character is taken alone. -/
theorem readFrom_plain (h : c ≠ '\\') (pending : Pending) (cs : List Char) :
    ∃ next ≠ .escape,
      (readFrom pending (c :: cs)).escapes = (readFrom next cs).escapes.map (1 + ·) ∧
        (readFrom pending (c :: cs)).left = (readFrom next cs).left := by
  have hnext : (step pending c).2 ≠ .escape := fun hc => h (step_eq_escape_iff.mp hc).2
  refine ⟨_, hnext, ?_, rfl⟩
  simp only [readFrom, hnext, if_false, List.nil_append]

/-- The decoder goes through a body that closes in step with the search for its end, and leaves no
backslash without its character. -/
theorem closes_readFrom {full : List Char} (hfull : IsStringBody mark full) :
    ∃ body, full = body ++ [mark] ∧ ∀ pending ≠ Pending.escape,
      Closes mark full (readFrom pending body).escapes ∧
        (readFrom pending body).left ≠ .escape := by
  induction hfull with
  | close => exact ⟨[], rfl, fun pending h => ⟨.close, h⟩⟩
  | @escape c full _ ih =>
    obtain ⟨body, rfl, hbody⟩ := ih
    refine ⟨'\\' :: c :: body, rfl, fun pending h => ?_⟩
    obtain ⟨next, hnext, hescapes, hleft⟩ := readFrom_escape h c body
    obtain ⟨hcloses, hclosed⟩ := hbody next hnext
    rw [hescapes, hleft]
    exact ⟨.escape c hcloses, hclosed⟩
  | @plain c full hstop _ ih =>
    obtain ⟨body, rfl, hbody⟩ := ih
    refine ⟨c :: body, rfl, fun pending _ => ?_⟩
    have hslash : c ≠ '\\' := by
      rintro rfl
      simp [Delimiter.isStop, CodeUnit.ofAscii] at hstop
    obtain ⟨next, hnext, hescapes, hleft⟩ := readFrom_plain hslash pending body
    obtain ⟨hcloses, hclosed⟩ := hbody next hnext
    rw [hescapes, hleft]
    exact ⟨.plain hstop hcloses, hclosed⟩

/-- Each escape has a backslash, and a character after it unless the body ends there. -/
theorem lt_of_mem_escapes (pending : Pending) (body : List Char) {i : Nat}
    (hi : i ∈ (readFrom pending body).escapes) :
    body[i]? = some '\\' ∧ ((readFrom pending body).left ≠ .escape → i + 1 < body.length) := by
  induction body generalizing pending i with
  | nil => cases hi
  | cons c body ih =>
    simp only [readFrom, List.mem_append, List.mem_map] at hi
    rcases hi with hi | ⟨n, hn, rfl⟩
    · split at hi
      · next hnext =>
        obtain rfl := List.mem_singleton.mp hi
        refine ⟨congrArg some (step_eq_escape_iff.mp hnext).2, fun hleft => ?_⟩
        cases body with
        | nil => exact absurd hnext hleft
        | cons d body => simp
      · cases hi
    · obtain ⟨hslash, hlt⟩ := ih _ hn
      rw [Nat.add_comm, List.getElem?_cons_succ, List.length_cons]
      exact ⟨hslash, fun hleft => Nat.succ_lt_succ (hlt hleft)⟩

/-! ### Tokens -/

/-- A string token is decoded by its kind. -/
theorem ofToken_append (hmark : mark ∈ ['\x22', '\x27']) (kind : StringKind) (body : List Char) :
    ofToken (kind.marker ++ mark :: (body ++ [mark])) = (kind, decode kind body) := by
  have hbody : Quoted.body (mark :: (body ++ [mark])) = body := by simp [Quoted.body]
  have hsplit : splitMarker (kind.marker ++ mark :: (body ++ [mark])) =
      (kind, mark :: (body ++ [mark])) := by
    rcases List.mem_pair.mp hmark with rfl | rfl <;> cases kind <;> rfl
  simp only [ofToken, hsplit, hbody]

/-- How a string token with escapes is read: `mark` is its quote and `body` what stands between its
quotes. -/
structure Agrees (source : String) (token : Token) (kind : StringKind) (mark : Char)
    (body : List Char) : Prop where
  text_eq : token.text.toList = kind.marker ++ mark :: (body ++ [mark])
  /-- The token stands for what is decoded. -/
  decoded : ofToken token.text.toList = (kind, (read body).text)
  /-- The search through the bytes behind the opening quote ends with the token, and it skips two
  bytes exactly at the backslashes that begin an escape. -/
  searched : Delimiter.search (CodeUnit.ofAscii mark : UInt8)
      (ByteCursor.mk (.ofSource source) (token.span.start + kind.marker.length + 1)).rest =
    (some (Text.byteLength body + 1),
      (read body).escapes.map fun offset => Text.byteLength (body.take offset))
  /-- Each of these backslashes has the next character of the body. -/
  paired : ∀ offset ∈ (read body).escapes, body[offset]? = some '\\' ∧ offset + 1 < body.length
  /-- The body does not end after such a backslash. -/
  complete : (read body).left ≠ .escape

end Quoted

namespace Lexer

variable {text : List Char} {n : Nat} {kind : StringKind}

/-- A token tells its kind of string. -/
theorem stringToken_inj {other : StringKind} (h : stringToken kind = stringToken other) :
    kind = other := by
  cases kind <;> cases other <;> first | rfl | cases h

/-- A piece that is a string has its marker, a quote, and a body up to the quote that closes it. -/
theorem Munch.exists_body (h : Munch text (.token (stringToken kind)) n) :
    ∃ mark body after, .quote kind mark ∈ Pattern.all ∧ Text.IsStringBody mark body ∧
      text = kind.marker ++ mark :: (body ++ after) ∧
      text.take n = kind.marker ++ mark :: body := by
  generalize hsort : PieceSort.token (stringToken kind) = sort at h
  cases h with
  | blank | lineComment | blockComment => cases hsort
  | openComment | openString | number | hexNumber | unknown =>
    cases kind <;> cases hsort
  | word longest classified =>
    cases hsort
    rcases classified with ⟨hmem, -⟩ | ⟨hident, -⟩
    · exact absurd hmem (by cases kind <;> decide)
    · cases kind <;> cases hident
  | symbol longest =>
    cases hsort
    exact absurd longest.mem (by cases kind <;> decide)
  | @string n other mark body after longest htext hclosed =>
    obtain rfl := stringToken_inj (PieceSort.token.inj hsort)
    have hopen : text.take n = kind.marker ++ [mark] := longest.fits.2
    have hwhole : text = kind.marker ++ mark :: (body ++ after) := by
      rw [← List.take_append_drop n text, hopen, htext, List.append_assoc]
      rfl
    refine ⟨mark, body, after, longest.mem, hclosed, hwhole, ?_⟩
    rw [List.take_add, hopen, htext, List.take_left, List.append_assoc]
    rfl

/-- A token but the last is munched at its place. -/
theorem exists_munch {rest : List Char} {ps : List Piece} (h : Cuts text ps rest)
    {offset : Nat} {token : Token} (hmem : token ∈ tokensFrom offset ps)
    (hkind : token.kind ≠ .eof) :
    ∃ before left n, text = before ++ left ∧ token.span.start = offset + Text.byteLength before ∧
      token.text.toList = left.take n ∧ Munch left (.token token.kind) n := by
  induction h generalizing offset with
  | nil =>
    obtain rfl := List.mem_singleton.mp hmem
    exact absurd rfl hkind
  | @cons text rest ps _ _ ih =>
    have later (h : token ∈ tokensFrom (offset + Text.byteLength (text.take (front text).2)) ps) :
        ∃ before left n, text = before ++ left ∧
          token.span.start = offset + Text.byteLength before ∧
          token.text.toList = left.take n ∧ Munch left (.token token.kind) n := by
      obtain ⟨before, left, n, hleft, hstart, hrest⟩ := ih h
      refine ⟨text.take (front text).2 ++ before, left, n, ?_, ?_, hrest⟩
      · rw [List.append_assoc, ← hleft, List.take_append_drop]
      · rw [hstart, Text.byteLength_append, Nat.add_assoc]
    unfold tokensFrom at hmem
    dsimp only at hmem
    cases hsort : (front text).1 with
    | blank | comment => exact later (by simpa only [hsort] using hmem)
    | token kind =>
      rw [hsort] at hmem
      rcases List.mem_cons.mp hmem with rfl | hmem
      · exact ⟨[], text, (front text).2, rfl, rfl, String.toList_ofList, hsort ▸ munch_front text⟩
      · exact later hmem

end Lexer

namespace Quoted

open Text (byteLength)

variable {source : String} {token : Token} {kind : StringKind}

/-- The bytes behind a part of a source. -/
theorem rest_of_eq_append {before after : List Char} (h : source.toList = before ++ after)
    {position : Nat} (hposition : position = byteLength before) :
    (ByteCursor.mk (.ofSource source) position).rest = Text.bytes after := by
  have hbytes : (SourceBuffer.ofSource source).bytes.toList = Text.bytes source.toList :=
    Text.bytes_toList source
  rw [ByteCursor.rest, hbytes, h, Text.bytes_append, hposition, ← Text.length_bytes,
    List.drop_left]

/-- A string token is written with its marker and between quotes. -/
theorem exists_written (h : token ∈ (lex source).tokens.tokens.toList)
    (hkind : token.kind = Lexer.stringToken kind) :
    ∃ mark ∈ ['\x22', '\x27'], ∃ before body after,
      source.toList = before ++ (kind.marker ++ mark :: (body ++ [mark] ++ after)) ∧
        token.span.start = byteLength before ∧
        token.text.toList = kind.marker ++ mark :: (body ++ [mark]) ∧
        Text.IsStringBody mark (body ++ [mark]) := by
  have heof : token.kind ≠ .eof := by
    rw [hkind]
    cases kind <;> decide
  have hcuts := Lexer.cuts_pieces source.toList
  obtain ⟨before, left, n, hsource, hstart, htext, hmunch⟩ := Lexer.exists_munch hcuts h heof
  rw [hkind] at hmunch
  obtain ⟨mark, full, after, hmem, hclosed, rfl, htake⟩ := hmunch.exists_body
  have hmark : mark ∈ ['\x22', '\x27'] := by
    simp [Pattern.all] at hmem
    grind
  obtain ⟨body, rfl, -⟩ := closes_readFrom hclosed
  exact ⟨mark, hmark, before, body, after, hsource, by rwa [Nat.zero_add] at hstart,
    htext.trans htake, hclosed⟩

/-- The kind of a string token is the one that its marker tells. -/
theorem kind_eq_of_mem_lex (h : token ∈ (lex source).tokens.tokens.toList)
    (hstring : token.kind.isString = true) :
    token.kind = Lexer.stringToken (kindOf token.text) := by
  obtain ⟨kind, hkind⟩ : ∃ kind, token.kind = Lexer.stringToken kind := by
    unfold Kind.isString at hstring
    split at hstring
    · next hk => exact ⟨.plain, hk⟩
    · next hk => exact ⟨.hex, hk⟩
    · next hk => exact ⟨.unicode, hk⟩
    · cases hstring
  obtain ⟨mark, hmark, -, body, -, -, -, htext, -⟩ := exists_written h hkind
  rw [hkind, kindOf, htext, ofToken_append hmark]

/-- The search through the bytes of a body up to its quote stops there, and skips what is skipped in
the body. -/
theorem search_bytes {mark : Char} (hmark : mark ∈ ['\x22', '\x27']) {body after : List Char}
    {skipped : List Nat} (hcloses : Delimiter.Closes mark (body ++ [mark]) skipped)
    (hwithin : ∀ offset ∈ skipped, offset + 1 < body.length) :
    Delimiter.search (CodeUnit.ofAscii mark : UInt8) (Text.bytes (body ++ [mark] ++ after)) =
      (some (byteLength body + 1), skipped.map fun offset => byteLength (body.take offset)) := by
  have hascii : Text.isAscii mark = true := by
    rcases List.mem_pair.mp hmark with rfl | rfl <;> rfl
  have hbyte : (CodeUnit.ofAscii mark : UInt8) ≠ CodeUnit.ofAscii '\\' ∧
      Delimiter.isLineEnd (CodeUnit.ofAscii mark : UInt8) = false := by
    rcases List.mem_pair.mp hmark with rfl | rfl <;> decide
  have hsize : byteLength (body ++ [mark]) = byteLength body + 1 := by
    rw [Text.byteLength_append]
    rcases List.mem_pair.mp hmark with rfl | rfl <;> rfl
  have hoffsets : (skipped.map fun offset => byteLength ((body ++ [mark]).take offset)) =
      skipped.map fun offset => byteLength (body.take offset) := by
    refine List.map_congr_left fun offset hoffset => ?_
    have hlt := hwithin offset hoffset
    rw [List.take_append_of_le_length (by omega)]
  rw [Text.bytes_append, (hcloses.bytes hascii).search_append hbyte.1 hbyte.2, Text.length_bytes,
    hsize, hoffsets]

/-- A string token with escapes is decoded as it was cut. -/
theorem exists_agrees (h : token ∈ (lex source).tokens.tokens.toList)
    (hkind : token.kind = Lexer.stringToken kind) (hescapes : kind ≠ .hex) :
    ∃ mark body, Agrees source token kind mark body := by
  obtain ⟨mark, hmark, before, body, after, hsource, hstart, htext, hclosed⟩ :=
    exists_written h hkind
  obtain ⟨body', hbody, hread⟩ := closes_readFrom hclosed
  obtain rfl : body = body' := List.append_cancel_right hbody
  obtain ⟨hcloses, hcomplete⟩ := hread .nothing nofun
  have hpaired : ∀ offset ∈ (readFrom .nothing body).escapes,
      body[offset]? = some '\\' ∧ offset + 1 < body.length :=
    fun offset hoffset => (lt_of_mem_escapes _ _ hoffset).imp_right (· hcomplete)
  have hopen : source.toList =
      (before ++ (kind.marker ++ [mark])) ++ (body ++ [mark] ++ after) := by
    rw [hsource]
    simp
  have hposition : token.span.start + kind.marker.length + 1 =
      byteLength (before ++ (kind.marker ++ [mark])) := by
    have hsize : byteLength (kind.marker ++ [mark]) = kind.marker.length + 1 := by
      rcases List.mem_pair.mp hmark with rfl | rfl <;> cases kind <;> rfl
    rw [Text.byteLength_append, hsize, hstart]
    omega
  refine ⟨mark, body, htext, ?_, ?_, hpaired, hcomplete⟩
  · rw [htext, ofToken_append hmark, read, readFrom_text]
    cases kind with
    | hex => exact absurd rfl hescapes
    | plain | unicode => rfl
  · rw [rest_of_eq_append hopen hposition]
    exact search_bytes hmark hcloses fun offset hoffset => (hpaired offset hoffset).2

/-! ### Escaped texts -/

/-- What a character is written as between double quotes. -/
def escapeCharacter (c : Char) : List Char :=
  match c with
  | '\\' => ['\\', '\\']
  | '\x22' => ['\\', '\x22']
  | '\n' => ['\\', 'n']
  | '\r' => ['\\', 'r']
  | c => [c]

/-- A text without the characters that mean something in a string. -/
def escape (text : List Char) : List Char := text.flatMap escapeCharacter

/-- The plain string that stands for a text. -/
def quote (text : String) : String :=
  String.ofList ('\x22' :: (escape text.toList ++ ['\x22']))

/-- A character that is escaped is decoded as it was. -/
theorem unescape_escapeCharacter (c : Char) (text : List Char) :
    unescape (escapeCharacter c ++ text) = c :: unescape text := by
  unfold escapeCharacter
  split
  case h_5 hslash _ _ _ =>
    -- an ordinary character stands for itself
    have hplain : plain c = ([c], .nothing) := if_neg hslash
    simp only [unescape, List.singleton_append, unescapeFrom, step, hplain]
  all_goals rfl

/-- So is a text, character by character. -/
theorem unescape_escape (text : List Char) : unescape (escape text) = text := by
  induction text with
  | nil => rfl
  | cons c text ih =>
    rw [escape, List.flatMap_cons, unescape_escapeCharacter]
    exact congrArg (c :: ·) ih

/-- What is escaped stands between quotes as one string. -/
theorem isStringBody_escape (text : List Char) :
    Text.IsStringBody '\x22' (escape text ++ ['\x22']) := by
  induction text with
  | nil => exact .close
  | cons c text ih =>
    rw [escape, List.flatMap_cons, List.append_assoc]
    unfold escapeCharacter
    split
    case h_5 hslash hquote hfeed hreturn =>
      have hstop : Delimiter.isStop '\x22' c = false := by
        simp only [Delimiter.isStop, Delimiter.isLineEnd, Bool.or_eq_false_iff,
          beq_eq_false_iff_ne]
        exact ⟨⟨hquote, hslash⟩, hfeed, hreturn⟩
      exact .plain hstop ih
    all_goals exact .escape _ ih

/-- The quoted text is one piece. -/
theorem pieces_quote (text : String) :
    Lexer.pieces (quote text).toList = [⟨.token .string, (quote text).toList⟩] := by
  have hlongest : Pattern.Longest ('\x22' :: (escape text.toList ++ ['\x22']))
      (.quote .plain '\x22') 1 := Pattern.longest?_eq_some_iff.mp rfl
  have hmunch : Lexer.Munch ('\x22' :: (escape text.toList ++ ['\x22'])) (.token .string)
      (1 + (escape text.toList ++ ['\x22']).length) :=
    .string hlongest (List.append_nil _).symm (isStringBody_escape text.toList)
  rw [Nat.add_comm, ← List.length_cons] at hmunch
  rw [quote, String.toList_ofList, Lexer.pieces_cons (List.cons_ne_nil _ _), hmunch.front_eq,
    List.take_length, List.drop_length]
  rfl

/-- The quoted text is one token. -/
theorem lex_quote (text : String) : lex (quote text) =
    ⟨⟨#[⟨⟨.string, quote text⟩, ⟨0, byteLength (quote text).toList⟩⟩,
      ⟨⟨.eof, ""⟩, Span.point (byteLength (quote text).toList)⟩]⟩, []⟩ := by
  simp only [lex, Lexer.lexText, pieces_quote, Lexer.tokensFrom, Lexer.commentsFrom,
    String.ofList_toList, Nat.zero_add]

/-- A text in quotes is decoded to itself. -/
theorem ofToken_quote (text : String) : ofToken (quote text).toList = (.plain, text.toList) := by
  rw [quote, String.toList_ofList]
  refine (ofToken_append (.head _) .plain (escape text.toList)).trans ?_
  rw [decode, unescape_escape]

end Quoted

open Quoted in
/-- Every text has a quoted form that lexes as one string and is decoded to the text. And where a
string may have escapes, the decoder and the search for its end agree on them. -/
theorem lex_strings_agree :
    (∀ text : String,
      (lex (quote text)).tokens.tokens.toList =
          [⟨⟨.string, quote text⟩, ⟨0, Text.byteLength (quote text).toList⟩⟩,
            ⟨⟨.eof, ""⟩, Span.point (Text.byteLength (quote text).toList)⟩] ∧
        (lex (quote text)).comments = [] ∧
        kindOf (quote text) = .plain ∧ valueOf (quote text) = text) ∧
    ∀ source : String, ∀ token ∈ (lex source).tokens.tokens.toList,
      ∀ kind ∈ [StringKind.plain, .unicode], token.kind = Lexer.stringToken kind →
        ∃ mark body, Agrees source token kind mark body := by
  constructor
  · intro text
    rw [lex_quote, kindOf, valueOf, ofToken_quote]
    exact ⟨rfl, rfl, rfl, String.ofList_toList⟩
  · intro source token htoken kind hkind htype
    refine exists_agrees htoken htype ?_
    rintro rfl
    exact absurd hkind (by decide)

/-- A backslash before a character of two bytes, one before a backslash, and one before a quote. -/
theorem lex_strings_agree_unicode :
    ⟨⟨.unicodeString, "unicode\"\\é\\\\\\\"\""⟩, ⟨0, 16⟩⟩ ∈
        (lex "unicode\"\\é\\\\\\\"\";").tokens.tokens.toList ∧
      ∃ mark body, Quoted.Agrees "unicode\"\\é\\\\\\\"\";"
        ⟨⟨.unicodeString, "unicode\"\\é\\\\\\\"\""⟩, ⟨0, 16⟩⟩ .unicode mark body :=
  ⟨by decide +kernel, lex_strings_agree.2 _ _ (by decide +kernel) .unicode (by decide) rfl⟩

end SolidityParser
