import SolidityParser.Proofs.Lexer.Blank
import SolidityParser.Proofs.Lexer.Delimiter
import SolidityParser.Proofs.Location

/-!
# Carriage returns before line feeds

A source whose lines end with line feeds is read alike when they end with a carriage return and a
line feed, unless one of its strings goes over a line end (`lex_crlf_iff`). All other pieces are the
same but for the carriage returns in them (`Cuts.crlf`). A string that is continued over a line feed
by a backslash is not: the backslash takes the carriage return, and the line feed ends the string.
-/

namespace SolidityParser

open Pattern (isBlank)
open Text (byteLength)

/-- The text with a carriage return before each line feed. -/
def Text.crlf (text : List Char) : List Char :=
  text.flatMap fun c => if c = '\n' then ['\r', '\n'] else [c]

/-- Line and column at an offset of the text. -/
def Text.placeAt (text : List Char) (offset : Nat) : Nat × Nat :=
  let location := (LineTable.ofText text).locate offset
  (location.line, location.column)

/-- Two sources are read alike: token by token and comment by comment they have the same kinds, and
their tokens start at the same lines and columns. -/
structure Lexed.Alike (lexed other : Lexed) (text otherText : List Char) : Prop where
  kinds : lexed.tokens.tokens.toList.map (·.kind) = other.tokens.tokens.toList.map (·.kind)
  comments : lexed.comments.map (·.kind) = other.comments.map (·.kind)
  places : lexed.tokens.tokens.toList.map (fun t => Text.placeAt text t.span.start) =
    other.tokens.tokens.toList.map (fun t => Text.placeAt otherText t.span.start)

namespace Text

variable {text left right : List Char} {c : Char}

@[simp] theorem crlf_nil : crlf [] = [] := rfl

/-- A character that is no line feed is kept. -/
theorem crlf_cons (h : c ≠ '\n') (text : List Char) : crlf (c :: text) = c :: crlf text := by
  simp [crlf, h]

/-- A carriage return is put before a line feed. -/
theorem crlf_newline (text : List Char) : crlf ('\n' :: text) = '\r' :: '\n' :: crlf text := rfl

@[simp] theorem crlf_append (left right : List Char) :
    crlf (left ++ right) = crlf left ++ crlf right :=
  List.flatMap_append

/-- A text without line ends stays as it is. -/
theorem crlf_eq_self (h : '\n' ∉ text) : crlf text = text := by
  induction text with
  | nil => rfl
  | cons c text ih =>
    rw [List.mem_cons, not_or] at h
    rw [crlf_cons (Ne.symm h.1), ih h.2]

/-- No text gets shorter. -/
theorem length_le_crlf (text : List Char) : text.length ≤ (crlf text).length := by
  induction text with
  | nil => exact Nat.le_refl _
  | cons c text ih =>
    by_cases hc : c = '\n'
    · subst hc
      rw [crlf_newline]
      simp only [List.length_cons]
      omega
    · rw [crlf_cons hc]
      exact Nat.succ_le_succ ih

/-- There are as many line feeds as before. -/
theorem count_crlf (text : List Char) : (crlf text).count '\n' = text.count '\n' := by
  induction text with
  | nil => rfl
  | cons c text ih =>
    by_cases hc : c = '\n'
    · subst hc
      rw [crlf_newline, List.count_cons_of_ne (by decide), List.count_cons_self,
        List.count_cons_self, ih]
    · rw [crlf_cons hc, List.count_cons_of_ne hc, List.count_cons_of_ne hc, ih]

/-- The first character is the same, but for a line feed. -/
theorem head?_crlf (hreturn : c ≠ '\r') (hline : c ≠ '\n') :
    (crlf text).head? = some c ↔ text.head? = some c := by
  cases text with
  | nil => rfl
  | cons d text =>
    by_cases hd : d = '\n'
    · subst hd
      simp [crlf_newline, Ne.symm hreturn, Ne.symm hline]
    · simp [crlf_cons hd]

/-- What holds of the first character, and of a carriage return, holds of the first one there. -/
theorem forall_head?_crlf {p : Char → Prop} (hreturn : p '\r') (h : ∀ c ∈ text.head?, p c) :
    ∀ c ∈ (crlf text).head?, p c := by
  cases text with
  | nil => exact nofun
  | cons d text =>
    by_cases hd : d = '\n'
    · subst hd
      rintro c ⟨⟩
      exact hreturn
    · rw [crlf_cons hd]
      exact h

/-- What holds of all characters, and of a carriage return, holds of all there. -/
theorem forall_mem_crlf {p : Char → Prop} (hreturn : p '\r') (h : ∀ c ∈ text, p c) :
    ∀ c ∈ crlf text, p c := by
  intro c hc
  obtain ⟨d, hd, hc⟩ := List.mem_flatMap.mp hc
  split at hc
  · next hline =>
    rcases List.mem_pair.mp hc with rfl | rfl
    · exact hreturn
    · exact hline ▸ h d hd
  · exact List.mem_singleton.mp hc ▸ h d hd

/-- No delimiter goes over a line end. -/
theorem infix_crlf : ['*', '/'] <:+: crlf text ↔ ['*', '/'] <:+: text := by
  induction text with
  | nil => rfl
  | cons c text ih =>
    by_cases hc : c = '\n'
    · subst hc
      rw [crlf_newline, List.infix_cons_iff, List.infix_cons_iff, List.infix_cons_iff, ih]
      simp
    · have hhead (text : List Char) : ['/'] <+: text ↔ text.head? = some '/' := by
        cases text <;> simp [eq_comm]
      have hslash : ['/'] <+: crlf text ↔ ['/'] <+: text := by
        rw [hhead, hhead]
        exact head?_crlf (by decide) (by decide)
      rw [crlf_cons hc, List.infix_cons_iff, List.infix_cons_iff, ih, List.cons_prefix_cons,
        List.cons_prefix_cons, hslash]

/-- Characters are placed alike with carriage returns. -/
theorem IsLines.crlf {lines column : List Char} (h : IsLines lines column) :
    IsLines (Text.crlf lines) column where
  ended := by
    rcases List.eq_nil_or_concat lines with rfl | ⟨init, last, rfl⟩
    · exact nofun
    · obtain rfl : last = '\n' := h.ended last (by simp)
      intro c hc
      simpa [Text.crlf] using hc.symm
  open_line := h.open_line

/-- The end of a front has the same line and column as the end of the front with carriage
returns. -/
theorem placeAt_crlf (before after : List Char) :
    placeAt (before ++ after) (byteLength before) =
      placeAt (crlf (before ++ after)) (byteLength (crlf before)) := by
  obtain ⟨lines, column, rfl, h⟩ := LineTable.exists_isLines before
  unfold placeAt
  rw [crlf_append, crlf_append, crlf_eq_self h.open_line, LineTable.locate_append h,
    LineTable.locate_append h.crlf, count_crlf]

end Text

/-! ### Where strings and comments end -/

namespace Delimiter

open Text

variable {text rest : List Char} {quote : Char} {length : Nat}

/-- A line comment ends before its line does, so that its length is the same. -/
theorem lineCommentEnd_crlf (text : List Char) :
    '\n' ∉ text.take (lineCommentEnd text) ∧
      lineCommentEnd (crlf text) = lineCommentEnd text := by
  have hbody := take_lineCommentEnd text
  have hfree : '\n' ∉ text.take (lineCommentEnd text) := fun hmem => by
    have := hbody _ hmem
    cases this
  refine ⟨hfree, ?_⟩
  conv => lhs; rw [← List.take_append_drop (lineCommentEnd text) text]
  rw [crlf_append, crlf_eq_self hfree, lineCommentEnd_append_of hbody,
    length_take_lineCommentEnd]
  exact forall_head?_crlf rfl (drop_lineCommentEnd text)

/-- A block comment ends at the same closing mark, past the carriage returns in it. -/
theorem blockCommentEnd?_crlf (text : List Char) :
    blockCommentEnd? (crlf text) =
      (blockCommentEnd? text).map fun length => (crlf (text.take length)).length := by
  cases hend : blockCommentEnd? text with
  | none =>
    rw [blockCommentEnd?_eq_none_iff] at hend
    exact blockCommentEnd?_eq_none_iff.mpr (infix_crlf.not.mpr hend)
  | some length =>
    obtain ⟨body, rest, rfl, rfl, hfirst⟩ := blockCommentEnd?_eq_some_iff.mp hend
    have hfirst' : ¬ ['*', '/'] <:+: crlf body ++ ['*'] := by
      rwa [← @crlf_eq_self ['*'] (by decide), ← crlf_append, infix_crlf]
    have htake : (body ++ '*' :: '/' :: rest).take (body.length + 2) = body ++ ['*', '/'] := by
      rw [List.take_append, List.take_of_length_le (by omega), Nat.add_sub_cancel_left]
      rfl
    rw [crlf_append, crlf_cons (by decide), crlf_cons (by decide),
      blockCommentEnd?_append_of hfirst', Option.map_some, htake, crlf_append, List.length_append]
    rfl

/-- What follows the opening quote of a string begins with no line feed. -/
theorem head_ne_newline {body : List Char} (hline : isLineEnd quote = false)
    (h : IsStringBody quote body) : ∃ c cs, body = c :: cs ∧ c ≠ '\n' := by
  cases h with
  | close =>
    refine ⟨quote, [], rfl, ?_⟩
    rintro rfl
    cases hline
  | escape c rest => exact ⟨_, _, rfl, by decide⟩
  | plain hstop rest =>
    refine ⟨_, _, rfl, ?_⟩
    rintro rfl
    simp [isStop, isLineEnd, CodeUnit.ofAscii] at hstop

/-- A string that is closed among carriage returns goes over no line end, for a backslash would take
the carriage return alone. -/
theorem isStringBody_crlf {body : List Char} (hline : isLineEnd quote = false)
    (h : IsStringBody quote body) (heq : crlf text = body ++ rest) :
    '\n' ∉ body ∧ ∃ after, text = body ++ after := by
  -- no line feed of the text begins what is left of the body
  have hcons {text tail : List Char} {c : Char} (hc : c ≠ '\r') (h : crlf text = c :: tail) :
      c ≠ '\n' ∧ ∃ rest, text = c :: rest ∧ crlf rest = tail := by
    cases text with
    | nil => cases h
    | cons d text =>
      by_cases hd : d = '\n'
      · subst hd
        cases h
        exact absurd rfl hc
      · rw [crlf_cons hd] at h
        cases h
        exact ⟨hd, text, rfl, rfl⟩
  induction h generalizing text with
  | close =>
    obtain ⟨hne, after, rfl, -⟩ := hcons (by rintro rfl; cases hline) heq
    exact ⟨by simpa using Ne.symm hne, after, rfl⟩
  | @escape c body hrest ih =>
    obtain ⟨-, tail, rfl, htail⟩ := hcons (by decide) heq
    cases tail with
    | nil => cases htail
    | cons d tail =>
      by_cases hd : d = '\n'
      · -- the line feed would begin the rest of the body
        subst hd
        obtain ⟨e, es, rfl, hne⟩ := head_ne_newline hline hrest
        exact absurd (List.cons.inj (List.cons.inj htail).2).1.symm hne
      · rw [crlf_cons hd] at htail
        obtain ⟨rfl, hbody⟩ := List.cons.inj htail
        obtain ⟨hfree, after, rfl⟩ := ih hbody
        exact ⟨by simp [Ne.symm hd, hfree], after, rfl⟩
  | @plain c body hstop hrest ih =>
    have hc : c ≠ '\r' := by
      rintro rfl
      simp [isStop, isLineEnd, CodeUnit.ofAscii] at hstop
    obtain ⟨hne, text, rfl, htext⟩ := hcons hc heq
    obtain ⟨hfree, after, rfl⟩ := ih htext
    exact ⟨by simp [Ne.symm hne, hfree], after, rfl⟩

/-- The strings that are closed among carriage returns are those that go over no line end. -/
theorem stringEnd?_crlf (hslash : quote ≠ '\\') (hline : isLineEnd quote = false) :
    stringEnd? quote (crlf text) = some length ↔
      stringEnd? quote text = some length ∧ '\n' ∉ text.take length := by
  rw [stringEnd?_eq_some_iff hslash hline, stringEnd?_eq_some_iff hslash hline]
  constructor
  · rintro ⟨body, rest, heq, rfl, hbody⟩
    obtain ⟨hfree, after, rfl⟩ := isStringBody_crlf hline hbody heq
    exact ⟨⟨body, after, rfl, rfl, hbody⟩, by rwa [List.take_left]⟩
  · rintro ⟨⟨body, rest, rfl, rfl, hbody⟩, hfree⟩
    rw [List.take_left] at hfree
    exact ⟨body, crlf rest, by rw [crlf_append, crlf_eq_self hfree], rfl, hbody⟩

end Delimiter

/-! ### Pieces -/

/-- Is the piece a string that goes over a line end? -/
def Piece.isContinued (piece : Piece) : Bool :=
  match piece.sort with
  | .token kind => kind.isString && piece.text.contains '\n'
  | _ => false

/-- The piece with carriage returns. -/
def Piece.crlf (piece : Piece) : Piece := ⟨piece.sort, Text.crlf piece.text⟩

namespace Lexer

open Text

variable {text rest : List Char} {ps qs : List Piece} {pattern : Pattern} {length : Nat}
  {sort : PieceSort}

/-- A string within one line is not continued. -/
theorem isContinued_of_not_mem (h : '\n' ∉ text) : Piece.isContinued ⟨sort, text⟩ = false := by
  unfold Piece.isContinued
  split
  · simp [h]
  · rfl

/-- What is behind a front, and the front, with carriage returns. -/
theorem drop_crlf (text : List Char) (n : Nat) :
    (crlf text).drop (crlf (text.take n)).length = crlf (text.drop n) ∧
      (crlf text).take (crlf (text.take n)).length = crlf (text.take n) := by
  have htext : crlf text = crlf (text.take n) ++ crlf (text.drop n) := by
    rw [← crlf_append, List.take_append_drop]
  rw [htext]
  exact ⟨List.drop_left, List.take_left⟩

/-- A front without line ends is as long with carriage returns. -/
theorem drop_crlf_of_free (hlength : length ≤ text.length) (hfree : '\n' ∉ text.take length) :
    (crlf text).drop length = crlf (text.drop length) ∧
      (crlf text).take length = text.take length := by
  have hdrop := drop_crlf text length
  rwa [crlf_eq_self hfree, List.length_take_of_le hlength] at hdrop

/-- A front without line feeds is as long as before, and what follows it is converted by itself. -/
theorem length_crlf_take_add (hlength : length ≤ text.length) (hfree : '\n' ∉ text.take length)
    (k : Nat) : (crlf (text.take (length + k))).length =
      length + (crlf ((text.drop length).take k)).length := by
  rw [List.take_add, crlf_append, List.length_append, crlf_eq_self hfree,
    List.length_take_of_le hlength]

/-- A string stays what it is with carriage returns, unless it goes over a line end: then it is
open. -/
theorem extend_quote_crlf {kind : StringKind} {mark : Char}
    (hmem : .quote kind mark ∈ Pattern.all) (hlength : length ≤ text.length)
    (hfree : '\n' ∉ text.take length) {sort : PieceSort} {n : Nat}
    (h : extend (.quote kind mark) length text = (sort, n)) :
    extend (.quote kind mark) length (crlf text) =
      if Piece.isContinued ⟨sort, text.take n⟩ then (.token .error, length)
      else (sort, (crlf (text.take n)).length) := by
  obtain ⟨hslash, hline⟩ := Pattern.quote_mark hmem
  have hends {k : Nat} := @Delimiter.stringEnd?_crlf (text.drop length) mark k hslash hline
  unfold extend at h ⊢
  dsimp only at h ⊢
  rw [(drop_crlf_of_free hlength hfree).1]
  cases hend : Delimiter.stringEnd? mark (text.drop length) with
  | none =>
    rw [hend] at h hends
    cases h
    have hnone : Delimiter.stringEnd? mark (crlf (text.drop length)) = none :=
      Option.eq_none_iff_forall_ne_some.mpr fun k hk => nomatch (hends.mp hk).1
    rw [hnone, isContinued_of_not_mem hfree, crlf_eq_self hfree, List.length_take_of_le hlength]
    rfl
  | some k =>
    rw [hend] at h hends
    cases h
    by_cases hline : '\n' ∈ (text.drop length).take k
    · have hnone : Delimiter.stringEnd? mark (crlf (text.drop length)) = none := by
        refine Option.eq_none_iff_forall_ne_some.mpr fun m hm => ?_
        obtain ⟨heq, hfree⟩ := hends.mp hm
        cases heq
        exact hfree hline
      have hcontinued : Piece.isContinued
          ⟨.token (stringToken kind), text.take (length + k)⟩ = true := by
        have hstring : (stringToken kind).isString = true := by cases kind <;> rfl
        simp only [Piece.isContinued, hstring, Bool.true_and, List.take_add]
        simp [hline]
      rw [hnone, hcontinued]
      rfl
    · have hpiece : '\n' ∉ text.take (length + k) := by
        rw [List.take_add, List.mem_append]
        exact not_or.mpr ⟨hfree, hline⟩
      rw [hends.mpr ⟨rfl, hline⟩, isContinued_of_not_mem hpiece,
        length_crlf_take_add hlength hfree, crlf_eq_self hline,
        List.length_take_of_le (Delimiter.stringEnd?_le hend)]
      rfl

/-- How a match is extended to a piece with carriage returns: alike, unless the piece is a string
that goes over a line end, which is then open. -/
theorem extend_crlf (hmem : pattern ∈ Pattern.all) (hblank : pattern ≠ .blank)
    (hlength : length ≤ text.length) (hfree : '\n' ∉ text.take length) {sort : PieceSort} {n : Nat}
    (h : extend pattern length text = (sort, n)) :
    extend pattern length (crlf text) =
      if Piece.isContinued ⟨sort, text.take n⟩ then (.token .error, length)
      else (sort, (crlf (text.take n)).length) := by
  have htake := List.length_take_of_le hlength
  obtain ⟨hrest, hfront⟩ := drop_crlf_of_free hlength hfree
  have hpiece := length_crlf_take_add hlength hfree
  cases pattern with
  | blank => exact absurd rfl hblank
  | quote kind mark => exact extend_quote_crlf hmem hlength hfree h
  | number | hexNumber | symbol =>
    cases h
    rw [isContinued_of_not_mem hfree, crlf_eq_self hfree, htake]
    rfl
  | word =>
    cases h
    rw [isContinued_of_not_mem hfree, crlf_eq_self hfree, htake]
    simp only [extend, hfront]
    rfl
  | lineComment =>
    cases h
    obtain ⟨hline, hend⟩ := Delimiter.lineCommentEnd_crlf (text.drop length)
    simp only [extend, hrest]
    rw [hend, hpiece, crlf_eq_self hline, Delimiter.length_take_lineCommentEnd]
    rfl
  | blockComment =>
    unfold extend at h ⊢
    dsimp only at h ⊢
    rw [hrest, Delimiter.blockCommentEnd?_crlf]
    cases hend : Delimiter.blockCommentEnd? (text.drop length) with
    | some k =>
      rw [hend] at h
      cases h
      rw [hpiece]
      rfl
    | none =>
      rw [hend] at h
      cases h
      rw [List.take_length]
      rfl

/-- Blanks before a character that is none are a piece. -/
theorem front_blanks {blanks : List Char} (hne : blanks ≠ [])
    (hblank : ∀ c ∈ blanks, isBlank c = true) (hrest : ∀ c ∈ rest.head?, isBlank c = false) :
    front (blanks ++ rest) = (.blank, blanks.length) := by
  obtain ⟨c, cs, rfl⟩ := List.exists_cons_of_ne_nil hne
  rw [List.cons_append, front_of_isBlank (hblank c List.mem_cons_self),
    List.takeWhile_append_of_pos fun d hd => hblank d (List.mem_cons_of_mem _ hd)]
  cases rest with
  | nil => simp
  | cons d rest => simp [hrest d rfl]

/-- A text is what stands before the first character that is not of a class, and the rest. -/
theorem exists_takeWhile (p : Char → Bool) (text : List Char) :
    ∃ front rest, text = front ++ rest ∧ (∀ c ∈ front, p c = true) ∧
      ∀ c ∈ rest.head?, p c = false := by
  refine ⟨_, _, (@List.takeWhile_append_dropWhile _ p text).symm,
    List.all_eq_true.mp List.all_takeWhile, fun c hc => ?_⟩
  have := List.head?_dropWhile_not p text
  rwa [Option.mem_def.mp hc] at this

/-- Blanks with carriage returns are blanks. -/
theorem front_crlf_blank {c : Char} (hc : isBlank c = true) (cs : List Char) :
    ∃ n, front (c :: cs) = (.blank, n) ∧
      front (crlf (c :: cs)) = (.blank, (crlf ((c :: cs).take n)).length) := by
  obtain ⟨blanks, rest, rfl, hblanks, hrest⟩ := exists_takeWhile isBlank cs
  have hall : ∀ d ∈ c :: blanks, isBlank d = true := List.forall_mem_cons.mpr ⟨hc, hblanks⟩
  have hne : crlf (c :: blanks) ≠ [] := fun hnil => by
    have := length_le_crlf (c :: blanks)
    rw [hnil] at this
    cases this
  have hafter : ∀ d ∈ (crlf rest).head?, isBlank d = false := by
    cases rest with
    | nil => exact nofun
    | cons d rest =>
      have hd := hrest d rfl
      rw [crlf_cons (by rintro rfl; cases hd)]
      exact hrest
  have hcrlf := @forall_mem_crlf (c :: blanks) (fun d => isBlank d = true) rfl hall
  rw [← List.cons_append]
  refine ⟨(c :: blanks).length, front_blanks (List.cons_ne_nil _ _) hall hrest, ?_⟩
  rw [List.take_left, crlf_append]
  exact front_blanks hne hcrlf hafter

/-- The first piece of a text with carriage returns, where it is not of blanks. -/
theorem front_crlf_cons {c : Char} (hc : isBlank c = false) (cs : List Char) {sort : PieceSort}
    {n : Nat} (h : front (c :: cs) = (sort, n)) :
    if Piece.isContinued ⟨sort, (c :: cs).take n⟩ then (front (crlf (c :: cs))).1 = .token .error
    else front (crlf (c :: cs)) = (sort, (crlf ((c :: cs).take n)).length) := by
  -- no match goes over the next blank, so the same pattern is chosen
  obtain ⟨solid, rest, rfl, hsolid, hrest⟩ := exists_takeWhile (!isBlank ·) cs
  have hblank : ∀ d ∈ rest.head?, isBlank d = true := by simpa using hrest
  have hfree : '\n' ∉ c :: solid := by
    rw [List.mem_cons, not_or]
    refine ⟨?_, fun hmem => ?_⟩
    · rintro rfl
      cases hc
    · cases hsolid _ hmem
  have htext : crlf (c :: (solid ++ rest)) = c :: solid ++ crlf rest := by
    rw [← List.cons_append, crlf_append, crlf_eq_self hfree]
  have hlongest : Pattern.longest? (c :: (solid ++ rest)) = Pattern.longest? (c :: solid) :=
    (longest?_append_blank hc hblank).symm
  have hlongest' : Pattern.longest? (crlf (c :: (solid ++ rest))) = Pattern.longest? (c :: solid) :=
    htext ▸ (longest?_append_blank hc (forall_head?_crlf rfl hblank)).symm
  unfold front at h ⊢
  rw [hlongest] at h
  rw [hlongest']
  cases hfound : Pattern.longest? (c :: solid) with
  | none =>
    rw [hfound] at h
    cases h
    have hone : '\n' ∉ (c :: (solid ++ rest)).take 1 := by
      rw [List.take_succ_cons, List.take_zero, List.mem_singleton]
      rintro rfl
      cases hc
    rw [isContinued_of_not_mem hone, crlf_eq_self hone]
    rfl
  | some found =>
    obtain ⟨pattern, length⟩ := found
    rw [hfound] at h
    have hle : length ≤ (c :: solid).length := longest?_le hfound
    have hp : pattern ≠ .blank := by
      rintro rfl
      have hpos := Pattern.longest?_eq_some hfound
      simp [Pattern.matchLength, Pattern.runLength, hc] at hpos
      omega
    have htake : '\n' ∉ (c :: (solid ++ rest)).take length := by
      rw [← List.cons_append, List.take_append_of_le_length hle]
      exact fun hmem => hfree (List.mem_of_mem_take hmem)
    have hlength : length ≤ (c :: (solid ++ rest)).length := by
      rw [← List.cons_append, List.length_append]
      omega
    have hextend := extend_crlf (Pattern.longest?_eq_some hfound).1 hp hlength htake h
    dsimp only at h ⊢
    rw [hextend]
    split <;> rfl

/-- The first piece of a text with carriage returns. -/
theorem front_crlf (hne : text ≠ []) {sort : PieceSort} {n : Nat} (h : front text = (sort, n)) :
    if Piece.isContinued ⟨sort, text.take n⟩ then (front (crlf text)).1 = .token .error
    else front (crlf text) = (sort, (crlf (text.take n)).length) := by
  obtain ⟨c, cs, rfl⟩ := List.exists_cons_of_ne_nil hne
  cases hc : isBlank c with
  | true =>
    obtain ⟨m, hfront, hcrlf⟩ := front_crlf_blank hc cs
    rw [hfront] at h
    cases h
    exact hcrlf
  | false => exact front_crlf_cons hc cs h

/-- The first piece with carriage returns, if it is no string that goes over a line end. -/
theorem front_crlf_eq (hne : text ≠ [])
    (h : Piece.isContinued ⟨(front text).1, text.take (front text).2⟩ = false) :
    front (crlf text) = ((front text).1, (crlf (text.take (front text).2)).length) := by
  have hfront := @front_crlf _ hne (front text).1 (front text).2 rfl
  rwa [h, if_neg (by decide)] at hfront

/-- Nothing is lost. -/
theorem crlf_ne_nil (h : text ≠ []) : crlf text ≠ [] := fun hnil => by
  have hle := length_le_crlf text
  rw [hnil] at hle
  exact h (List.length_eq_zero_iff.mp (Nat.le_zero.mp hle))

/-- Pieces with carriage returns: the same ones, if no string goes over a line end. -/
theorem pieces_crlf (h : Cuts text ps []) (hps : ∀ piece ∈ ps, piece.isContinued = false) :
    pieces (crlf text) = ps.map Piece.crlf := by
  generalize hrest : ([] : List Char) = rest at h
  induction h with
  | nil =>
    subst hrest
    rfl
  | @cons text _ ps hne _ ih =>
    obtain ⟨hfirst, hlater⟩ := List.forall_mem_cons.mp hps
    obtain ⟨hdrop, htake⟩ := drop_crlf text (front text).2
    rw [pieces_cons (crlf_ne_nil hne), front_crlf_eq hne hfirst, hdrop, htake, ih hlater hrest]
    rfl

/-- The kinds of tokens among pieces. -/
def kinds (ps : List Piece) : List Kind := (ps.filterMap lexeme?).map (·.kind)

/-- Tokens are of the kinds that the pieces are, and the end of the input comes after them. -/
theorem tokensFrom_kinds (offset : Nat) (ps : List Piece) :
    (tokensFrom offset ps).map (·.kind) = kinds ps ++ [.eof] := by
  have hlexemes := congrArg (List.map (·.kind)) (tokensFrom_lexemes offset ps)
  rwa [List.map_map, List.map_append] at hlexemes

/-- Pieces that are no tokens add no kind. -/
theorem kinds_cons (piece : Piece) (ps : List Piece) :
    kinds (piece :: ps) =
      (match piece.sort with | .token kind => [kind] | _ => []) ++ kinds ps := by
  obtain ⟨sort, text⟩ := piece
  cases sort <;> rfl

/-- The first string that goes over a line end is no string with carriage returns. -/
theorem not_isContinued_of_kinds (h : Cuts text ps [])
    (hkinds : kinds (pieces (crlf text)) = kinds ps) :
    ∀ piece ∈ ps, piece.isContinued = false := by
  generalize hrest : ([] : List Char) = rest at h
  induction h with
  | nil => exact nofun
  | @cons text _ ps hne _ ih =>
    rw [pieces_cons (crlf_ne_nil hne), kinds_cons, kinds_cons] at hkinds
    have hfirst : Piece.isContinued ⟨(front text).1, text.take (front text).2⟩ = false := by
      refine Bool.eq_false_iff.mpr fun hcontinued => ?_
      have hfront := @front_crlf _ hne (front text).1 (front text).2 rfl
      rw [hcontinued, if_pos rfl] at hfront
      -- a string would be an error
      unfold Piece.isContinued at hcontinued
      split at hcontinued
      · next kind hsort =>
        dsimp only at hsort hkinds
        rw [hfront, hsort] at hkinds
        obtain rfl : Kind.error = kind := (List.cons.inj hkinds).1
        simp [Kind.isString] at hcontinued
      · cases hcontinued
    obtain ⟨hdrop, -⟩ := drop_crlf text (front text).2
    rw [front_crlf_eq hne hfirst, hdrop] at hkinds
    exact List.forall_mem_cons.mpr ⟨hfirst, ih (List.append_cancel_left hkinds) hrest⟩

/-- The strings that go over line ends, among pieces and among their tokens. -/
theorem isContinued_iff (ps : List Piece) (offset : Nat) :
    (∀ piece ∈ ps, piece.isContinued = false) ↔
      ∀ t ∈ tokensFrom offset ps, t.kind.isString = true → '\n' ∉ t.text.toList := by
  induction ps generalizing offset with
  | nil => simp [tokensFrom, Kind.isString]
  | cons piece ps ih =>
    rw [List.forall_mem_cons, ih (offset + byteLength piece.text)]
    obtain ⟨sort, text⟩ := piece
    cases sort with
    | blank | comment => exact and_iff_right rfl
    | token kind =>
      simp only [tokensFrom, List.forall_mem_cons]
      refine and_congr_left' ?_
      simp [Piece.isContinued]

/-- Comments are of the same kinds. -/
theorem commentsFrom_crlf (offset other : Nat) (ps : List Piece) :
    (commentsFrom offset ps).map (·.kind) =
      (commentsFrom other (ps.map Piece.crlf)).map (·.kind) := by
  induction ps generalizing offset other with
  | nil => rfl
  | cons piece ps ih =>
    obtain ⟨sort, text⟩ := piece
    have ih := ih (offset + byteLength text) (other + byteLength (crlf text))
    cases sort <;> simp [commentsFrom, Piece.crlf, ih]

/-- So are tokens. -/
theorem kinds_crlf (ps : List Piece) : kinds (ps.map Piece.crlf) = kinds ps := by
  induction ps with
  | nil => rfl
  | cons piece ps ih => rw [List.map_cons, kinds_cons, kinds_cons, ih]; rfl

/-- Tokens of pieces with carriage returns start at the same lines and columns. -/
theorem tokensFrom_places (before : List Char) (ps : List Piece)
    (htext : text = before ++ ps.flatMap (·.text)) :
    (tokensFrom (byteLength before) ps).map (fun t => placeAt text t.span.start) =
      (tokensFrom (byteLength (crlf before)) (ps.map Piece.crlf)).map
        (fun t => placeAt (crlf text) t.span.start) := by
  induction ps generalizing before with
  | nil =>
    subst htext
    exact congrArg (fun place => [place]) (placeAt_crlf before [])
  | cons piece ps ih =>
    rw [List.flatMap_cons] at htext
    have hrest := ih (before ++ piece.text) (by rw [htext, List.append_assoc])
    rw [byteLength_append, crlf_append, byteLength_append] at hrest
    have hplace := placeAt_crlf before (piece.text ++ ps.flatMap (·.text))
    rw [← htext] at hplace
    obtain ⟨sort, word⟩ := piece
    unfold tokensFrom
    cases sort with
    | blank | comment => exact hrest
    | token kind => exact congrArg₂ List.cons hplace hrest

end Lexer

/-- With carriage returns before its line feeds, a source is read alike exactly if none of its
strings goes over a line end. -/
theorem lex_crlf_iff (source : String) :
    (lex source).Alike (lex (String.ofList (Text.crlf source.toList)))
        source.toList (Text.crlf source.toList) ↔
      ∀ t ∈ (lex source).tokens.tokens.toList, t.kind.isString = true → '\n' ∉ t.text.toList := by
  have hcuts := Lexer.cuts_pieces source.toList
  have hcrlf : lex (String.ofList (Text.crlf source.toList)) =
      Lexer.lexText (Text.crlf source.toList) := by rw [lex, String.toList_ofList]
  have htokens (text : List Char) : (Lexer.lexText text).tokens.tokens.toList =
      Lexer.tokensFrom 0 (Lexer.pieces text) := rfl
  have hcomments (text : List Char) : (Lexer.lexText text).comments =
      Lexer.commentsFrom 0 (Lexer.pieces text) := rfl
  rw [hcrlf, lex, htokens, ← Lexer.isContinued_iff]
  constructor
  · intro h
    have hkinds := h.kinds
    rw [htokens, htokens, Lexer.tokensFrom_kinds, Lexer.tokensFrom_kinds] at hkinds
    exact Lexer.not_isContinued_of_kinds hcuts (List.append_cancel_right hkinds).symm
  · intro h
    have hpieces := Lexer.pieces_crlf hcuts h
    have htext : source.toList = [] ++ (Lexer.pieces source.toList).flatMap (·.text) := by
      simpa using hcuts.text_eq
    constructor
    · rw [htokens, htokens, hpieces, Lexer.tokensFrom_kinds, Lexer.tokensFrom_kinds,
        Lexer.kinds_crlf]
    · rw [hcomments, hcomments, hpieces]
      exact Lexer.commentsFrom_crlf 0 0 _
    · rw [htokens, htokens, hpieces]
      exact Lexer.tokensFrom_places [] _ htext

/-- A string that is continued over a line feed is no string with a carriage return there: the
backslash takes the carriage return, and the line feed leaves the string open. -/
theorem not_alike_continued :
    '\r' ∉ "\"a\\\nb\"".toList ∧
      ¬ (lex "\"a\\\nb\"").Alike (lex (String.ofList (Text.crlf "\"a\\\nb\"".toList)))
        "\"a\\\nb\"".toList (Text.crlf "\"a\\\nb\"".toList) :=
  ⟨by decide, fun h => absurd h.kinds (by decide +kernel)⟩

end SolidityParser
