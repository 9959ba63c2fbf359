import SolidityParser.Proofs.Lexer.Delimiter
import SolidityParser.Proofs.Lexer.Language
import SolidityParser.Proofs.Lexer.Places

/-!
# The longest match

`Munches` is the reference for lexing: at each place the pattern with the longest word there wins,
comments and strings go on to their ends, and a character that begins no word is an error. It does
not compute anything. `lex` finds what it describes, and nothing else (`lex_eq_iff_munches`): the
first piece of a text is the one munched there (`munch_front`, `Munch.front_eq`), and the pieces
follow one another.
-/

namespace SolidityParser

namespace Lexer

open Pattern (Longest Fits)
open Text (IsStringBody)

/-! ### The reference -/

/-- A word is a keyword if it is spelled as one, and an identifier otherwise. -/
def Classified (word : String) (kind : Kind) : Prop :=
  kind ∈ Kind.keywords ∧ kind.text = word ∨
    kind = .ident ∧ ∀ keyword ∈ Kind.keywords, keyword.text ≠ word

/-- The first `length` characters of a text are a piece of a sort. -/
inductive Munch (text : List Char) : PieceSort → Nat → Prop
  | blank {n : Nat} (longest : Longest text .blank n) : Munch text .blank n
  /-- A line comment goes on to the next line end. -/
  | lineComment {n : Nat} {body rest : List Char} (longest : Longest text .lineComment n)
      (text_eq : text.drop n = body ++ rest) (inside : ∀ c ∈ body, Delimiter.isLineEnd c = false)
      (stop : ∀ c ∈ rest.head?, Delimiter.isLineEnd c = true) :
      Munch text (.comment .line) (n + body.length)
  /-- A block comment goes on to the first closing delimiter. -/
  | blockComment {n : Nat} {body rest : List Char} (longest : Longest text .blockComment n)
      (text_eq : text.drop n = body ++ '*' :: '/' :: rest)
      (first : ¬ ['*', '/'] <:+: body ++ ['*']) :
      Munch text (.comment .block) (n + (body.length + 2))
  /-- An open block comment is an error up to the end of the text. -/
  | openComment {n : Nat} (longest : Longest text .blockComment n)
      (never : ¬ ['*', '/'] <:+: text.drop n) : Munch text (.token .error) text.length
  /-- A string goes on to its closing quote. -/
  | string {n : Nat} {kind : StringKind} {mark : Char} {body rest : List Char}
      (longest : Longest text (.quote kind mark) n) (text_eq : text.drop n = body ++ rest)
      (closed : IsStringBody mark body) : Munch text (.token (stringToken kind)) (n + body.length)
  /-- The opening of a string that is never closed is an error by itself. -/
  | openString {n : Nat} {kind : StringKind} {mark : Char}
      (longest : Longest text (.quote kind mark) n)
      (never : ∀ body rest, text.drop n = body ++ rest → ¬ IsStringBody mark body) :
      Munch text (.token .error) n
  | number {n : Nat} (longest : Longest text .number n) : Munch text (.token .number) n
  | hexNumber {n : Nat} (longest : Longest text .hexNumber n) : Munch text (.token .hexNumber) n
  | word {n : Nat} {kind : Kind} (longest : Longest text .word n)
      (classified : Classified (String.ofList (text.take n)) kind) : Munch text (.token kind) n
  | symbol {n : Nat} {kind : Kind} (longest : Longest text (.symbol kind) n) :
      Munch text (.token kind) n
  /-- A character that begins no word is an error by itself. -/
  | unknown (none : ∀ pattern ∈ Pattern.all, ∀ n, ¬ Fits pattern.language text n) :
      Munch text (.token .error) 1

/-- The tokens and comments of a text that begins at an offset. -/
inductive Munches : Nat → List Char → List Token → List Comment → Prop
  | done (offset : Nat) : Munches offset [] [⟨⟨.eof, ""⟩, Span.point offset⟩] []
  | blank {offset n : Nat} {text : List Char} {tokens : List Token} {comments : List Comment}
      (nonempty : text ≠ []) (first : Munch text .blank n)
      (rest : Munches (offset + Text.byteLength (text.take n)) (text.drop n) tokens comments) :
      Munches offset text tokens comments
  | comment {offset n : Nat} {text : List Char} {tokens : List Token} {comments : List Comment}
      {kind : CommentKind} (nonempty : text ≠ []) (first : Munch text (.comment kind) n)
      (rest : Munches (offset + Text.byteLength (text.take n)) (text.drop n) tokens comments) :
      Munches offset text tokens
        (⟨kind, String.ofList (text.take n),
          ⟨offset, offset + Text.byteLength (text.take n)⟩⟩ :: comments)
  | token {offset n : Nat} {text : List Char} {tokens : List Token} {comments : List Comment}
      {kind : Kind} (nonempty : text ≠ []) (first : Munch text (.token kind) n)
      (rest : Munches (offset + Text.byteLength (text.take n)) (text.drop n) tokens comments) :
      Munches offset text
        (⟨⟨kind, String.ofList (text.take n)⟩,
          ⟨offset, offset + Text.byteLength (text.take n)⟩⟩ :: tokens) comments

/-! ### The first piece -/

variable {text : List Char} {sort : PieceSort} {kind : Kind} {n offset : Nat} {ps : List Piece}
  {tokens : List Token} {comments : List Comment}

/-- No two keywords are spelled alike. -/
theorem keywords_text_nodup : (Kind.keywords.map Kind.text).Nodup := by
  decide +kernel

theorem ofWord_eq_iff {word : String} : Kind.ofWord word = kind ↔ Classified word kind := by
  unfold Kind.ofWord Kind.ofKeyword?
  cases hfound : Kind.keywords.find? (·.text == word) with
  | none =>
    have hnone : ∀ keyword ∈ Kind.keywords, keyword.text ≠ word := by
      simpa using List.find?_eq_none.mp hfound
    constructor
    · rintro rfl
      exact .inr ⟨rfl, hnone⟩
    · rintro (⟨hmem, htext⟩ | ⟨rfl, -⟩)
      · exact absurd htext (hnone kind hmem)
      · rfl
  | some found =>
    have hmem := List.mem_of_find?_eq_some hfound
    have htext : found.text = word := by simpa using List.find?_some hfound
    constructor
    · rintro rfl
      exact .inl ⟨hmem, htext⟩
    · rintro (⟨hkind, hword⟩ | ⟨-, hnone⟩)
      · exact List.inj_on_of_nodup_map keywords_text_nodup hmem hkind (htext.trans hword.symm)
      · exact absurd htext (hnone found hmem)

/-- What is munched at the front of a text is its first piece. -/
theorem Munch.front_eq (h : Munch text sort n) : front text = (sort, n) := by
  unfold front
  cases h with
  | unknown hnone => rw [Pattern.longest?_eq_none_iff.mpr hnone]
  | blank h | number h | hexNumber h | symbol h => rw [Pattern.longest?_eq_some_iff.mpr h]; rfl
  | word h hclassified =>
    rw [Pattern.longest?_eq_some_iff.mpr h]
    simp only [extend, ofWord_eq_iff.mpr hclassified]
  | lineComment h htext hinside hstop =>
    rw [Pattern.longest?_eq_some_iff.mpr h]
    simp only [extend, htext, Delimiter.lineCommentEnd_append_of hinside hstop]
  | @blockComment n body rest h htext hfirst =>
    rw [Pattern.longest?_eq_some_iff.mpr h]
    simp only [extend, htext, Delimiter.blockCommentEnd?_append_of hfirst rest]
  | openComment h hnever =>
    rw [Pattern.longest?_eq_some_iff.mpr h]
    simp only [extend, Delimiter.blockCommentEnd?_eq_none_iff.mpr hnever]
  | @string n kind mark body rest h htext hclosed =>
    obtain ⟨hslash, hline⟩ := Pattern.quote_mark h.mem
    have hend := (Delimiter.stringEnd?_eq_some_iff hslash hline).mpr ⟨body, rest, htext, rfl, hclosed⟩
    rw [Pattern.longest?_eq_some_iff.mpr h]
    simp only [extend, hend]
  | @openString _ kind mark h hnever =>
    obtain ⟨hslash, hline⟩ := Pattern.quote_mark h.mem
    have hend : Delimiter.stringEnd? mark (text.drop n) = none := by
      refine Option.eq_none_iff_forall_ne_some.mpr fun length hlength => ?_
      obtain ⟨body, rest, htext, -, hclosed⟩ :=
        (Delimiter.stringEnd?_eq_some_iff hslash hline).mp hlength
      exact hnever body rest htext hclosed
    rw [Pattern.longest?_eq_some_iff.mpr h]
    simp only [extend, hend]

/-- The first piece of a text is munched at its front. -/
theorem munch_front (text : List Char) : Munch text (front text).1 (front text).2 := by
  unfold front
  cases hfound : Pattern.longest? text with
  | none => exact .unknown (Pattern.longest?_eq_none_iff.mp hfound)
  | some found =>
    obtain ⟨pattern, n⟩ := found
    have h := Pattern.longest?_eq_some_iff.mp hfound
    cases pattern with
    | blank => exact .blank h
    | number => exact .number h
    | hexNumber => exact .hexNumber h
    | symbol kind => exact .symbol h
    | word => exact .word h (ofWord_eq_iff.mp rfl)
    | lineComment =>
      have hbody := Delimiter.take_lineCommentEnd (text.drop n)
      have hmunch := Munch.lineComment h (List.take_append_drop _ _).symm hbody
        (Delimiter.drop_lineCommentEnd (text.drop n))
      rw [Delimiter.length_take_lineCommentEnd] at hmunch
      exact hmunch
    | blockComment =>
      simp only [extend]
      cases hend : Delimiter.blockCommentEnd? (text.drop n) with
      | none => exact .openComment h (Delimiter.blockCommentEnd?_eq_none_iff.mp hend)
      | some length =>
        obtain ⟨body, rest, htext, rfl, hfirst⟩ := Delimiter.blockCommentEnd?_eq_some_iff.mp hend
        exact .blockComment h htext hfirst
    | quote sort mark =>
      obtain ⟨hslash, hline⟩ := Pattern.quote_mark h.mem
      simp only [extend]
      cases hend : Delimiter.stringEnd? mark (text.drop n) with
      | some length =>
        obtain ⟨body, rest, htext, rfl, hclosed⟩ :=
          (Delimiter.stringEnd?_eq_some_iff hslash hline).mp hend
        exact .string h htext hclosed
      | none =>
        refine .openString h fun body rest htext hclosed => ?_
        have := (Delimiter.stringEnd?_eq_some_iff hslash hline).mpr ⟨body, rest, htext, rfl, hclosed⟩
        rw [hend] at this
        cases this

/-! ### All pieces -/

theorem munches_of_cuts (h : Cuts text ps []) (offset : Nat) :
    Munches offset text (tokensFrom offset ps) (commentsFrom offset ps) := by
  generalize hrest : [] = rest at h
  induction h generalizing offset with
  | nil =>
    subst hrest
    exact .done offset
  | @cons text _ ps hne _ ih =>
    have hfirst := munch_front text
    have hrest := ih (offset + Text.byteLength (text.take (front text).2)) hrest
    unfold tokensFrom commentsFrom
    dsimp only
    cases hsort : (front text).1 with
    | blank => exact .blank hne (hsort ▸ hfirst) hrest
    | comment kind => exact .comment hne (hsort ▸ hfirst) hrest
    | token kind => exact .token hne (hsort ▸ hfirst) hrest

/-- What the reference describes is read off the pieces. -/
theorem Munches.eq_pieces (h : Munches offset text tokens comments) :
    tokensFrom offset (pieces text) = tokens ∧ commentsFrom offset (pieces text) = comments := by
  have hcons {text : List Char} {sort : PieceSort} {n : Nat} (hne : text ≠ [])
      (hfirst : Munch text sort n) :
      pieces text = ⟨sort, text.take n⟩ :: pieces (text.drop n) := by
    rw [pieces_cons hne, hfirst.front_eq]
  induction h with
  | done => exact ⟨rfl, rfl⟩
  | blank hne hfirst _ ih =>
    rw [hcons hne hfirst]
    exact ih
  | comment hne hfirst _ ih =>
    rw [hcons hne hfirst]
    exact ⟨ih.1, congrArg (_ :: ·) ih.2⟩
  | token hne hfirst _ ih =>
    rw [hcons hne hfirst]
    exact ⟨congrArg (_ :: ·) ih.1, ih.2⟩

end Lexer

/-- Lexing finds the tokens and comments of the longest matches, and these alone. -/
theorem lex_eq_iff_munches (source : String) (tokens : List Token) (comments : List Comment) :
    (lex source).tokens.tokens.toList = tokens ∧ (lex source).comments = comments ↔
      Lexer.Munches 0 source.toList tokens comments := by
  constructor
  · rintro ⟨rfl, rfl⟩
    exact Lexer.munches_of_cuts (Lexer.cuts_pieces source.toList) 0
  · intro h
    exact h.eq_pieces

end SolidityParser
