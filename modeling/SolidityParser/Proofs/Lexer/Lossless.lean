import SolidityParser.Proofs.Lexer.Delimiter
import SolidityParser.Proofs.Lexer.Places
import SolidityParser.Proofs.Text

/-!
# No text is lost

Merged by where they start, the tokens and comments of a source stand one after the other and cover
all of its text that is not blank (`lex_lossless`). The pieces of a text hold all of it
(`Cuts.text_eq`), so it is enough that the merge brings tokens and comments back into the order of
the pieces they were read off (`merge_tokensFrom`); the rest is read off the pieces.
-/

namespace SolidityParser

open Pattern (isBlank)

/-! ### Tokens and comments together -/

/-- A token or a comment of a source. -/
inductive Mark
  | token (value : Token)
  | comment (value : Comment)

namespace Mark

/-- Where the mark stands. -/
def span : Mark → Span
  | token value => value.span
  | comment value => value.span

/-- What is written there. -/
def text : Mark → String
  | token value => value.text
  | comment value => value.text

/-- Does one mark start no later than another? -/
def before (mark other : Mark) : Bool := decide (mark.span.start ≤ other.span.start)

end Mark

/-- The tokens and comments of a source, merged by where they start. -/
def Lexed.marks (lexed : Lexed) : List Mark :=
  List.merge (lexed.tokens.tokens.toList.map .token) (lexed.comments.map .comment) Mark.before

/-- Between the end of one span and the start of another, the text is blank. -/
def Text.BlankBetween (text : List Char) (left right : Span) : Prop :=
  ∃ gap, slice? text ⟨left.stop, right.start⟩ = some gap ∧ ∀ c ∈ gap, isBlank c = true

/-- A line comment ends before the next line end. -/
def Text.IsLineComment (text : List Char) : Prop :=
  ∃ body, text = '/' :: '/' :: body ∧ ∀ c ∈ body, c ≠ '\n' ∧ c ≠ '\r'

/-- A block comment ends with the first closing delimiter after the opening one. -/
def Text.IsBlockComment (text : List Char) : Prop :=
  ∃ body, text = '/' :: '*' :: body ++ ['*', '/'] ∧ ¬ ['*', '/'] <:+: body ++ ['*']

/-- Nothing of a text is lost in its tokens and comments, and nothing is in two of them. -/
structure Lexed.Lossless (lexed : Lexed) (text : List Char) : Prop where
  /-- They stand in order, and none overlaps another. -/
  ordered : lexed.marks.Pairwise fun mark other => mark.span.stop ≤ other.span.start
  /-- The last is the end of the input, at the end of the text; the others cover some text, and none
  of them is the end of the input. -/
  closed : ∃ body, lexed.marks = body ++ [.token (.ending (Text.byteLength text))] ∧
    ∀ mark ∈ body, mark.span.start < mark.span.stop ∧ ∀ t, mark = .token t → t.kind ≠ .eof
  /-- Each can be cut out of the text, so that it ends within no character, and is what is written
  there. -/
  written : ∀ mark ∈ lexed.marks, Text.slice? text mark.span = some mark.text.toList
  /-- Before the first and between any two that follow one another, the text is blank. -/
  blank : List.IsChain (Text.BlankBetween text) (Span.point 0 :: lexed.marks.map (·.span))
  /-- A line comment is written as one. -/
  line : ∀ c ∈ lexed.comments, c.kind = .line → Text.IsLineComment c.text.toList
  /-- A block comment is written as one. -/
  block : ∀ c ∈ lexed.comments, c.kind = .block → Text.IsBlockComment c.text.toList

/-! ### What pieces hold -/

/-- What is written in a piece that is no token. -/
def PieceSort.Holds : PieceSort → List Char → Prop
  | .blank, text => ∀ c ∈ text, isBlank c = true
  | .comment .line, text => Text.IsLineComment text
  | .comment .block, text => Text.IsBlockComment text
  | .token _, _ => True

namespace Lexer

variable {text before gap : List Char} {ps : List Piece} {piece : Piece} {offset : Nat}

/-- The first piece of a text holds what its sort says. -/
theorem front_holds (text : List Char) : (front text).1.Holds (text.take (front text).2) := by
  unfold front
  split
  case h_2 => trivial
  case h_1 pattern length hlongest =>
    obtain ⟨-, hlength, hpos, -⟩ := Pattern.longest?_eq_some hlongest
    cases pattern with
    | blank =>
      have hrun := @Pattern.free_runLength (!isBlank ·) isBlank isBlank
        (fun c hc => by simp [hc]) (fun c hc => by simp [hc]) text
      intro c hc
      simpa using hrun c (by rwa [hlength] at hc)
    | lineComment =>
      obtain ⟨hfixed, rest, rfl⟩ := Pattern.of_fixed_pos (hlength ▸ hpos)
      obtain rfl : length = 2 := hlength.trans hfixed
      refine ⟨rest.take (Delimiter.lineCommentEnd rest), ?_, fun c hc => ?_⟩
      · simp [extend, Nat.add_comm 2]
      · simpa [Delimiter.isLineEnd, CodeUnit.ofAscii] using Delimiter.take_lineCommentEnd rest c hc
    | blockComment =>
      obtain ⟨hfixed, rest, rfl⟩ := Pattern.of_fixed_pos (hlength ▸ hpos)
      obtain rfl : length = 2 := hlength.trans hfixed
      cases hend : Delimiter.blockCommentEnd? rest with
      | none => simp [extend, hend, PieceSort.Holds]
      | some inner =>
        obtain ⟨body, after, rfl, rfl, hfirst⟩ := Delimiter.blockCommentEnd?_eq_some hend
        have hextend : extend .blockComment 2 (['/', '*'] ++ (body ++ '*' :: '/' :: after)) =
            (.comment .block, 2 + (body.length + 2)) := by
          simp [extend, hend]
        rw [hextend]
        refine ⟨body, ?_, hfirst⟩
        have htext : ['/', '*'] ++ (body ++ '*' :: '/' :: after) =
            ('/' :: '*' :: body ++ ['*', '/']) ++ after := by simp
        rw [htext]
        exact List.take_left' (by simp; omega)
    | quote kind mark =>
      simp only [extend]
      split <;> trivial
    | number | hexNumber | word | symbol => trivial

/-- What each piece of a text holds. -/
theorem pieces_hold (text : List Char) : ∀ piece ∈ pieces text, piece.sort.Holds piece.text := by
  intro piece hmem
  obtain ⟨left, -, -, rfl⟩ := (cuts_pieces text).front hmem
  exact front_holds left

/-! ### Tokens and comments in the order of the pieces -/

/-- The tokens and comments of pieces that begin at `offset`. -/
def marksFrom : Nat → List Piece → List Mark
  | offset, [] => [.token (.ending offset)]
  | offset, piece :: pieces =>
    let stop := offset + Text.byteLength piece.text
    match piece.sort with
    | .blank => marksFrom stop pieces
    | .comment kind =>
      .comment ⟨kind, String.ofList piece.text, ⟨offset, stop⟩⟩ :: marksFrom stop pieces
    | .token kind =>
      .token ⟨⟨kind, String.ofList piece.text⟩, ⟨offset, stop⟩⟩ :: marksFrom stop pieces

/-- No token of pieces starts before them. -/
theorem le_start_of_mem_tokensFrom {t : Token} (h : t ∈ tokensFrom offset ps) :
    offset ≤ t.span.start := by
  induction ps generalizing offset with
  | nil => exact Nat.le_of_eq (congrArg (·.span.start) (List.mem_singleton.mp h)).symm
  | cons piece ps ih =>
    unfold tokensFrom at h
    split at h
    · rcases List.mem_cons.mp h with rfl | h
      · exact Nat.le_refl _
      · exact Nat.le_trans (Nat.le_add_right _ _) (ih h)
    · exact Nat.le_trans (Nat.le_add_right _ _) (ih h)

/-- No comment of pieces starts before them. -/
theorem le_start_of_mem_commentsFrom {c : Comment} (h : c ∈ commentsFrom offset ps) :
    offset ≤ c.span.start := by
  induction ps generalizing offset with
  | nil => cases h
  | cons piece ps ih =>
    unfold commentsFrom at h
    split at h
    · rcases List.mem_cons.mp h with rfl | h
      · exact Nat.le_refl _
      · exact Nat.le_trans (Nat.le_add_right _ _) (ih h)
    · exact Nat.le_trans (Nat.le_add_right _ _) (ih h)

/-- A merge takes the first mark on the left if none on the right starts before it. -/
theorem merge_cons_left {mark : Mark} {left right : List Mark}
    (h : ∀ other ∈ right, mark.before other = true) :
    List.merge (mark :: left) right Mark.before = mark :: List.merge left right Mark.before := by
  cases right with
  | nil => simp
  | cons other right => exact List.cons_merge_cons_pos _ _ _ (h other List.mem_cons_self)

/-- A merge takes the first mark on the right if all on the left start after it. -/
theorem merge_cons_right {mark : Mark} {left right : List Mark}
    (h : ∀ other ∈ left, other.before mark = false) :
    List.merge left (mark :: right) Mark.before = mark :: List.merge left right Mark.before := by
  cases left with
  | nil => simp
  | cons other left =>
    exact List.cons_merge_cons_neg _ _ _ (Bool.not_eq_true _ ▸ h other List.mem_cons_self)

/-- The merge brings tokens and comments into the order of the pieces they were read off. -/
theorem merge_tokensFrom (h : ∀ piece ∈ ps, 0 < piece.text.length) :
    List.merge ((tokensFrom offset ps).map .token) ((commentsFrom offset ps).map .comment)
      Mark.before = marksFrom offset ps := by
  induction ps generalizing offset with
  | nil => simp [tokensFrom, commentsFrom, marksFrom, Token.ending]
  | cons piece ps ih =>
    obtain ⟨hpiece, hps⟩ := List.forall_mem_cons.mp h
    have hpos := Text.byteLength_pos (List.length_pos_iff.mp hpiece)
    unfold tokensFrom commentsFrom marksFrom
    cases hsort : piece.sort with
    | blank => exact ih hps
    | comment kind =>
      dsimp only
      rw [List.map_cons, merge_cons_right, ih hps]
      refine List.forall_mem_map.mpr fun t ht => ?_
      have := le_start_of_mem_tokensFrom ht
      exact decide_eq_false (by dsimp only [Mark.span]; omega)
    | token kind =>
      dsimp only
      rw [List.map_cons, merge_cons_left, ih hps]
      refine List.forall_mem_map.mpr fun c hc => ?_
      have := le_start_of_mem_commentsFrom hc
      exact decide_eq_true (by dsimp only [Mark.span]; omega)

/-! ### Marks of a text -/

/-- No mark of pieces starts before them. -/
theorem le_start_of_mem_marksFrom {mark : Mark} (h : mark ∈ marksFrom offset ps) :
    offset ≤ mark.span.start := by
  induction ps generalizing offset with
  | nil =>
    obtain rfl := List.mem_singleton.mp h
    exact Nat.le_refl _
  | cons piece ps ih =>
    unfold marksFrom at h
    split at h
    · exact Nat.le_trans (Nat.le_add_right _ _) (ih h)
    all_goals
      rcases List.mem_cons.mp h with rfl | h
      · exact Nat.le_refl _
      · exact Nat.le_trans (Nat.le_add_right _ _) (ih h)

theorem marksFrom_ordered :
    (marksFrom offset ps).Pairwise fun mark other => mark.span.stop ≤ other.span.start := by
  induction ps generalizing offset with
  | nil => exact List.pairwise_singleton _ _
  | cons piece ps ih =>
    unfold marksFrom
    split
    · exact ih
    all_goals exact List.pairwise_cons.mpr ⟨fun _ h => le_start_of_mem_marksFrom h, ih⟩

theorem marksFrom_closed (h : ∀ piece ∈ ps, 0 < piece.text.length ∧ piece.sort ≠ .token .eof) :
    ∃ body, marksFrom offset ps = body ++
        [.token (.ending (offset + Text.byteLength (ps.flatMap (·.text))))] ∧
      ∀ mark ∈ body, mark.span.start < mark.span.stop ∧
        ∀ t, mark = .token t → t.kind ≠ .eof := by
  induction ps generalizing offset with
  | nil => exact ⟨[], rfl, by simp⟩
  | cons piece ps ih =>
    obtain ⟨⟨hlength, heof⟩, hps⟩ := List.forall_mem_cons.mp h
    have hpos := Text.byteLength_pos (List.length_pos_iff.mp hlength)
    obtain ⟨body, hbody, hkept⟩ := @ih (offset + Text.byteLength piece.text) hps
    rw [List.flatMap_cons, Text.byteLength_append, ← Nat.add_assoc]
    unfold marksFrom
    cases hsort : piece.sort with
    | blank => exact ⟨body, hbody, hkept⟩
    | comment kind =>
      exact ⟨_ :: body, congrArg (_ :: ·) hbody,
        List.forall_mem_cons.mpr ⟨⟨Nat.lt_add_of_pos_right hpos, nofun⟩, hkept⟩⟩
    | token kind =>
      refine ⟨_ :: body, congrArg (_ :: ·) hbody,
        List.forall_mem_cons.mpr ⟨⟨Nat.lt_add_of_pos_right hpos, ?_⟩, hkept⟩⟩
      intro t ht hk
      cases ht
      exact heof (hsort.trans (congrArg _ hk))

/-- Marks hold the text that they cover. -/
theorem marksFrom_written (htext : text = before ++ ps.flatMap (·.text)) :
    ∀ mark ∈ marksFrom (Text.byteLength before) ps,
      Text.slice? text mark.span = some mark.text.toList := by
  induction ps generalizing before with
  | nil =>
    subst htext
    refine List.forall_mem_singleton.mpr ?_
    exact Text.slice?_append before [] []
  | cons piece ps ih =>
    rw [List.flatMap_cons] at htext
    have hrest := @ih (before ++ piece.text) (by rw [htext, List.append_assoc])
    rw [Text.byteLength_append] at hrest
    have hpiece := Text.slice?_append before piece.text (ps.flatMap (·.text))
    rw [← htext] at hpiece
    unfold marksFrom
    split
    · exact hrest
    all_goals exact List.forall_mem_cons.mpr ⟨by simpa [Mark.span, Mark.text] using hpiece, hrest⟩

/-- Between marks there are blank pieces only. -/
theorem marksFrom_blank {span : Span} (htext : text = before ++ gap ++ ps.flatMap (·.text))
    (hspan : span.stop = Text.byteLength before) (hgap : ∀ c ∈ gap, isBlank c = true)
    (hholds : ∀ piece ∈ ps, piece.sort.Holds piece.text) :
    List.IsChain (Text.BlankBetween text)
      (span :: (marksFrom (Text.byteLength (before ++ gap)) ps).map (·.span)) := by
  induction ps generalizing before gap span with
  | nil =>
    refine List.isChain_cons_cons.mpr ⟨⟨gap, ?_, hgap⟩, .singleton _⟩
    rw [htext, List.append_assoc, hspan, Text.byteLength_append]
    exact Text.slice?_append before gap _
  | cons piece ps ih =>
    obtain ⟨hpiece, hps⟩ := List.forall_mem_cons.mp hholds
    rw [List.flatMap_cons] at htext
    have hfirst : Text.BlankBetween text span
        ⟨Text.byteLength (before ++ gap), Text.byteLength (before ++ gap ++ piece.text)⟩ := by
      refine ⟨gap, ?_, hgap⟩
      rw [htext, List.append_assoc, hspan, Text.byteLength_append]
      exact Text.slice?_append before gap _
    have hrest := @ih (before ++ gap ++ piece.text) []
      ⟨Text.byteLength (before ++ gap), Text.byteLength (before ++ gap ++ piece.text)⟩
      (by simp [htext]) rfl (by simp) hps
    rw [List.append_nil] at hrest
    unfold marksFrom
    rw [← Text.byteLength_append]
    cases hsort : piece.sort with
    | blank =>
      rw [hsort] at hpiece
      have hmore := @ih before (gap ++ piece.text) span (by simp [htext]) hspan
        (fun c hc => (List.mem_append.mp hc).elim (hgap c) (hpiece c)) hps
      rw [← List.append_assoc] at hmore
      exact hmore
    | comment kind => exact List.isChain_cons_cons.mpr ⟨hfirst, hrest⟩
    | token kind => exact List.isChain_cons_cons.mpr ⟨hfirst, hrest⟩

/-- Comments are written as their pieces are. -/
theorem commentsFrom_hold (hholds : ∀ piece ∈ ps, piece.sort.Holds piece.text) :
    ∀ c ∈ commentsFrom offset ps, (PieceSort.comment c.kind).Holds c.text.toList := by
  induction ps generalizing offset with
  | nil => simp [commentsFrom]
  | cons piece ps ih =>
    obtain ⟨hpiece, hps⟩ := List.forall_mem_cons.mp hholds
    unfold commentsFrom
    split
    · next kind hsort =>
      rw [hsort] at hpiece
      exact List.forall_mem_cons.mpr ⟨by simpa using hpiece, ih hps⟩
    · exact ih hps

end Lexer

/-- Nothing of a source is lost when it is cut into tokens and comments. -/
theorem lex_lossless (source : String) : (lex source).Lossless source.toList := by
  have hsolid := Lexer.solid_pieces source.toList
  have hholds := Lexer.pieces_hold source.toList
  have htext : source.toList = (Lexer.pieces source.toList).flatMap (·.text) := by
    simpa using (Lexer.cuts_pieces source.toList).text_eq
  have hmarks : (lex source).marks = Lexer.marksFrom 0 (Lexer.pieces source.toList) :=
    Lexer.merge_tokensFrom fun piece hmem => (hsolid piece hmem).1
  have hcomments := @Lexer.commentsFrom_hold _ 0 hholds
  obtain ⟨body, hbody, hkept⟩ := @Lexer.marksFrom_closed _ 0 hsolid
  rw [← htext, Nat.zero_add] at hbody
  exact {
    ordered := hmarks ▸ Lexer.marksFrom_ordered
    closed := ⟨body, hmarks.trans hbody, hkept⟩
    written := hmarks ▸ @Lexer.marksFrom_written _ [] _ htext
    blank := hmarks ▸ @Lexer.marksFrom_blank _ [] [] _ (Span.point 0) htext rfl (by simp) hholds
    line := fun c hc hkind => by simpa [hkind, PieceSort.Holds] using hcomments c hc
    block := fun c hc hkind => by simpa [hkind, PieceSort.Holds] using hcomments c hc }

end SolidityParser
