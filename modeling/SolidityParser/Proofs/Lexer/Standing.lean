import SolidityParser.Proofs.Lexer.Munch
import SolidityParser.Proofs.Lexer.Slice

/-!
# Where pieces stand

A token or comment of a source is a piece of it, with the span that the pieces before it leave
(`exists_pieces_of_get?`, `exists_pieces_of_comment`). No two pieces overlap
(`stop_le_of_start_lt`), and every character of a text is in one of them (`exists_standing`).
-/

namespace SolidityParser

open Text (byteLength)

namespace Text

variable {front back text : List Char}

/-- Of two texts at the front of a third, the one with fewer bytes is at the front of the other. -/
theorem prefix_of_byteLength_le (hfront : front <+: text) (hback : back <+: text)
    (h : byteLength front ≤ byteLength back) : front <+: back := by
  rcases List.prefix_or_prefix_of_prefix hfront hback with hprefix | ⟨more, rfl⟩
  · exact hprefix
  · -- what is missing has no bytes
    have hnil : more = [] := by
      cases more with
      | nil => rfl
      | cons c more =>
        rw [byteLength_append] at h
        have := byteLength_pos (List.cons_ne_nil c more)
        omega
    rw [hnil, List.append_nil]

end Text

namespace Lexer

variable {ps left right left' right' : List Piece} {piece piece' : Piece} {text : List Char}
  {source : String} {kind : Kind}

/-- The span of a piece that stands behind others. -/
def spanAfter (left : List Piece) (piece : Piece) : Span :=
  ⟨byteLength (left.flatMap (·.text)), byteLength (left.flatMap (·.text)) + byteLength piece.text⟩

/-- Each character of a text is in a piece of it. -/
theorem exists_standing {front back : List Char} {c : Char} (ps : List Piece)
    (h : ps.flatMap (·.text) = front ++ c :: back) :
    ∃ left piece right u w, ps = left ++ piece :: right ∧ piece.text = u ++ c :: w ∧
      front = left.flatMap (·.text) ++ u ∧ back = w ++ right.flatMap (·.text) := by
  induction ps generalizing front with
  | nil => cases front <;> cases h
  | cons first ps ih =>
    rw [List.flatMap_cons] at h
    rcases List.append_eq_append_iff.mp h with ⟨more, rfl, hrest⟩ | ⟨more, hfirst, hrest⟩
    · obtain ⟨left, piece, right, u, w, rfl, hpiece, rfl, rfl⟩ := ih hrest
      exact ⟨first :: left, piece, right, u, w, rfl, hpiece, by simp, rfl⟩
    · cases more with
      | nil =>
        obtain ⟨left, piece, right, u, w, rfl, hpiece, hfront, rfl⟩ := @ih [] hrest.symm
        refine ⟨first :: left, piece, right, u, w, rfl, hpiece, ?_, rfl⟩
        rw [List.append_nil] at hfirst
        rw [List.flatMap_cons, List.append_assoc, ← hfront, hfirst, List.append_nil]
      | cons d more =>
        obtain ⟨rfl, rfl⟩ := List.cons.inj hrest
        exact ⟨[], first, ps, front, more, rfl, hfirst, rfl, rfl⟩

/-- No two pieces overlap. -/
theorem stop_le_of_start_lt (h : left ++ piece :: right = left' ++ piece' :: right')
    (hlt : (spanAfter left piece).start < (spanAfter left' piece').start) :
    (spanAfter left piece).stop ≤ (spanAfter left' piece').start := by
  simp only [spanAfter] at hlt ⊢
  rcases List.append_eq_append_iff.mp h with ⟨more, rfl, hrest⟩ | ⟨more, rfl, -⟩
  · cases more with
    | nil => simp at hlt
    | cons first more =>
      obtain ⟨rfl, -⟩ := List.cons.inj hrest
      simp only [List.flatMap_append, List.flatMap_cons, Text.byteLength_append]
      omega
  · simp only [List.flatMap_append, Text.byteLength_append] at hlt
    omega

/-- Two pieces that begin at one place are one. -/
theorem eq_of_start_eq (h : left ++ piece :: right = left' ++ piece' :: right')
    (hpiece : piece.text ≠ []) (hpiece' : piece'.text ≠ [])
    (heq : (spanAfter left piece).start = (spanAfter left' piece').start) : piece = piece' := by
  have hpos := Text.byteLength_pos hpiece
  have hpos' := Text.byteLength_pos hpiece'
  simp only [spanAfter] at heq
  rcases List.append_eq_append_iff.mp h with ⟨more, rfl, hrest⟩ | ⟨more, rfl, hrest⟩
  · cases more with
    | nil => exact (List.cons.inj hrest).1
    | cons first more =>
      obtain ⟨rfl, -⟩ := List.cons.inj hrest
      simp only [List.flatMap_append, List.flatMap_cons, Text.byteLength_append] at heq
      omega
  · cases more with
    | nil => exact (List.cons.inj hrest).1.symm
    | cons first more =>
      obtain ⟨rfl, -⟩ := List.cons.inj hrest
      simp only [List.flatMap_append, List.flatMap_cons, Text.byteLength_append] at heq
      omega

/-! ### Tokens and comments -/

/-- The token that a piece of a source is. -/
theorem get?_of_pieces (h : pieces source.toList = left ++ piece :: right)
    (hsort : piece.sort = .token kind) :
    (lex source).tokens.get? (tokenCount left) =
      some ⟨⟨kind, String.ofList piece.text⟩, spanAfter left piece⟩ := by
  rw [lex, lexText_get?, h, tokensFrom_getElem? hsort, Nat.zero_add]
  rfl

/-- The piece of a source that a token is. -/
theorem exists_pieces_of_get? {i : Nat} {t : Token} (h : (lex source).tokens.get? i = some t)
    (hkind : t.kind ≠ .eof) :
    ∃ left piece right, pieces source.toList = left ++ piece :: right ∧ tokenCount left = i ∧
      piece.sort = .token t.kind ∧ piece.text = t.text.toList ∧ t.span = spanAfter left piece := by
  have hp := lex_placed source
  have hlt : i < tokenCount (pieces source.toList) := by
    have hsize : (lex source).tokens.size = tokenCount (pieces source.toList) + 1 :=
      lexText_size source.toList
    have hi := TokenList.Placed.lt_size h
    refine Nat.lt_of_le_of_ne (by omega) fun heq => hkind ?_
    have hlast := hp.last
    rw [hsize, Nat.add_sub_cancel, ← heq, h] at hlast
    rw [Option.some.inj hlast]
    rfl
  obtain ⟨left, piece, right, kind, hpieces, rfl, hsort⟩ := exists_piece hlt
  have htoken := get?_of_pieces hpieces hsort
  rw [h] at htoken
  obtain rfl := Option.some.inj htoken
  exact ⟨left, piece, right, hpieces, rfl, hsort, String.toList_ofList.symm, rfl⟩

/-- A comment among several pieces is the first, or is one of the rest. -/
theorem mem_commentsFrom_cons {offset : Nat} {c : Comment} {first : Piece} :
    c ∈ commentsFrom offset (first :: ps) ↔
      first.sort = .comment c.kind ∧
          c = ⟨c.kind, String.ofList first.text, ⟨offset, offset + byteLength first.text⟩⟩ ∨
        c ∈ commentsFrom (offset + byteLength first.text) ps := by
  conv => lhs; unfold commentsFrom
  cases first.sort with
  | comment kind =>
    rw [List.mem_cons, PieceSort.comment.injEq]
    refine or_congr_left ⟨?_, ?_⟩
    · rintro rfl
      exact ⟨rfl, rfl⟩
    · rintro ⟨rfl, hc⟩
      exact hc
  | blank | token => simp

/-- The comments of pieces are those among them. -/
theorem mem_commentsFrom_iff {offset : Nat} {c : Comment} : c ∈ commentsFrom offset ps ↔
    ∃ left piece right, ps = left ++ piece :: right ∧ piece.sort = .comment c.kind ∧
      c = ⟨c.kind, String.ofList piece.text, ⟨offset + (spanAfter left piece).start,
        offset + (spanAfter left piece).stop⟩⟩ := by
  induction ps generalizing offset with
  | nil => simp [commentsFrom]
  | cons first ps ih =>
    -- a comment of the rest is one of a piece behind the first
    have hrest : c ∈ commentsFrom (offset + byteLength first.text) ps ↔
        ∃ left piece right, ps = left ++ piece :: right ∧ piece.sort = .comment c.kind ∧
          c = ⟨c.kind, String.ofList piece.text, ⟨offset + (spanAfter (first :: left) piece).start,
            offset + (spanAfter (first :: left) piece).stop⟩⟩ := by
      rw [ih]
      simp only [spanAfter, List.flatMap_cons, Text.byteLength_append, Nat.add_assoc]
    rw [mem_commentsFrom_cons, hrest]
    constructor
    · rintro (⟨hsort, hc⟩ | ⟨left, piece, right, rfl, hsort, hc⟩)
      · exact ⟨[], first, ps, rfl, hsort, by simpa [spanAfter] using hc⟩
      · exact ⟨first :: left, piece, right, rfl, hsort, hc⟩
    · rintro ⟨left, piece, right, hps, hsort, hc⟩
      cases left with
      | nil =>
        obtain ⟨rfl, rfl⟩ := List.cons.inj hps
        exact .inl ⟨hsort, by simpa [spanAfter] using hc⟩
      | cons other left =>
        obtain ⟨rfl, rfl⟩ := List.cons.inj hps
        exact .inr ⟨left, piece, right, rfl, hsort, hc⟩

/-- The comment that a piece of a source is. -/
theorem comment_mem_of_pieces {kind : CommentKind}
    (h : pieces source.toList = left ++ piece :: right) (hsort : piece.sort = .comment kind) :
    ⟨kind, String.ofList piece.text, spanAfter left piece⟩ ∈ (lex source).comments := by
  refine mem_commentsFrom_iff.mpr ⟨left, piece, right, h, hsort, ?_⟩
  simp only [Nat.zero_add]

/-- The piece of a source that a comment is. -/
theorem exists_pieces_of_comment {c : Comment} (h : c ∈ (lex source).comments) :
    ∃ left piece right, pieces source.toList = left ++ piece :: right ∧
      piece.sort = .comment c.kind ∧ c.span = spanAfter left piece := by
  obtain ⟨left, piece, right, hpieces, hsort, hc⟩ := mem_commentsFrom_iff.mp h
  refine ⟨left, piece, right, hpieces, hsort, ?_⟩
  rw [hc]
  simp only [Nat.zero_add]

end Lexer

end SolidityParser
