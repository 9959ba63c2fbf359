import SolidityParser.Proofs.Lexer.Words

/-!
# Where tokens stand

The tokens of a source stand one after the other, and each but the last covers some of the text; the
last is the end of the input, and stands at the end of the text (`lex_placed`). So the start of a
token tells which token it is.
-/

namespace SolidityParser

/-- The end of the input, at the end of a text of `size` bytes. -/
def Token.ending (size : Nat) : Token := ⟨⟨.eof, ""⟩, Span.point size⟩

/-- How tokens are placed in a text of `size` bytes. -/
structure TokenList.Placed (list : TokenList) (size : Nat) : Prop where
  /-- The last token is the end of the input, and stands at the end of the text. -/
  last : list.get? (list.size - 1) = some (.ending size)
  /-- The others are not the end of the input. -/
  ne_eof : ∀ i t, list.get? i = some t → i + 1 < list.size → t.kind ≠ .eof
  /-- They cover some of the text. -/
  nonempty : ∀ i t, list.get? i = some t → t.kind ≠ .eof → t.span.start < t.span.stop
  /-- They stand in order. -/
  ordered : ∀ i j s t, i < j → list.get? i = some s → list.get? j = some t →
    s.span.stop ≤ t.span.start

namespace Lexer

variable {ps : List Piece} {offset : Nat}

/-- What is known of the tokens of pieces but for the last: they cover text of the pieces, in
order. -/
structure Body (offset stop : Nat) (body : List Token) : Prop where
  /-- Each covers some text. -/
  covers : ∀ t ∈ body, t.kind ≠ .eof ∧ offset ≤ t.span.start ∧ t.span.start < t.span.stop ∧
    t.span.stop ≤ stop
  /-- They stand in order. -/
  ordered : body.Pairwise fun s t => s.span.stop ≤ t.span.start

/-- The tokens of pieces that are not empty, and the end. -/
theorem tokensFrom_body (h : ∀ piece ∈ ps, 0 < piece.text.length ∧ piece.sort ≠ .token .eof) :
    ∃ body, tokensFrom offset ps = body ++
        [.ending (offset + Text.byteLength (ps.flatMap (·.text)))] ∧
      Body offset (offset + Text.byteLength (ps.flatMap (·.text))) body := by
  induction ps generalizing offset with
  | nil => exact ⟨[], rfl, by simp, .nil⟩
  | cons piece ps ih =>
    obtain ⟨hlength, heof⟩ := h piece List.mem_cons_self
    have hpos : 0 < Text.byteLength piece.text := by
      match piece.text, hlength with
      | c :: cs, _ => exact Nat.add_pos_left c.utf8Size_pos _
    obtain ⟨body, hbody, hcovers, hordered⟩ :=
      @ih (offset + Text.byteLength piece.text) fun p hp => h p (List.mem_cons_of_mem _ hp)
    rw [List.flatMap_cons, Text.byteLength_append, ← Nat.add_assoc]
    unfold tokensFrom
    split
    case h_1 kind hsort =>
      refine ⟨_ :: body, congrArg (_ :: ·) hbody, ?_, ?_⟩
      · refine List.forall_mem_cons.mpr ⟨⟨?_, Nat.le_refl _, ?_, ?_⟩, fun t ht => ?_⟩
        · rintro rfl
          exact heof hsort
        · dsimp only
          omega
        · dsimp only
          omega
        · obtain ⟨hkind, hstart, hlt, hstop⟩ := hcovers t ht
          exact ⟨hkind, by omega, hlt, hstop⟩
      · exact List.pairwise_cons.mpr ⟨fun t ht => (hcovers t ht).2.1, hordered⟩
    case h_2 =>
      refine ⟨body, hbody, fun t ht => ?_, hordered⟩
      obtain ⟨hkind, hstart, hlt, hstop⟩ := hcovers t ht
      exact ⟨hkind, by omega, hlt, hstop⟩

/-- The tokens of pieces that are not empty are spelled with a character at least, but for the
end. -/
theorem text_ne_of_mem_tokensFrom (h : ∀ piece ∈ ps, 0 < piece.text.length) {t : Token}
    (ht : t ∈ tokensFrom offset ps) (hkind : t.kind ≠ .eof) : t.text.toList ≠ [] := by
  induction ps generalizing offset with
  | nil =>
    obtain rfl := List.mem_singleton.mp ht
    exact absurd rfl hkind
  | cons piece ps ih =>
    obtain ⟨hlength, hps⟩ := List.forall_mem_cons.mp h
    unfold tokensFrom at ht
    split at ht
    · rcases List.mem_cons.mp ht with rfl | ht
      · simpa using List.ne_nil_of_length_pos hlength
      · exact ih hps ht
    · exact ih hps ht

/-- No piece of a text is empty or the end of the input. -/
theorem solid_pieces (text : List Char) :
    ∀ piece ∈ pieces text, 0 < piece.text.length ∧ piece.sort ≠ .token .eof := by
  intro piece hmem
  refine ⟨((cuts_pieces text).length_le hmem).1, fun hsort => ?_⟩
  obtain ⟨left, -, -, rfl⟩ := (cuts_pieces text).front hmem
  exact ne_eof_of_front hsort rfl

end Lexer

/-- The tokens of a source are spelled with a character at least, but for the end. -/
theorem lex_text_ne {source : String} {token : Token} (h : token ∈ (lex source).tokens.tokens)
    (hkind : token.kind ≠ .eof) : token.text.toList ≠ [] :=
  Lexer.text_ne_of_mem_tokensFrom
    (fun piece hmem => (Lexer.solid_pieces source.toList piece hmem).1) (List.mem_toArray.mp h) hkind

/-- The tokens of a source, placed in it. -/
theorem lex_placed (source : String) :
    (lex source).tokens.Placed (Text.byteLength source.toList) := by
  obtain ⟨body, hbody, hcovers, hordered⟩ :=
    @Lexer.tokensFrom_body _ 0 (Lexer.solid_pieces source.toList)
  have htext : (Lexer.pieces source.toList).flatMap (·.text) = source.toList := by
    have h := (Lexer.cuts_pieces source.toList).text_eq
    rw [List.append_nil] at h
    exact h.symm
  rw [Nat.zero_add, htext] at hbody hcovers
  have htokens : (lex source).tokens.tokens =
      (body ++ [Token.ending (Text.byteLength source.toList)]).toArray := by
    rw [← hbody]
    rfl
  have hsize : (lex source).tokens.size = body.length + 1 := by
    simp [TokenList.size, htokens]
  have hget (i : Nat) : (lex source).tokens.get? i =
      (body ++ [Token.ending (Text.byteLength source.toList)])[i]? := by
    rw [TokenList.get?, htokens, List.getElem?_toArray]
  have hlt {i : Nat} {t : Token} (h : (lex source).tokens.get? i = some t) :
      i < body.length ∧ t ∈ body ∨
        i = body.length ∧ t = .ending (Text.byteLength source.toList) := by
    rw [hget, List.getElem?_append] at h
    split at h
    · next hi => exact .inl ⟨hi, List.mem_of_getElem? h⟩
    · next hi =>
      rw [List.getElem?_singleton] at h
      split at h
      · exact .inr ⟨by omega, by simpa using h.symm⟩
      · cases h
  refine ⟨?_, fun i t ht hi => ?_, fun i t ht hkind => ?_, fun i j s t hij hs ht => ?_⟩
  · rw [hget, hsize, Nat.add_sub_cancel, List.getElem?_concat_length]
  · rcases hlt ht with ⟨-, hmem⟩ | ⟨rfl, -⟩
    · exact (hcovers t hmem).1
    · omega
  · rcases hlt ht with ⟨-, hmem⟩ | ⟨-, rfl⟩
    · exact (hcovers t hmem).2.2.1
    · exact absurd rfl hkind
  · rcases hlt hs with ⟨hi, hmem⟩ | ⟨rfl, rfl⟩
    · rcases hlt ht with ⟨hj, -⟩ | ⟨-, rfl⟩
      · rw [hget, List.getElem?_append_left hi] at hs
        rw [hget, List.getElem?_append_left hj] at ht
        obtain ⟨_, rfl⟩ := List.getElem?_eq_some_iff.mp hs
        obtain ⟨_, rfl⟩ := List.getElem?_eq_some_iff.mp ht
        exact List.pairwise_iff_getElem.mp hordered i j hi hj hij
      · exact (hcovers s hmem).2.2.2
    · rcases hlt ht with ⟨hj, -⟩ | ⟨hj, -⟩ <;> omega

namespace TokenList

variable {list : TokenList} {i : Nat} {t : Token}

/-- The kind of a token is what the grammar sees of it. -/
theorem kindAt_lexemes (h : list.get? i = some t) : list.lexemes.kindAt i = t.kind := by
  obtain ⟨hi, rfl⟩ := Array.getElem?_eq_some_iff.mp h
  simp [lexemes, Lexemes.kindAt, hi]

/-- So is its text. -/
theorem textAt_lexemes (h : list.get? i = some t) : list.lexemes.textAt i = t.text := by
  obtain ⟨hi, rfl⟩ := Array.getElem?_eq_some_iff.mp h
  simp [lexemes, Lexemes.textAt, hi]

end TokenList

namespace TokenList.Placed

variable {list : TokenList} {size i j : Nat} {s t : Token}

/-- There is a last token. -/
theorem size_pos (h : list.Placed size) : 0 < list.size := by
  have hlast := h.last
  rcases Nat.eq_zero_or_pos list.size with hzero | hpos
  · rw [hzero, get?, Array.getElem?_eq_none (by unfold TokenList.size at hzero; omega)] at hlast
    cases hlast
  · exact hpos

theorem lt_size (ht : list.get? i = some t) : i < list.size := by
  unfold get? at ht
  obtain ⟨hi, -⟩ := Array.getElem?_eq_some_iff.mp ht
  exact hi

/-- A token does not stand before its start, or after the end of the text. -/
theorem inside (h : list.Placed size) (ht : list.get? i = some t) :
    t.span.start ≤ t.span.stop ∧ t.span.stop ≤ size := by
  have hi := lt_size ht
  by_cases hlast : i + 1 = list.size
  · obtain rfl : i = list.size - 1 := by omega
    rw [h.last] at ht
    cases ht
    exact ⟨Nat.le_refl _, Nat.le_refl _⟩
  · have hne := h.ne_eof i t ht (by omega)
    exact ⟨Nat.le_of_lt (h.nonempty i t ht hne),
      h.ordered i (list.size - 1) t _ (by omega) ht h.last⟩

/-- Tokens that start at one place are one. -/
theorem index_unique (h : list.Placed size) (hs : list.get? i = some s)
    (ht : list.get? j = some t) (hstart : s.span.start = t.span.start) : i = j := by
  have before {i j : Nat} {s t : Token} (hij : i < j) (hs : list.get? i = some s)
      (ht : list.get? j = some t) : s.span.start < t.span.start := by
    have hj := lt_size ht
    exact Nat.lt_of_lt_of_le (h.nonempty i s hs (h.ne_eof i s hs (by omega)))
      (h.ordered i j s t hij hs ht)
  rcases Nat.lt_trichotomy i j with hlt | heq | hgt
  · exact absurd hstart (Nat.ne_of_lt (before hlt hs ht))
  · exact heq
  · exact absurd hstart.symm (Nat.ne_of_lt (before hgt ht hs))

end TokenList.Placed

end SolidityParser
