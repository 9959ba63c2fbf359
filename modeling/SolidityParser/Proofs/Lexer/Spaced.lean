import SolidityParser.Proofs.Lexer.Blank
import SolidityParser.Proofs.Lexer.Dispatch

/-!
# Words with spaces between

A word that is one token by itself is one token before a space, unless it is a string or cannot be
read (`front_blank`). So a text made of such words with single spaces between has those words for
its tokens (`lex_spaced`).
-/

namespace SolidityParser

namespace Lexer

open Pattern (isBlank)

variable {word rest text : List Char} {kind : Kind}

/-- A blank before a character that is none is a piece. -/
theorem front_space {c : Char} (hc : isBlank c = false) :
    front (' ' :: c :: rest) = (.blank, 1) := by
  rw [front_of_isBlank rfl, List.takeWhile_cons, hc]
  rfl

/-- A token by itself begins with a character that is no blank. -/
theorem head_of_front {c : Char} {cs : List Char} {length : Nat}
    (h : front (c :: cs) = (.token kind, length)) (hk : kind ≠ .error) : isBlank c = false := by
  unfold front at h
  split at h
  · next pattern n hfound =>
    refine head_of_longest? hfound ?_
    rintro rfl
    cases h
  · cases h
    exact absurd rfl hk

/-- A word that is a token by itself is one before a space. -/
theorem front_blank (rest : List Char) (h : front word = (.token kind, word.length))
    (hword : word ≠ []) (hk : kind ≠ .error ∧ kind.isString = false) :
    front (word ++ ' ' :: rest) = (.token kind, word.length) := by
  obtain ⟨c, cs, rfl⟩ := List.exists_cons_of_ne_nil hword
  have hhead := head_of_front h hk.1
  have hlongest : Pattern.longest? (c :: cs) = Pattern.longest? (c :: cs ++ ' ' :: rest) :=
    longest?_append_blank hhead fun d hd => by cases hd; rfl
  unfold front at h ⊢
  rw [← hlongest]
  split at h
  · next pattern length hfound =>
    have hle : length ≤ (c :: cs).length := longest?_le hfound
    unfold extend at h ⊢
    dsimp only at h ⊢
    cases pattern with
    | blank | lineComment => cases h
    | number | hexNumber | symbol => exact h
    | word =>
      dsimp only at h ⊢
      rw [List.take_append_of_le_length hle]
      exact h
    | blockComment =>
      dsimp only at h
      split at h <;> cases h
      exact absurd rfl hk.1
    | quote kind mark =>
      dsimp only at h
      split at h
      · obtain rfl := PieceSort.token.inj (Prod.mk.inj h).1
        cases kind <;> cases hk.2
      · exact absurd (PieceSort.token.inj (Prod.mk.inj h).1).symm hk.1
  · exact absurd (PieceSort.token.inj (Prod.mk.inj h).1).symm hk.1

end Lexer

/-! ### Words by themselves -/

/-- A word is the only token of its spelling, and neither a string nor an error. -/
structure Lexeme.StandsAlone (word : Lexeme) : Prop where
  /-- It is the only token. -/
  lexemes : (lex word.text).tokens.lexemes = #[word, ⟨.eof, ""⟩]
  /-- It is no error. -/
  ne_error : word.kind ≠ .error
  /-- It is no string. -/
  isString_eq : word.kind.isString = false

/-- A text as a word of its own. -/
def Lexeme.ofText (text : String) : Lexeme := ⟨(lex text).tokens.lexemes.kindAt 0, text⟩

namespace Lexeme

theorem StandsAlone.ofText_eq {word : Lexeme} (h : word.StandsAlone) :
    ofText word.text = word := by
  unfold ofText
  rw [h.lexemes]
  rfl

theorem StandsAlone.ofText {word : Lexeme} (h : word.StandsAlone) :
    (Lexeme.ofText word.text).StandsAlone := by
  rwa [h.ofText_eq]

/-- An identifier is no keyword. -/
theorem StandsAlone.ofWord_eq {name : String} (h : StandsAlone ⟨.ident, name⟩) :
    Kind.ofWord name = .ident := by
  have hspelled := lex_wellSpelled name 0
  rw [h.lexemes] at hspelled
  exact hspelled (.inl rfl)

/-- Keywords and symbols are words by themselves. -/
theorem standsAlone_kind {kind : Kind} (h : kind ∈ Kind.keywords ++ Kind.symbols) :
    StandsAlone ⟨kind, kind.text⟩ where
  lexemes := by
    have hall : ∀ kind ∈ Kind.keywords ++ Kind.symbols,
        Lexer.dispatchAtFuel kind.text.toList.length kind.text.toList =
          [⟨.token kind, kind.text.toList⟩] := by
      decide +kernel
    rw [lex, Lexer.lexText_eq_dispatchText, Lexer.dispatchText, hall kind h]
    simp [Lexer.tokensFrom, TokenList.lexemes]
  ne_error := by
    rintro rfl
    revert h
    decide
  isString_eq := by
    have hall : ∀ kind ∈ Kind.keywords ++ Kind.symbols, kind.isString = false := by decide
    exact hall kind h

/-- Units of numbers are identifiers by themselves. -/
theorem standsAlone_unit {unit : String} (h : isNumberUnit unit = true) :
    StandsAlone ⟨.ident, unit⟩ where
  lexemes := by
    have hall : ∀ unit ∈ numberUnits,
        (lex unit).tokens.lexemes = #[⟨.ident, unit⟩, ⟨.eof, ""⟩] := by
      decide +kernel
    exact hall unit (List.contains_iff_mem.mp h)
  ne_error := Kind.noConfusion
  isString_eq := rfl

end Lexeme

namespace Lexer

/-- A word by itself is its own first piece. -/
theorem front_of_standsAlone {word : Lexeme} (h : word.StandsAlone) :
    word.text.toList ≠ [] ∧
      front word.text.toList = (.token word.kind, word.text.toList.length) := by
  have hwords := h.lexemes
  rw [lex_lexemes] at hwords
  have hfilter : (pieces word.text.toList).filterMap lexeme? = [word] := by
    refine (List.append_left_inj [(⟨.eof, ""⟩ : Lexeme)]).mp ?_
    exact congrArg Array.toList hwords
  obtain ⟨piece, hpiece, hlexeme⟩ := List.mem_filterMap.mp (hfilter ▸ List.mem_singleton_self word)
  have htext : piece.text = word.text.toList := by
    obtain ⟨sort, text⟩ := piece
    cases sort <;> cases hlexeme
    simp
  have hcuts := cuts_pieces word.text.toList
  have hne : word.text.toList ≠ [] := by
    have := (hcuts.length_le hpiece).1
    rw [htext] at this
    exact List.ne_nil_of_length_pos this
  refine ⟨hne, ?_⟩
  -- the piece is as long as the text, so it is the first one
  generalize word.text.toList = text at *
  generalize pieces text = ps at *
  cases hcuts with
  | nil => cases hpiece
  | cons _ next =>
    have hpos := CommentScan.front_pos hne
    rcases List.mem_cons.mp hpiece with rfl | hmem
    · have hlength := congrArg List.length htext
      have hle := front_le hne
      simp only [List.length_take] at hlength
      have hsort : (front text).1 = .token word.kind := by
        unfold lexeme? at hlexeme
        dsimp only at hlexeme
        split at hlexeme
        · next hsort =>
          cases hlexeme
          exact hsort
        · cases hlexeme
      exact Prod.ext hsort (by dsimp only; omega)
    · have := (next.length_le hmem).2
      rw [htext, List.length_drop] at this
      have := List.length_pos_iff.mpr hne
      omega

/-- A word that stands alone is not the end of the input. -/
theorem ne_eof_of_standsAlone {word : Lexeme} (h : word.StandsAlone) : word.kind ≠ .eof :=
  ne_eof_of_front (congrArg Prod.fst (front_of_standsAlone h).2)

/-- The pieces of words with spaces between are those words, but for blanks. -/
theorem cuts_spaced : (words : List Lexeme) → (∀ word ∈ words, word.StandsAlone) →
    ∃ ps, Cuts ([' '].intercalate (words.map fun word => word.text.toList)) ps [] ∧
      ps.filterMap lexeme? = words
  | [], _ => ⟨[], .nil [], rfl⟩
  | [word], h => by
    obtain ⟨hne, hfront⟩ := front_of_standsAlone (h word (by simp))
    have hnext : Cuts (word.text.toList.drop (front word.text.toList).2) [] [] := by
      rw [hfront, List.drop_length]
      exact .nil []
    have hcuts := Cuts.cons hne hnext
    rw [hfront, List.take_length] at hcuts
    refine ⟨_, by simpa using hcuts, ?_⟩
    simp [lexeme?]
  | word :: next :: words, h => by
    obtain ⟨ps, hcuts, hps⟩ := cuts_spaced (next :: words) fun w hw => h w (List.mem_cons_of_mem _ hw)
    have hword := h word (by simp)
    have hnext := h next (by simp)
    obtain ⟨hne, hfront⟩ := front_of_standsAlone hword
    obtain ⟨hneNext, hfrontNext⟩ := front_of_standsAlone hnext
    -- the next word does not begin with a blank, so one space stands between
    obtain ⟨c, cs, hc⟩ := List.exists_cons_of_ne_nil hneNext
    rw [hc] at hfrontNext
    have hhead := head_of_front hfrontNext hnext.ne_error
    rw [List.map_cons, List.map_cons, List.intercalate_cons_cons, List.append_assoc]
    rw [List.map_cons] at hcuts
    generalize hrest : [' '].intercalate (next.text.toList :: words.map fun w => w.text.toList) =
      rest at hcuts
    obtain ⟨ds, rfl⟩ : ∃ ds, rest = c :: ds := by
      cases words with
      | nil => exact ⟨cs, by simpa [hc] using hrest.symm⟩
      | cons other words =>
        rw [List.map_cons, List.intercalate_cons_cons, hc] at hrest
        exact ⟨_, hrest.symm⟩
    have hspace : Cuts (' ' :: c :: ds) (⟨.blank, [' ']⟩ :: ps) [] := by
      have hnext : Cuts ((' ' :: c :: ds).drop (front (' ' :: c :: ds)).2) ps [] := by
        rw [front_space hhead]
        exact hcuts
      have := Cuts.cons (by simp) hnext
      rwa [front_space hhead] at this
    have hfront' := front_blank (c :: ds) hfront hne ⟨hword.ne_error, hword.isString_eq⟩
    have hall : Cuts (word.text.toList ++ ' ' :: c :: ds)
        (⟨.token word.kind, word.text.toList⟩ :: ⟨.blank, [' ']⟩ :: ps) [] := by
      have hnext : Cuts ((word.text.toList ++ ' ' :: c :: ds).drop
          (front (word.text.toList ++ ' ' :: c :: ds)).2) (⟨.blank, [' ']⟩ :: ps) [] := by
        rw [hfront', List.drop_left]
        exact hspace
      have := Cuts.cons (by simp) hnext
      rwa [hfront', List.take_left] at this
    refine ⟨_, hall, ?_⟩
    simp [List.filterMap_cons, lexeme?, hps]

end Lexer

/-- The tokens of words with spaces between are the words. -/
theorem lex_spaced (words : List Lexeme) (h : ∀ word ∈ words, word.StandsAlone) :
    (lex (" ".intercalate (words.map (·.text)))).tokens.lexemes =
      (words ++ [(⟨.eof, ""⟩ : Lexeme)]).toArray := by
  obtain ⟨ps, hcuts, hps⟩ := Lexer.cuts_spaced words h
  rw [Lexer.lex_lexemes, String.toList_intercalate, List.map_map]
  rw [show " ".toList.intercalate (words.map (String.toList ∘ (·.text))) =
      [' '].intercalate (words.map fun word => word.text.toList) from rfl,
    ← hcuts.eq_pieces, hps]

end SolidityParser
