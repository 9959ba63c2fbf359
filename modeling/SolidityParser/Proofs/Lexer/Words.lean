import SolidityParser.Proofs.Lexer.Cut
import SolidityParser.Proofs.Production.Phrase

/-!
# Words of a source

The words of a source are the tokens among its pieces, and the end (`lex_lexemes`). No identifier
among them is spelled as a keyword is (`lex_wellSpelled`).
-/

namespace SolidityParser

namespace Lexer

variable {text rest : List Char} {ps : List Piece} {piece : Piece} {kind : Kind}

/-- The token that a piece is, without its place. -/
def lexeme? (piece : Piece) : Option Lexeme :=
  match piece.sort with
  | .token kind => some ⟨kind, String.ofList piece.text⟩
  | _ => none

/-- The word of a piece is its kind with its text. -/
theorem lexeme?_eq_some {lexeme : Lexeme} :
    lexeme? piece = some lexeme ↔
      piece.sort = .token lexeme.kind ∧ piece.text = lexeme.text.toList := by
  obtain ⟨sort, text⟩ := piece
  obtain ⟨kind, word⟩ := lexeme
  cases sort <;> simp [lexeme?, ← String.toList_inj]

/-- The words of a text are the tokens among its pieces, and the end. -/
theorem tokensFrom_lexemes (offset : Nat) (ps : List Piece) :
    (tokensFrom offset ps).map (·.toLexeme) = ps.filterMap lexeme? ++ [⟨.eof, ""⟩] := by
  induction ps generalizing offset with
  | nil => rfl
  | cons piece ps ih =>
    obtain ⟨sort, text⟩ := piece
    cases sort <;> simp [tokensFrom, List.filterMap_cons, lexeme?, ih]

/-- Pieces have at least the end for a token. -/
theorem tokensFrom_ne_nil (offset : Nat) (ps : List Piece) : tokensFrom offset ps ≠ [] := by
  intro hnone
  have hwords := tokensFrom_lexemes offset ps
  rw [hnone] at hwords
  exact absurd hwords.symm (by simp)

/-- The words of a source are those of its pieces, and the end. -/
theorem lex_lexemes (source : String) :
    (lex source).tokens.lexemes =
      ((pieces source.toList).filterMap lexeme? ++ [(⟨.eof, ""⟩ : Lexeme)]).toArray := by
  rw [← tokensFrom_lexemes 0]
  simp [lex, lexText, TokenList.lexemes]

/-- A piece stands at the front of what was left when it was cut off. -/
theorem Cuts.front (h : Cuts text ps rest) (hmem : piece ∈ ps) :
    ∃ left ≠ [], left.length ≤ text.length ∧
      piece = ⟨(Lexer.front left).1, left.take (Lexer.front left).2⟩ := by
  induction h with
  | nil => cases hmem
  | @cons text _ _ hne _ ih =>
    rcases List.mem_cons.mp hmem with rfl | hmem
    · exact ⟨text, hne, Nat.le_refl _, rfl⟩
    · obtain ⟨left, hleft, hle, hpiece⟩ := ih hmem
      rw [List.length_drop] at hle
      exact ⟨left, hleft, by omega, hpiece⟩

/-- No piece is empty, or longer than the text. -/
theorem Cuts.length_le (h : Cuts text ps rest) (hmem : piece ∈ ps) :
    0 < piece.text.length ∧ piece.text.length ≤ text.length := by
  obtain ⟨left, hne, hle, rfl⟩ := h.front hmem
  have hpos := CommentScan.front_pos hne
  have hfront := front_le hne
  rw [List.length_take]
  omega

/-- Identifiers and keywords are matched as words only. -/
theorem eq_word_of_extend {pattern : Pattern} {length : Nat} (hmem : pattern ∈ Pattern.all)
    (h : (extend pattern length text).1 = .token kind)
    (hk : kind = .ident ∨ kind = .kwPayable ∨ kind = .kwType) : pattern = .word := by
  unfold extend at h
  cases pattern with
  | word => rfl
  | blank | lineComment => cases h
  | blockComment =>
    dsimp only at h
    split at h <;> cases h
    simp at hk
  | quote sort mark =>
    dsimp only at h
    split at h <;> cases h
    · cases sort <;> simp [stringToken] at hk
    · simp at hk
  | number | hexNumber =>
    cases h
    simp at hk
  | symbol symbol =>
    cases h
    have hsymbol : kind ∈ Kind.symbols := by simpa [Pattern.all] using hmem
    rcases hk with rfl | rfl | rfl <;> exact absurd hsymbol (by decide)

/-- A token that is a word, or a keyword that may be called, is of the kind of its text. -/
theorem ofWord_of_front (h : (Lexer.front text).1 = .token kind)
    (hk : kind = .ident ∨ kind = .kwPayable ∨ kind = .kwType) :
    Kind.ofWord (String.ofList (text.take (Lexer.front text).2)) = kind := by
  unfold Lexer.front at h ⊢
  split at h
  · next pattern length hfound =>
    obtain rfl := eq_word_of_extend (Pattern.longest?_eq_some hfound).1 h hk
    exact PieceSort.token.inj h
  · cases h
    simp at hk

/-- A word is an identifier or a keyword. -/
theorem ofWord_cases (word : String) :
    Kind.ofWord word = .ident ∨ Kind.ofWord word ∈ Kind.keywords := by
  unfold Kind.ofWord Kind.ofKeyword?
  cases h : Kind.keywords.find? (·.text == word) with
  | none => exact .inl rfl
  | some kind => exact .inr (List.mem_of_find?_eq_some h)

/-- No piece is the end of the input. -/
theorem ne_eof_of_front (h : (Lexer.front text).1 = .token kind) : kind ≠ .eof := by
  unfold Lexer.front at h
  split at h
  · next pattern length hfound =>
    have hmem := (Pattern.longest?_eq_some hfound).1
    unfold extend at h
    cases pattern with
    | blank | lineComment => cases h
    | blockComment | quote =>
      dsimp only at h
      split at h <;> cases h
      all_goals first | decide | (unfold stringToken; split <;> decide)
    | number | hexNumber => cases h <;> decide
    | word =>
      cases h
      intro heof
      rcases ofWord_cases (String.ofList (text.take length)) with h | h <;> rw [heof] at h
      · cases h
      · exact absurd h (by decide)
    | symbol symbol =>
      cases h
      rintro rfl
      exact absurd hmem (by decide)
  · cases h
    decide

end Lexer

namespace Lexemes

variable {lexemes : Lexemes}

/-- What holds of every word, and of the end, holds at every index. -/
theorem lexemeAt_of_forall {P : Lexeme → Prop} (h : ∀ lexeme ∈ lexemes, P lexeme)
    (hend : P ⟨.eof, ""⟩) (index : Nat) : P (lexemes.lexemeAt index) := by
  unfold lexemeAt kindAt textAt
  by_cases hlt : index < lexemes.size
  · simp only [dif_pos hlt]
    exact h _ (Array.getElem_mem hlt)
  · simpa only [dif_neg hlt] using hend

end Lexemes

/-- Identifiers of a source are spelled as no keyword is. -/
theorem lex_wellSpelled (source : String) : (lex source).tokens.lexemes.WellSpelled := by
  intro i
  refine Lexemes.lexemeAt_of_forall (P := fun lexeme =>
    lexeme.kind = .ident ∨ lexeme.kind = .kwPayable ∨ lexeme.kind = .kwType →
      Kind.ofWord lexeme.text = lexeme.kind) (fun lexeme hmem => ?_) (by decide) i
  rw [Lexer.lex_lexemes] at hmem
  rcases List.mem_append.mp (List.mem_toArray.mp hmem) with hmem | hmem
  · obtain ⟨piece, hpiece, hlexeme⟩ := List.mem_filterMap.mp hmem
    obtain ⟨left, -, -, rfl⟩ := (Lexer.cuts_pieces source.toList).front hpiece
    obtain ⟨hsort, htext⟩ := Lexer.lexeme?_eq_some.mp hlexeme
    intro hk
    have hword := Lexer.ofWord_of_front hsort hk
    dsimp only at htext
    rwa [htext, String.ofList_toList] at hword
  · obtain rfl := List.mem_singleton.mp hmem
    decide

end SolidityParser
