import SolidityParser.Proofs.Lexer.Blank
import SolidityParser.Proofs.Lexer.Delimiter
import SolidityParser.Proofs.Lexer.Slice

/-!
# Lexing one source after another

A piece that is no error ends before a line feed, or is blank (`front_append_newline`). So two
sources with a line feed between them have the tokens of both, if those of the first are no errors
(`lex_join`). An error may go on: an open string or block comment would take up what comes next.
-/

namespace SolidityParser

namespace Lexer

open Pattern (isBlank)
open Text (byteLength)

variable {text rest : List Char} {c : Char} {offset : Nat}

/-- A piece that is no error and does not begin with a blank does not go on after a line feed. -/
theorem front_append_newline (hc : isBlank c = false)
    (hsort : (front (c :: text)).1 ≠ .token .error) (rest : List Char) :
    front (c :: text ++ '\n' :: rest) = front (c :: text) := by
  have hlongest : Pattern.longest? (c :: text) = Pattern.longest? (c :: text ++ '\n' :: rest) :=
    longest?_append_blank hc fun d hd => by cases hd; rfl
  unfold front at hsort ⊢
  rw [← hlongest]
  cases hfound : Pattern.longest? (c :: text) with
  | none => exact absurd (by rw [hfound]) hsort
  | some found =>
    obtain ⟨pattern, length⟩ := found
    rw [hfound] at hsort
    have hle : length ≤ (c :: text).length := longest?_le hfound
    unfold extend at hsort ⊢
    dsimp only at hsort ⊢
    rw [List.drop_append_of_le_length hle]
    generalize (c :: text).drop length = body at hsort ⊢
    cases pattern with
    | blank | number | hexNumber | symbol => rfl
    | word => rw [List.take_append_of_le_length hle]
    | lineComment =>
      have hend : Delimiter.lineCommentEnd (body ++ '\n' :: rest) =
          Delimiter.lineCommentEnd body := by
        have hnone : List.takeWhile (!Delimiter.isLineEnd ·) ('\n' :: rest) = [] := rfl
        unfold Delimiter.lineCommentEnd
        rw [List.takeWhile_append, hnone, List.append_nil]
        split
        · next hall => exact hall.symm
        · rfl
      dsimp only
      rw [hend]
    | blockComment =>
      dsimp only at hsort ⊢
      cases hend : Delimiter.blockCommentEnd? body with
      | none => exact absurd (by rw [hend]) hsort
      | some length =>
        obtain ⟨inner, after, rfl, rfl, hinner⟩ := Delimiter.blockCommentEnd?_eq_some hend
        rw [List.append_assoc, List.cons_append, List.cons_append,
          Delimiter.blockCommentEnd?_append_of hinner]
    | quote kind mark =>
      dsimp only at hsort ⊢
      cases hend : Delimiter.stringEnd? mark body with
      | none => exact absurd (by rw [hend]) hsort
      | some length => rw [(Delimiter.stringEnd?_append.mp hend).1]

/-- A blank at the front of a text is no token, nor part of one. -/
theorem tokensFrom_pieces_blank (hc : isBlank c = true) :
    tokensFrom offset (pieces (c :: text)) = tokensFrom (offset + c.utf8Size) (pieces text) := by
  rw [pieces_cons (List.cons_ne_nil c text), front_of_isBlank hc, tokensFrom_cons]
  cases text with
  | nil => rfl
  | cons d text =>
    cases hd : isBlank d with
    | false => simp [token?, lexeme?, hd, byteLength]
    | true =>
      rw [pieces_cons (List.cons_ne_nil d text), front_of_isBlank hd, tokensFrom_cons]
      simp [token?, lexeme?, hd, byteLength, Nat.add_assoc]

/-- Two texts with a line feed between them have the tokens of both. -/
theorem tokensFrom_pieces_join (rest : List Char) : (text : List Char) → (offset : Nat) →
    (∀ t ∈ tokensFrom offset (pieces text), t.kind ≠ .error) →
      tokensFrom offset (pieces (text ++ '\n' :: rest)) =
        body offset (pieces text) ++ tokensFrom (offset + byteLength text + 1) (pieces rest)
  | [], offset, _ => tokensFrom_pieces_blank rfl
  | c :: text, offset, h => by
    cases hc : isBlank c with
    | true =>
      rw [tokensFrom_pieces_blank hc] at h
      rw [List.cons_append, tokensFrom_pieces_blank hc, tokensFrom_pieces_join rest text _ h, body,
        body, tokensFrom_pieces_blank hc, byteLength, Nat.add_assoc offset]
    | false =>
      have hpieces := pieces_cons (List.cons_ne_nil c text)
      have hle := front_le (List.cons_ne_nil c text)
      have hpos := CommentScan.front_pos (List.cons_ne_nil c text)
      rw [hpieces, tokensFrom_cons] at h
      have hsort : (front (c :: text)).1 ≠ .token .error := by
        intro hsort
        have htoken : token? offset ⟨.token .error, (c :: text).take (front (c :: text)).2⟩ =
            some ⟨⟨.error, String.ofList ((c :: text).take (front (c :: text)).2)⟩,
              ⟨offset, offset + byteLength ((c :: text).take (front (c :: text)).2)⟩⟩ := rfl
        rw [hsort, htoken] at h
        exact h _ (List.mem_cons_self ..) rfl
      have hfront := front_append_newline hc hsort rest
      have hbytes := congrArg byteLength (List.take_append_drop (front (c :: text)).2 (c :: text))
      rw [Text.byteLength_append] at hbytes
      rw [pieces_cons (by simp), hfront, List.take_append_of_le_length hle,
        List.drop_append_of_le_length hle, tokensFrom_cons, hpieces, body_cons,
        tokensFrom_pieces_join rest _ _ fun t ht => h t (List.mem_append_right _ ht),
        List.append_assoc, ← hbytes, Nat.add_assoc offset]
termination_by text => text.length
decreasing_by all_goals
  simp only [List.length_cons, List.length_drop]
  omega

end Lexer

open Text (byteLength)

/-- A source with another one after a line feed has the tokens of both, if those of the first are no
errors. -/
theorem lex_join {source other : String} {last : Nat}
    (h : ∀ n, (lex source).tokens.lexemes.kindAt n ≠ .error)
    (hlast : last + 1 = (lex source).tokens.size) :
    (∀ n < last, (lex (source ++ "\n" ++ other)).tokens.get? n = (lex source).tokens.get? n) ∧
      ∀ n, (lex (source ++ "\n" ++ other)).tokens.get? (last + n) =
        ((lex other).tokens.get? n).map (·.shift (byteLength source.toList + 1)) := by
  have htext : (source ++ "\n" ++ other).toList = source.toList ++ '\n' :: other.toList := by simp
  have herror : ∀ t ∈ Lexer.tokensFrom 0 (Lexer.pieces source.toList), t.kind ≠ .error := by
    intro t ht hkind
    obtain ⟨n, hn⟩ := List.getElem?_of_mem ht
    rw [← Lexer.lexText_get?] at hn
    exact h n ((TokenList.kindAt_lexemes hn).trans hkind)
  have hjoin := Lexer.tokensFrom_pieces_join other.toList source.toList 0 herror
  have hcount : Lexer.tokenCount (Lexer.pieces source.toList) = last :=
    Nat.succ.inj ((Lexer.lexText_size _).symm.trans hlast.symm)
  constructor
  · intro n hn
    rw [lex, lex, htext, Lexer.lexText_get?, Lexer.lexText_get?, hjoin,
      List.getElem?_append_left (by rwa [Lexer.length_body, hcount]),
      Lexer.body_getElem? (by rwa [hcount])]
  · intro n
    rw [lex, lex, htext, Lexer.lexText_get?, Lexer.lexText_get?, hjoin,
      List.getElem?_append_right (by rw [Lexer.length_body]; omega), Lexer.length_body, hcount,
      Nat.add_sub_cancel_left, Nat.add_assoc, Lexer.tokensFrom_shift, List.getElem?_map]

end SolidityParser
