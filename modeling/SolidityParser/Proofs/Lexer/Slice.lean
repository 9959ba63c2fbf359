import SolidityParser.Proofs.Lexer.Places
import SolidityParser.Proofs.Text

/-!
# Lexing a part of a source

What stands between the start of one token and the end of another has the tokens by itself that the
source has there, but for their places, which begin anew (`lex_slice`).
-/

namespace SolidityParser

/-- The span with both ends moved by so many bytes. -/
def Span.shift (offset : Nat) (span : Span) : Span := ⟨span.start + offset, span.stop + offset⟩

/-- The token moved by so many bytes. -/
def Token.shift (offset : Nat) (token : Token) : Token :=
  { token with span := token.span.shift offset }

namespace Lexer

open Text (byteLength)

variable {ps qs left right : List Piece} {piece : Piece} {offset i j k n : Nat}

/-! ### Tokens of pieces -/

/-- How many of the pieces are tokens. -/
def tokenCount (ps : List Piece) : Nat := (ps.filterMap lexeme?).length

@[simp] theorem tokenCount_append : tokenCount (ps ++ qs) = tokenCount ps + tokenCount qs := by
  simp [tokenCount]

/-- A piece adds one token or none. -/
theorem tokenCount_cons :
    tokenCount (piece :: ps) = (lexeme? piece).toList.length + tokenCount ps := by
  simp only [tokenCount, List.filterMap_cons]
  cases lexeme? piece <;> simp [Nat.add_comm]

/-- The token of a piece that stands at an offset, if it is one. -/
def token? (offset : Nat) (piece : Piece) : Option Token :=
  (lexeme? piece).map fun lexeme => ⟨lexeme, ⟨offset, offset + byteLength piece.text⟩⟩

/-- The tokens of pieces are the one in front, if it is one, and those after it. -/
theorem tokensFrom_cons : tokensFrom offset (piece :: ps) =
    (token? offset piece).toList ++ tokensFrom (offset + byteLength piece.text) ps := by
  obtain ⟨sort, text⟩ := piece
  cases sort <;> rfl

/-- The tokens of pieces, without the end. -/
def body (offset : Nat) (ps : List Piece) : List Token := (tokensFrom offset ps).dropLast

/-- So they are without the end. -/
theorem body_cons : body offset (piece :: ps) =
    (token? offset piece).toList ++ body (offset + byteLength piece.text) ps := by
  rw [body, tokensFrom_cons, List.dropLast_append_of_ne_nil (tokensFrom_ne_nil _ _)]
  rfl

@[simp] theorem length_body : (body offset ps).length = tokenCount ps := by
  induction ps generalizing offset with
  | nil => rfl
  | cons piece ps ih =>
    rw [body_cons, List.length_append, ih, tokenCount_cons, token?]
    cases lexeme? piece <;> rfl

/-- Of two lists of pieces, the tokens of the second come after those of the first. -/
theorem tokensFrom_append : tokensFrom offset (ps ++ qs) =
    body offset ps ++ tokensFrom (offset + byteLength (ps.flatMap (·.text))) qs := by
  induction ps generalizing offset with
  | nil => rfl
  | cons piece ps ih =>
    rw [List.cons_append, tokensFrom_cons, ih, body_cons, List.flatMap_cons,
      Text.byteLength_append, List.append_assoc, Nat.add_assoc]

/-- Before the end, the tokens with and without it are the same. -/
theorem body_getElem? (h : n < tokenCount ps) :
    (body offset ps)[n]? = (tokensFrom offset ps)[n]? := by
  have hall := @tokensFrom_append ps [] offset
  rw [List.append_nil] at hall
  rw [hall, List.getElem?_append_left (by rwa [length_body])]

/-- The tokens of the first do not depend on the second. -/
theorem tokensFrom_append_getElem? (h : n < tokenCount ps) :
    (tokensFrom offset (ps ++ qs))[n]? = (tokensFrom offset ps)[n]? := by
  rw [tokensFrom_append, List.getElem?_append_left (by rwa [length_body]), body_getElem? h]

/-- Pieces that stand further on have their tokens further on. -/
theorem tokensFrom_shift (offset distance : Nat) (ps : List Piece) :
    tokensFrom (offset + distance) ps = (tokensFrom offset ps).map (·.shift distance) := by
  induction ps generalizing offset with
  | nil => rfl
  | cons piece ps ih =>
    have htoken : token? (offset + distance) piece =
        (token? offset piece).map (·.shift distance) := by
      rw [token?, token?, Option.map_map, Nat.add_right_comm]
      rfl
    rw [tokensFrom_cons, tokensFrom_cons, htoken, Nat.add_right_comm, ih, List.map_append,
      Option.toList_map]

/-- The token that is a piece. -/
theorem tokensFrom_getElem? {kind : Kind} (hsort : piece.sort = .token kind) :
    (tokensFrom offset (left ++ piece :: right))[tokenCount left]? =
      some ⟨⟨kind, String.ofList piece.text⟩, ⟨offset + byteLength (left.flatMap (·.text)),
        offset + byteLength (left.flatMap (·.text)) + byteLength piece.text⟩⟩ := by
  rw [tokensFrom_append, List.getElem?_append_right (by simp), length_body, Nat.sub_self,
    tokensFrom_cons, token?, lexeme?, hsort]
  rfl

/-- The piece that is a token. -/
theorem exists_piece (h : i < tokenCount ps) : ∃ left piece right kind,
    ps = left ++ piece :: right ∧ tokenCount left = i ∧ piece.sort = .token kind := by
  induction ps generalizing i with
  | nil => cases h
  | cons first ps ih =>
    rw [tokenCount_cons] at h
    have later {n : Nat} (hfirst : (lexeme? first).toList.length = n) (hle : n ≤ i) :
        ∃ left piece right kind, first :: ps = left ++ piece :: right ∧ tokenCount left = i ∧
          piece.sort = .token kind := by
      obtain ⟨left, piece, right, kind, rfl, hcount, hpiece⟩ := @ih (i - n) (by omega)
      exact ⟨first :: left, piece, right, kind, rfl, by rw [tokenCount_cons]; omega, hpiece⟩
    cases hsort : first.sort with
    | token kind =>
      cases i with
      | zero => exact ⟨[], first, ps, kind, rfl, rfl, hsort⟩
      | succ i => exact later (by rw [lexeme?, hsort]; rfl) (Nat.succ_le_succ (Nat.zero_le i))
    | _ => exact later (by rw [lexeme?, hsort]; rfl) (Nat.zero_le i)

/-- The pieces from one token to another. -/
theorem exists_pieces (hij : i < j) (hj : j ≤ tokenCount ps) : ∃ left middle right,
    ps = left ++ (middle ++ right) ∧ tokenCount left = i ∧ tokenCount middle = j - i ∧
      (∃ t, (tokensFrom 0 ps)[i]? = some t ∧ t.span.start = byteLength (left.flatMap (·.text))) ∧
      ∃ t, (tokensFrom 0 ps)[j - 1]? = some t ∧
        t.span.stop = byteLength (left.flatMap (·.text)) + byteLength (middle.flatMap (·.text)) := by
  obtain ⟨front, last, right, kind, rfl, hfront, hlast⟩ := @exists_piece ps (j - 1) (by omega)
  have hcount : tokenCount (front ++ [last]) = j := by
    simp [tokenCount, lexeme?, hlast] at hfront ⊢
    omega
  obtain ⟨left, first, rest, kind', heq, hleft, hfirst⟩ :=
    @exists_piece (front ++ [last]) i (by omega)
  have hstop := @tokensFrom_getElem? front right last 0 kind hlast
  have hstart := @tokensFrom_getElem? left (rest ++ right) first 0 kind' hfirst
  have hall : front ++ last :: right = left ++ first :: (rest ++ right) := by
    rw [List.append_cons, heq, List.append_assoc]
    rfl
  have hbytes := congrArg (fun ps => byteLength (ps.flatMap (·.text))) heq
  have hcount' := (hcount.symm.trans (congrArg tokenCount heq)).trans tokenCount_append
  simp only [List.flatMap_append, List.flatMap_singleton, Text.byteLength_append] at hbytes
  rw [← hall, hleft] at hstart
  rw [hfront] at hstop
  refine ⟨left, first :: rest, right, hall, hleft, by omega, ⟨_, hstart, Nat.zero_add _⟩,
    ⟨_, hstop, ?_⟩⟩
  dsimp only
  omega

/-! ### Tokens of texts -/

/-- The tokens of a text are those of its pieces. -/
theorem lexText_get? (text : List Char) (n : Nat) :
    (lexText text).tokens.get? n = (tokensFrom 0 (pieces text))[n]? := by
  rw [TokenList.get?, ← List.getElem?_toArray]
  rfl

/-- There is one for each piece that is a token, and the end. -/
theorem lexText_size (text : List Char) :
    (lexText text).tokens.size = tokenCount (pieces text) + 1 := by
  have hsize : (lexText text).tokens.size = (tokensFrom 0 (pieces text)).length := List.size_toArray
  have hpos := List.length_pos_iff.mpr (tokensFrom_ne_nil 0 (pieces text))
  rw [hsize, ← @length_body _ 0, body, List.length_dropLast]
  omega

end Lexer

open Text (byteLength)

/-- What stands between the starts of tokens and their ends has them for its tokens. -/
theorem lex_slice {source : String} {i j : Nat} (hij : i < j) (hj : j < (lex source).tokens.size) :
    ∃ before middle after, source.toList = before ++ (middle ++ after) ∧
      (∃ t, (lex source).tokens.get? i = some t ∧ t.span.start = byteLength before) ∧
      (∃ t, (lex source).tokens.get? (j - 1) = some t ∧
        t.span.stop = byteLength before + byteLength middle) ∧
      (lex (String.ofList middle)).tokens.size = j - i + 1 ∧
      ∀ n < j - i, (lex source).tokens.get? (i + n) =
        ((lex (String.ofList middle)).tokens.get? n).map (·.shift (byteLength before)) := by
  rw [lex, Lexer.lexText_size] at hj
  obtain ⟨left, middle, right, hpieces, hleft, hmiddle, hstart, hstop⟩ :=
    Lexer.exists_pieces hij (Nat.le_of_lt_succ hj)
  have hslice : Lexer.pieces (middle.flatMap (·.text)) = middle :=
    Lexer.pieces_flatMap (by rw [hpieces, List.append_assoc])
  have htext := (Lexer.cuts_pieces source.toList).text_eq
  rw [hpieces, List.append_nil, List.flatMap_append, List.flatMap_append] at htext
  refine ⟨_, _, _, htext, ?_, ?_, ?_, fun n hn => ?_⟩
  · rwa [lex, Lexer.lexText_get?]
  · rwa [lex, Lexer.lexText_get?]
  · rw [lex, String.toList_ofList, Lexer.lexText_size, hslice, hmiddle]
  · rw [lex, lex, String.toList_ofList, Lexer.lexText_get?, Lexer.lexText_get?, hslice, hpieces,
      Lexer.tokensFrom_append, List.getElem?_append_right (by simp [hleft]), Lexer.length_body,
      hleft, Nat.add_sub_cancel_left, Lexer.tokensFrom_shift, List.getElem?_map,
      Lexer.tokensFrom_append_getElem? (by omega)]

end SolidityParser
