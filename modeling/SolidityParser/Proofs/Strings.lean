import Mathlib
import SolidityParser.Proofs.Complete.Whole
import SolidityParser.Proofs.Literal.Quoted
import SolidityParser.Proofs.Production.Lead
import SolidityParser.Proofs.Spans

/-!
# String literals and the tokens they are made of

**Theorem** (`Source.parseExpression_strings`): each string literal in an expression that a source
parses to is made of a maximal run of adjacent string tokens, and its text is what they stand for,
one after the other. Its kind is that of the first token. The others may be of any kind: a literal
whose tokens differ in kind is accepted (`Source.parseExpression_strings_mixed`), although a literal
is said to be made of strings of one kind.
-/

namespace SolidityParser

/-! ### Runs of strings -/

/-- A literal is made of the tokens from one index up to another, which are a maximal run of
strings. -/
structure TokenList.StringRun (list : TokenList) (i j : Nat) (span : Span) (value : String)
    (kind : StringKind) : Prop where
  /-- The literal covers the tokens. -/
  runs : list.Runs i span j
  /-- They are strings. -/
  strings : ∀ n, i ≤ n → n < j → (list.kind n).isString = true
  /-- No string stands before them. -/
  before : ∀ n, n + 1 = i → (list.kind n).isString = false
  /-- No string stands after them. -/
  after : (list.kind j).isString = false
  /-- The literal is of the kind of the first. -/
  kind_eq : list.kind i = Lexer.stringToken kind
  /-- Its text is that of all of them. -/
  value_eq : value = String.join ((List.range' i (j - i)).map fun n => Quoted.valueOf (list.text n))

/-- If the part is a string literal, it is made of a maximal run of strings. -/
def Part.IsStringRun (list : TokenList) (part : Part .located) : Prop :=
  ∀ span value kind, part = .expression (.string span value kind) →
    ∃ i j, list.StringRun i j span value kind

namespace Lexemes

variable {lexemes : Lexemes} {i j : Nat} {words : List Lexeme}

/-- Words that are spelled stand one after the other. -/
theorem spells_words (h : lexemes.Spells i (words.map fun word => .word word.kind word.text) j) :
    j = i + words.length ∧ (List.range' i words.length).map lexemes.lexemeAt = words := by
  induction words generalizing i with
  | nil => exact ⟨h.symm, rfl⟩
  | cons word words ih =>
    obtain ⟨⟨-, hkind, htext⟩, hrest⟩ := h
    obtain ⟨rfl, hwords⟩ := ih hrest
    have hword : lexemes.lexemeAt i = word := by rw [lexemeAt, hkind, htext]
    refine ⟨by rw [List.length_cons]; omega, ?_⟩
    rw [List.length_cons, List.range'_succ, List.map_cons, hword, hwords]

end Lexemes

/-- Texts put together from the left. -/
theorem Quoted.foldl_eq_join (first : Lexeme) (more : List Lexeme) :
    more.foldl (fun value word => value ++ valueOf word.text) (valueOf first.text) =
      String.join ((first :: more).map fun word => valueOf word.text) := by
  rw [List.map_cons, String.join, List.foldl_cons, String.empty_append, List.foldl_map]

/-! ### Literals -/

namespace Lexemes

variable {lexemes : Lexemes} {place : Extent} {value : String} {kind : StringKind}

/-- A literal holds all strings up to a token that is none. -/
theorem Holds.string (h : lexemes.Holds (.expression (.string place value kind))) :
    (∀ n, place.first ≤ n → n < place.next → (lexemes.kindAt n).isString = true) ∧
      (lexemes.kindAt place.next).isString = false ∧
      kind = Quoted.kindOf (lexemes.textAt place.first) ∧
      value = String.join ((List.range' place.first (place.next - place.first)).map fun n =>
        Quoted.valueOf (lexemes.textAt n)) := by
  obtain ⟨-, symbols, hphrased, hspells⟩ := h
  cases hphrased with
  | @string _ first more hstrings =>
    obtain ⟨k, hwords, hahead, hend⟩ := spells_append.mp hspells
    change k = place.next at hend
    obtain ⟨hnext, hrange⟩ := spells_words hwords
    change k = place.first + _ at hnext
    change (List.range' place.first _).map lexemes.lexemeAt = _ at hrange
    rw [ahead_string, Bool.not_eq_true, hend] at hahead
    rw [show (first :: more).length = place.next - place.first by omega] at hrange
    refine ⟨fun n hn hlt => ?_, hahead, ?_, ?_⟩
    · have hmem : lexemes.lexemeAt n ∈ first :: more := by
        rw [← hrange]
        exact List.mem_map_of_mem (List.mem_range'_1.mpr ⟨hn, by omega⟩)
      exact hstrings _ hmem
    · have hfirst : lexemes.lexemeAt place.first = first := by
        obtain ⟨⟨-, hkind, htext⟩, -⟩ := hwords
        exact congrArg₂ Lexeme.mk hkind htext
      rw [← hfirst]
      rfl
    · rw [Quoted.foldl_eq_join, ← hrange, List.map_map]
      rfl

end Lexemes

/-- The text at an index is what the grammar sees there. -/
theorem TokenList.text_eq {list : TokenList} {i : Nat} (h : i < list.size) :
    list.text i = list.lexemes.textAt i := by
  change i < list.tokens.size at h
  simp [text, get?, lexemes, Lexemes.textAt, h]

namespace Source

/-- A literal that the grammar reads is made of a run of strings, unless there is one before it. -/
theorem stringRun_of_holds {source : String} {place : Extent} {value : String} {kind : StringKind}
    (h : (lex source).tokens.lexemes.Holds (.expression (.string place value kind)))
    (hleads : (lex source).tokens.lexemes.Leads place.first) :
    (lex source).tokens.StringRun place.first place.next ((layout source).span place) value
      kind := by
  have hruns : (lex source).tokens.Runs place.first ((layout source).span place) place.next :=
    @Layout.runs_span (layout source) _ _ (lex_placed source) h.covers
  obtain ⟨hstrings, hafter, rfl, rfl⟩ := h.string
  have hlt := hruns.lt
  have hsize := hruns.next_lt
  have hkind := (lex source).tokens.kind_eq
  refine ⟨hruns, fun n hn hn' => hkind n ▸ hstrings n hn hn',
    fun n hn => hkind n ▸ hleads n hn, hkind _ ▸ hafter, ?_, ?_⟩
  · obtain ⟨token, htoken⟩ :=
      (lex source).tokens.exists_get? (show place.first < (lex source).tokens.size by omega)
    have hfirst := hstrings place.first (Nat.le_refl _) hlt
    rw [TokenList.kindAt_lexemes htoken] at hfirst
    have hmem : token ∈ (lex source).tokens.tokens.toList := by
      exact Array.mem_toList_iff.mpr (Array.mem_of_getElem? htoken)
    have htext : (lex source).tokens.lexemes.textAt place.first = token.text := by
      rw [← TokenList.text_eq (by omega), TokenList.text, htoken]
    rw [hkind, TokenList.kindAt_lexemes htoken, htext]
    exact Quoted.kind_eq_of_mem_lex hmem hfirst
  · refine congrArg String.join (List.map_congr_left fun n hn => ?_)
    have hn := List.mem_range'_1.mp hn
    rw [TokenList.text_eq (by omega)]

/-- Each string literal in an expression is made of a maximal run of string tokens. -/
theorem parseExpression_strings {source : String} {e : Expression Span}
    (h : parseExpression source = .ok e) :
    (Part.expression e : Part .located).All (Part.IsStringRun (lex source).tokens) := by
  obtain ⟨-, v, n, hphrase, -, -, rfl⟩ := parseExpression_eq_ok_iff.mp h
  have hp : (lex source).tokens.Placed _ := lex_placed source
  show ((Part.expression v).relocate (layout source).relocation).All _
  refine (Part.all_relocate _).mpr fun part hpart span value kind hliteral => ?_
  obtain ⟨place, rfl, rfl⟩ : ∃ place, part = .expression (.string place value kind) ∧
      span = (layout source).span place := by
    cases part with
    | expression e =>
      cases e <;> cases hliteral
      exact ⟨_, rfl, rfl⟩
    | _ => cases hliteral
  have hfirst : (lex source).tokens.lexemes.Leads v.place.first := by
    rw [show v.place = ⟨0, n⟩ from hphrase.place]
    exact nofun
  exact ⟨_, _, stringRun_of_holds (hphrase.holds _ hpart)
    (Lexemes.leads_of_within hphrase.holds trivial hfirst hpart)⟩

/-- Three tokens make one literal, and another stands in brackets. -/
theorem parseExpression_strings_three :
    parseExpression "f['x'](\"a\" \"\\n\"'b')" = .ok (.call ⟨0, 19⟩
        (.index ⟨0, 6⟩ (.identifier ⟨0, 1⟩ "f") (some (.string ⟨2, 5⟩ "x" .plain)))
        (.positional [.string ⟨7, 18⟩ "a\nb" .plain])) ∧
      (Part.expression (.call ⟨0, 19⟩
        (.index ⟨0, 6⟩ (.identifier ⟨0, 1⟩ "f") (some (.string ⟨2, 5⟩ "x" .plain)))
        (.positional [.string ⟨7, 18⟩ "a\nb" .plain])) : Part .located).All
          (Part.IsStringRun (lex "f['x'](\"a\" \"\\n\"'b')").tokens) := by
  have h : parseExpression "f['x'](\"a\" \"\\n\"'b')" = .ok (.call ⟨0, 19⟩
        (.index ⟨0, 6⟩ (.identifier ⟨0, 1⟩ "f") (some (.string ⟨2, 5⟩ "x" .plain)))
        (.positional [.string ⟨7, 18⟩ "a\nb" .plain])) := by
    rw [parseExpression, read_ofList_of_le (by decide)]
    cbv
  exact ⟨h, parseExpression_strings h⟩

/-- The second token is a hexadecimal string, and the literal is plain. -/
theorem parseExpression_strings_mixed :
    parseExpression "\"a\" hex\"00\"" = .ok (.string ⟨0, 11⟩ "a00" .plain) ∧
      ¬ ∃ i j, (lex "\"a\" hex\"00\"").tokens.StringRun i j ⟨0, 11⟩ "a00" .plain ∧
        ∀ n, i ≤ n → n < j → (lex "\"a\" hex\"00\"").tokens.kind n = .string := by
  have hread : parseExpression "\"a\" hex\"00\"" = .ok (.string ⟨0, 11⟩ "a00" .plain) := by
    rw [parseExpression, read_ofList_of_le (by decide)]
    cbv
  refine ⟨hread, ?_⟩
  rintro ⟨i, j, hrun, hall⟩
  have hsize : (lex "\"a\" hex\"00\"").tokens.size = 3 := by decide +kernel
  have hsecond : (lex "\"a\" hex\"00\"").tokens.kind 1 = .hexString := by decide +kernel
  have hlt := hrun.runs.lt
  have hnext := hrun.runs.next_lt
  -- the run does not end before the second token, nor go over it
  obtain rfl | rfl : j = 1 ∨ j = 2 := by omega
  · have hafter := hrun.after
    rw [hsecond] at hafter
    cases hafter
  · have hkind := hall 1 (by omega) (by omega)
    rw [hsecond] at hkind
    cases hkind

end Source

end SolidityParser
