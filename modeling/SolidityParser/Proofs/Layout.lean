import SolidityParser.Proofs.Lexer.Dispatch
import SolidityParser.Proofs.Lexer.Words
import SolidityParser.Proofs.Reading
import SolidityParser.Proofs.Tree.Relocation

/-!
# Layout changes no tree

**Theorem** (`Source.parse_sameWords`): two sources whose tokens are alike in kind and spelling, and
neither of which is too long, parse alike. Either both have the same tree, but for the places in it
and the passages that the grammar leaves unread, or both fail with one message at the same token.

The grammar reads `Lexemes`, which hold kinds and spellings only, so the two readings are one. What
is left to show is that placing a tree in either source and then forgetting places and passages
comes to the same, and that a failure past the last token is reported at the last.
-/

namespace SolidityParser

/-! ### Placing and forgetting -/

/-- A tree placed in a source is the same tree when places and passages are forgotten. -/
theorem Layout.forget_program (layout : Layout) (units : List (SourceUnit .parsed)) :
    (layout.program units).body.map (·.relocate (.forget .located)) =
      units.map (·.relocate (.forget .parsed)) := by
  simp only [Layout.program, List.map_map]
  exact List.map_congr_left fun unit _ =>
    SourceUnit.relocate_relocate layout.relocation (.forget .located) unit

/-! ### The token of a failure -/

/-- The tokens of a text include the one that closes it. -/
theorem lex_size_pos (source : String) : 0 < (lex source).tokens.size :=
  List.length_pos_iff.mpr (Lexer.tokensFrom_ne_nil 0 (Lexer.pieces source.toList))

namespace TokenList

variable {list : TokenList}

/-- The index of the token that stands for an index: past the end, that of the last token. -/
def clamp (list : TokenList) (index : Nat) : Nat := min index (list.size - 1)

theorem get?_clamp (h : 0 < list.size) (index : Nat) :
    ∃ token, list.get? (list.clamp index) = some token ∧ list.span index = token.span := by
  have hlt : list.clamp index < list.tokens.size := by
    unfold clamp size at *
    omega
  refine ⟨list.tokens[list.clamp index], Array.getElem?_eq_getElem hlt, ?_⟩
  unfold span get?
  by_cases hi : index < list.tokens.size
  · have hclamp : list.clamp index = index := by
      unfold clamp size
      omega
    simp only [Array.getElem?_eq_getElem hi, hclamp]
  · have hclamp : list.clamp index = list.tokens.size - 1 := by
      unfold clamp size
      omega
    simp only [Array.getElem?_eq_none (Nat.le_of_not_lt hi), hclamp, Array.back?_eq_getElem?]
    rw [Array.getElem?_eq_getElem (by omega)]
    rfl

end TokenList

/-! ### Two sources with the same words -/

namespace Source

/-- The tokens of two sources are alike in kind and spelling; blank text and comments may differ. -/
def SameWords (left right : String) : Prop :=
  (lex left).tokens.lexemes = (lex right).tokens.lexemes

/-- What two sources parse to is the same, but for how they are laid out. -/
inductive SameResult (left right : String) :
    Except SyntaxError Program → Except SyntaxError Program → Prop
  /-- Both have a tree: the same, but for places, the values of pragmas and the bodies of assembly
  blocks. -/
  | trees {p q : Program}
      (body : p.body.map (·.relocate (.forget .located)) =
        q.body.map (·.relocate (.forget .located))) : SameResult left right (.ok p) (.ok q)
  /-- Both fail: with one message, and where the tokens of one index begin. -/
  | failures {e f : SyntaxError} {index : Nat} {s t : Token} (message : e.message = f.message)
      (hs : (lex left).tokens.get? index = some s) (ht : (lex right).tokens.get? index = some t)
      (he : e.location = (LineTable.ofText left.toList).locate s.span.start)
      (hf : f.location = (LineTable.ofText right.toList).locate t.span.start) :
      SameResult left right (.error e) (.error f)

/-- Sources with the same words that are not too long parse alike, in either mode. -/
theorem parse_sameWords {left right : String} (hleft : WithinLimit left)
    (hright : WithinLimit right) (h : SameWords left right) (tolerant : Bool) :
    SameResult left right (parse left tolerant) (parse right tolerant) := by
  unfold SameWords at h
  unfold parse
  rw [read_of_withinLimit hleft, read_of_withinLimit hright]
  simp only [layout, h]
  cases Grammar.parseUnits (lex right).tokens.lexemes tolerant with
  | ok units =>
    refine .trees ?_
    rw [Layout.forget_program, Layout.forget_program]
  | error failure =>
    have hsize : (lex left).tokens.size = (lex right).tokens.size := by
      simpa [TokenList.lexemes, TokenList.size] using congrArg Array.size h
    obtain ⟨s, hs, hspan⟩ := TokenList.get?_clamp (lex_size_pos left) failure.position
    obtain ⟨t, ht, hspan'⟩ := TokenList.get?_clamp (lex_size_pos right) failure.position
    unfold TokenList.clamp at hs ht
    rw [hsize] at hs
    refine .failures ?_ hs ht ?_ ?_
    · simp only [syntaxError, h]
    · simp only [syntaxError, hspan]
    · simp only [syntaxError, hspan']

/-- One function laid out in two ways, the second time with a comment. -/
theorem parse_sameWords_commented :
    WithinLimit "function f() \x7b x = 1; \x7d" ∧
      WithinLimit "function f( )\n\x7b // set\n  x=1; \x7d" ∧
      SameWords "function f() \x7b x = 1; \x7d" "function f( )\n\x7b // set\n  x=1; \x7d" ∧
      SameResult "function f() \x7b x = 1; \x7d" "function f( )\n\x7b // set\n  x=1; \x7d"
        (parse "function f() \x7b x = 1; \x7d" false)
        (parse "function f( )\n\x7b // set\n  x=1; \x7d" false) := by
  have h : SameWords "function f() \x7b x = 1; \x7d" "function f( )\n\x7b // set\n  x=1; \x7d" := by
    rw [SameWords, lex_ofList, lex_ofList]
    decide +kernel
  have hleft : WithinLimit "function f() \x7b x = 1; \x7d" := by
    rw [withinLimit_ofList]
    decide
  have hright : WithinLimit "function f( )\n\x7b // set\n  x=1; \x7d" := by
    rw [withinLimit_ofList]
    decide
  exact ⟨hleft, hright, h, parse_sameWords hleft hright h false⟩

end Source

end SolidityParser
