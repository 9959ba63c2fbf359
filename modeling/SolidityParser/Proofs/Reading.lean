import SolidityParser.Source

/-!
# Sources that are not too long

A source is read if all of its offsets fit in a span (`Source.WithinLimit`): the grammar then
decides what is answered (`Source.read_eq_ok_iff`, `Source.read_eq_error_iff`). A longer one is
refused with its length (`Source.read_of_tooLong`), whatever is asked of it.
-/

namespace SolidityParser

namespace Source

variable {source : String} {α β : Type} {parse : Lexemes → Except Furthest α}
  {place : Layout → α → β} {value : β} {error : SyntaxError}

/-- The end of the source is not past the largest offset of a span. -/
def WithinLimit (source : String) : Prop := Text.byteLength source.toList ≤ Span.limit

instance (source : String) : Decidable (WithinLimit source) := inferInstanceAs (Decidable (_ ≤ _))

/-- The limit is one on the bytes of the text. -/
theorem withinLimit_ofList {text : List Char} :
    WithinLimit (String.ofList text) ↔ Text.byteLength text ≤ Span.limit := by
  rw [WithinLimit, String.toList_ofList]

/-- The error that refuses a source. -/
def lengthError (source : String) : SyntaxError := sizeError ⟨Text.byteLength source.toList⟩

/-- A source that is not too long is read by its words. -/
theorem read_of_withinLimit (h : WithinLimit source) :
    read source parse place =
      match parse (lex source).tokens.lexemes with
      | .ok value => .ok (place (layout source) value)
      | .error failure => .error (syntaxError (layout source) failure) := by
  unfold read Span.checkLength
  rw [if_neg (Nat.not_lt_of_le h)]
  rfl

/-- A source that is too long is refused. -/
theorem read_of_tooLong (h : ¬ WithinLimit source) :
    read source parse place = .error (lengthError source) := by
  unfold read Span.checkLength
  rw [if_pos (Nat.lt_of_not_le h)]
  rfl

/-- What is read of a source is what is found among its words, placed. -/
theorem read_eq_ok_iff :
    read source parse place = .ok value ↔
      WithinLimit source ∧
        ∃ found, parse (lex source).tokens.lexemes = .ok found ∧
          value = place (layout source) found := by
  by_cases h : WithinLimit source
  · rw [read_of_withinLimit h]
    cases parse (lex source).tokens.lexemes <;> simp [h, eq_comm]
  · rw [read_of_tooLong h]
    simp [h]

/-- A source gets an error if it is too long, or if nothing is found among its words. -/
theorem read_eq_error_iff :
    read source parse place = .error error ↔
      ¬ WithinLimit source ∧ error = lengthError source ∨
        WithinLimit source ∧
          ∃ failure, parse (lex source).tokens.lexemes = .error failure ∧
            error = syntaxError (layout source) failure := by
  by_cases h : WithinLimit source
  · rw [read_of_withinLimit h]
    cases parse (lex source).tokens.lexemes <;> simp [h, eq_comm]
  · rw [read_of_tooLong h]
    simp [h, eq_comm]

/-- The error that an answer is. -/
def errorOf? {ε : Type} : Except ε β → Option ε
  | .error error => some error
  | .ok _ => none

/-- An answer is an error just if it is that one. -/
theorem errorOf?_eq_some_iff {ε : Type} {answer : Except ε β} {error : ε} :
    errorOf? answer = some error ↔ answer = .error error := by
  cases answer <;> simp [errorOf?]

/-- A source that was read is not too long. -/
theorem withinLimit_of_read (h : read source parse place = .ok value) : WithinLimit source :=
  (read_eq_ok_iff.mp h).1

end Source

end SolidityParser
