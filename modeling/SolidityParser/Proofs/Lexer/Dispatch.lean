import SolidityParser.Proofs.Lexer.Pattern
import SolidityParser.Source

/-!
# Lexing by first characters

A pattern matches only where one of its first characters stands, and a keyword is looked for only
among those with the same first letter. A lexer that looks at the first character before it tries a
pattern therefore finds the same tokens (`Lexer.lexText_eq_dispatchText`), and a source is read as
its list of characters is (`Source.read_ofList`). This lexer is the one to evaluate sources by in
proofs: it takes a small part of the steps, and needs no character to be decoded.
-/

namespace SolidityParser

/-! ### First characters -/

/-- The first character of what `Kind.text` gives for a kind. -/
def Kind.initial : Kind → Char
  | .kwAbstract | .kwAs | .kwAssembly => 'a'
  | .kwBreak => 'b'
  | .kwCalldata | .kwCatch | .kwConstant | .kwConstructor | .kwContinue | .kwContract => 'c'
  | .kwDelete | .kwDo => 'd'
  | .kwElse | .kwEmit | .kwEnum | .kwEvent | .kwExternal | .eof => 'e'
  | .kwFalse | .kwFor | .kwFunction => 'f'
  | .hexNumber | .hexString => 'h'
  | .kwIf | .kwImmutable | .kwImport | .kwIndexed | .kwInterface | .kwInternal | .kwIs | .ident
  | .error => 'i'
  | .kwLibrary => 'l'
  | .kwMapping | .kwMemory | .kwModifier => 'm'
  | .kwNew | .number => 'n'
  | .kwOverride => 'o'
  | .kwPayable | .kwPragma | .kwPrivate | .kwPublic | .kwPure => 'p'
  | .kwReturn | .kwReturns => 'r'
  | .kwStorage | .kwStruct | .string => 's'
  | .kwThrow | .kwTrue | .kwTry | .kwType => 't'
  | .kwUnchecked | .kwUsing | .unicodeString => 'u'
  | .kwView | .kwVirtual => 'v'
  | .kwWhile => 'w'
  | .lparen => '('
  | .rparen => ')'
  | .lbracket => '['
  | .rbracket => ']'
  | .lbrace => '\x7b'
  | .rbrace => '\x7d'
  | .semicolon => ';'
  | .comma => ','
  | .dot => '.'
  | .question => '?'
  | .colon | .colonEq => ':'
  | .eq | .eqEq | .fatArrow => '='
  | .bang | .notEq => '!'
  | .lt | .ltEq | .shl | .shlEq => '<'
  | .gt | .gtEq | .shr | .sar | .shrEq | .sarEq => '>'
  | .plus | .plusPlus | .plusEq => '+'
  | .minus | .minusMinus | .minusEq | .arrow => '-'
  | .star | .starStar | .starEq => '*'
  | .slash | .slashEq => '/'
  | .percent | .percentEq => '%'
  | .tilde => '~'
  | .amp | .ampAmp | .ampEq => '&'
  | .pipe | .pipePipe | .pipeEq => '|'
  | .caret | .caretEq => '^'

/-- A symbol or keyword begins with the first character that is known of it. -/
theorem Kind.head?_text (kind : Kind) : kind.text.toList.head? = some kind.initial := by
  cases kind <;> rfl

namespace Pattern

variable {c : Char} {cs expected : List Char} {pattern : Pattern}

/-- Can a match of the pattern begin with the character? -/
def beginsWith (c : Char) : Pattern → Bool
  | blank => isBlank c
  | lineComment | blockComment => c == '/'
  | quote .plain mark => c == mark
  | quote .hex _ => c == 'h'
  | quote .unicode _ => c == 'u'
  | number => c.isDigit || c == '.'
  | hexNumber => c == '0'
  | word => isWordStart c
  | symbol kind => kind.initial == c

/-- A run that is not empty begins with a first character. -/
theorem runLength_eq_zero {first : Char → Bool} (tail : Char → Bool) (h : first c = false) :
    runLength first tail (c :: cs) = 0 := by
  rw [runLength, h]
  rfl

/-- A fixed text does not match where another character stands than its first. -/
theorem fixed_eq_zero {d : Char} (hhead : expected.head? = some d) (h : (d == c) = false) :
    fixed expected (c :: cs) = 0 := by
  obtain ⟨rest, rfl⟩ := List.head?_eq_some_iff.mp hhead
  rw [fixed, List.isPrefixOf, h, Bool.false_and]
  rfl

/-- A pattern does not match where none of its first characters stands. -/
theorem matchLength_eq_zero (h : pattern.beginsWith c = false) :
    pattern.matchLength (c :: cs) = 0 := by
  cases pattern with
  | blank => exact runLength_eq_zero _ h
  | word => exact runLength_eq_zero _ h
  | lineComment => exact fixed_eq_zero rfl (by rw [Bool.beq_comm]; exact h)
  | blockComment => exact fixed_eq_zero rfl (by rw [Bool.beq_comm]; exact h)
  | symbol kind => exact fixed_eq_zero kind.head?_text h
  | quote kind mark =>
    cases kind with
    | plain => exact fixed_eq_zero rfl (by rw [Bool.beq_comm]; exact h)
    | hex => exact fixed_eq_zero rfl (by rw [Bool.beq_comm]; exact h)
    | unicode => exact fixed_eq_zero rfl (by rw [Bool.beq_comm]; exact h)
  | number =>
    rw [beginsWith, Bool.or_eq_false_iff] at h
    obtain ⟨hdigit, hpoint⟩ := h
    have hwhole : digits (c :: cs) = 0 := runLength_eq_zero _ hdigit
    have hfraction : fraction (c :: cs) = 0 := by
      unfold fraction
      split
      · next heq =>
        cases heq
        cases hpoint
      · rfl
    simp only [matchLength, decimal, hwhole, List.drop_zero, hfraction]
    rfl
  | hexNumber =>
    unfold matchLength hexadecimal
    dsimp only
    split
    · next heq =>
      cases heq
      cases h
    · rfl

/-- What does not match is not chosen. -/
theorem foldl_longer_filter {lengthOf : Pattern → Nat} {p : Pattern → Bool}
    (h : ∀ pattern, p pattern = false → lengthOf pattern = 0) (patterns : List Pattern)
    (best : Pattern × Nat) :
    ((patterns.filter p).map fun pattern => (pattern, lengthOf pattern)).foldl longer best =
      (patterns.map fun pattern => (pattern, lengthOf pattern)).foldl longer best := by
  induction patterns generalizing best with
  | nil => rfl
  | cons pattern patterns ih =>
    cases hp : p pattern with
    | true =>
      rw [List.filter_cons_of_pos hp, List.map_cons, List.map_cons, List.foldl_cons,
        List.foldl_cons, ih]
    | false =>
      have hbest : longer best (pattern, lengthOf pattern) = best := by
        rw [h pattern hp]
        exact if_neg (Nat.not_lt_zero _)
      rw [List.filter_cons_of_neg (by simp [hp]), List.map_cons, List.foldl_cons, hbest, ih]

/-- Nothing matches where nothing is left. -/
theorem matchLength_nil (pattern : Pattern) : pattern.matchLength [] = 0 := by
  cases pattern with
  | symbol kind =>
    obtain ⟨rest, hrest⟩ := List.head?_eq_some_iff.mp kind.head?_text
    rw [matchLength, hrest]
    rfl
  | quote kind mark => cases kind <;> rfl
  | _ => rfl

/-- The symbols are not looked through where a word, a number or blank text begins. -/
def candidates (c : Char) : List Pattern :=
  let patterns := if isWordTail c || isBlank c then all.take 12 else all
  patterns.filter (beginsWith c)

/-- The patterns listed for a character are those that may begin with it. -/
theorem candidates_eq (c : Char) : candidates c = all.filter (beginsWith c) := by
  unfold candidates
  split
  · next hc =>
    have hnone : ∀ kind ∈ Kind.symbols, (isWordTail kind.initial || isBlank kind.initial) = false := by
      decide
    have hsymbols : (Kind.symbols.map symbol).filter (beginsWith c) = [] := by
      refine List.filter_eq_nil_iff.mpr (List.forall_mem_map.mpr fun kind hkind hbegins => ?_)
      have hinitial := hnone kind hkind
      rw [show kind.initial = c from eq_of_beq hbegins, hc] at hinitial
      cases hinitial
    have hall : all = all.take 12 ++ Kind.symbols.map symbol := rfl
    conv => rhs; rw [hall, List.filter_append, hsymbols, List.append_nil]
  · rfl

/-- The longest match among the patterns that the first character may begin. -/
def dispatch? : List Char → Option (Pattern × Nat)
  | [] => none
  | c :: cs =>
    let best := ((candidates c).map fun pattern =>
      (pattern, pattern.matchLength (c :: cs))).foldl longer (blank, 0)
    if best.2 = 0 then none else some best

/-- To search these is to search all patterns, since no other matches. -/
theorem longest?_eq_dispatch? (text : List Char) : longest? text = dispatch? text := by
  cases text with
  | nil =>
    have hnone : all.filter (fun _ => false) = [] := by simp
    rw [longest?, ← foldl_longer_filter fun pattern _ => matchLength_nil pattern, hnone]
    rfl
  | cons c cs =>
    rw [longest?, dispatch?, candidates_eq,
      foldl_longer_filter fun _ h => matchLength_eq_zero h]

end Pattern

/-- The kind of a word: the keyword so spelled among those with its first letter, or else an
identifier. -/
def Kind.ofLetters : List Char → Kind
  | [] => .ident
  | c :: cs =>
    ((keywords.filter (·.initial == c)).find? (·.text == String.ofList (c :: cs))).getD .ident

/-- Words are told apart by their letters. -/
theorem Kind.ofWord_eq_ofLetters (letters : List Char) :
    ofWord (String.ofList letters) = ofLetters letters := by
  cases letters with
  | nil => rfl
  | cons c cs =>
    rw [ofWord, ofKeyword?, ofLetters, List.find?_filter]
    congr 2
    funext kind
    -- a keyword with this spelling has this first letter
    cases h : kind.text == String.ofList (c :: cs) with
    | false => simp
    | true =>
      have hhead := kind.head?_text
      rw [eq_of_beq h, String.toList_ofList] at hhead
      simp [Option.some_inj.mp hhead]

/-! ### Lexing -/

namespace Lexer

/-- The piece at the front of a text, by its first character. -/
def dispatchFront (text : List Char) : PieceSort × Nat :=
  match Pattern.dispatch? text with
  | some (.word, length) => (.token (Kind.ofLetters (text.take length)), length)
  | some (pattern, length) => extend pattern length text
  | none => (.token .error, 1)

/-- The first `fuel` pieces of a text, by first characters. -/
def dispatchAtFuel : Nat → List Char → List Piece
  | 0, _ => []
  | _, [] => []
  | fuel + 1, text =>
    let (sort, length) := dispatchFront text
    ⟨sort, text.take length⟩ :: dispatchAtFuel fuel (text.drop length)

/-- The tokens and comments of a text, by first characters. -/
def dispatchText (text : List Char) : Lexed :=
  let pieces := dispatchAtFuel text.length text
  ⟨⟨(tokensFrom 0 pieces).toArray⟩, commentsFrom 0 pieces⟩

/-- So the first piece is found by its first character. -/
theorem front_eq_dispatchFront (text : List Char) : front text = dispatchFront text := by
  rw [front, dispatchFront, Pattern.longest?_eq_dispatch?]
  cases Pattern.dispatch? text with
  | none => rfl
  | some chosen =>
    obtain ⟨pattern, length⟩ := chosen
    cases pattern with
    | word =>
      exact congrArg (fun kind => (PieceSort.token kind, length))
        (Kind.ofWord_eq_ofLetters (text.take length))
    | _ => rfl

/-- Each piece after it is found by its own. -/
theorem piecesAtFuel_eq_dispatchAtFuel (fuel : Nat) (text : List Char) :
    piecesAtFuel fuel text = dispatchAtFuel fuel text := by
  induction fuel generalizing text with
  | zero => rfl
  | succ fuel ih =>
    cases text with
    | nil => rfl
    | cons c cs =>
      unfold piecesAtFuel dispatchAtFuel
      rw [front_eq_dispatchFront]
      exact congrArg (_ :: ·) (ih _)

/-- The first characters are enough to lex by. -/
theorem lexText_eq_dispatchText (text : List Char) : lexText text = dispatchText text := by
  rw [lexText, dispatchText, pieces, piecesAtFuel_eq_dispatchAtFuel]

end Lexer

/-- Two pieces of a string, as lists of characters. -/
theorem Text.append_eq_ofList {left right : String} {front back : List Char}
    (hleft : left = String.ofList front) (hright : right = String.ofList back) :
    left ++ right = String.ofList (front ++ back) := by
  rw [hleft, hright, String.ofList_append]

/-- A text is lexed that way. -/
theorem lex_ofList (text : List Char) : lex (String.ofList text) = Lexer.dispatchText text := by
  rw [lex, String.toList_ofList, Lexer.lexText_eq_dispatchText]

namespace Source

/-- The layout of a list of characters. -/
def layoutText (text : List Char) : Layout := ⟨text, (Lexer.dispatchText text).tokens⟩

/-- Reads a list of characters by words and places the result in it, unless it is too long. -/
def readText {α β : Type} (text : List Char) (parse : Lexemes → Except Furthest α)
    (place : Layout → α → β) : Except SyntaxError β :=
  match Span.checkLength (Text.byteLength text) with
  | .error error => .error (sizeError error)
  | .ok () =>
    let layout := layoutText text
    match parse layout.tokens.lexemes with
    | .ok value => .ok (place layout value)
    | .error failure => .error (syntaxError layout failure)

/-- A source is read as its characters are. -/
theorem read_ofList {α β : Type} (text : List Char) (parse : Lexemes → Except Furthest α)
    (place : Layout → α → β) :
    read (String.ofList text) parse place = readText text parse place := by
  have hlayout : layout (String.ofList text) = layoutText text := by
    rw [layout, layoutText, lex_ofList, String.toList_ofList]
  let answer (layout : Layout) : Except SyntaxError β :=
    match parse layout.tokens.lexemes with
    | .ok value => .ok (place layout value)
    | .error failure => .error (syntaxError layout failure)
  unfold read readText
  rw [String.toList_ofList]
  cases Span.checkLength (Text.byteLength text) with
  | error error => rfl
  | ok => exact congrArg answer hlayout

/-- A list of characters that is not too long is read by its words. -/
theorem read_ofList_of_le {α β : Type} {text : List Char} {parse : Lexemes → Except Furthest α}
    {place : Layout → α → β} (h : Text.byteLength text ≤ Span.limit) :
    read (String.ofList text) parse place =
      match parse (layoutText text).tokens.lexemes with
      | .ok value => .ok (place (layoutText text) value)
      | .error failure => .error (syntaxError (layoutText text) failure) := by
  rw [read_ofList, readText, Span.checkLength, if_neg (Nat.not_lt_of_le h)]

end Source

end SolidityParser
