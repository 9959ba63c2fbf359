import SolidityParser.Proofs.Parser.Basic

/-!
# Symbols and what they spell

A production of the grammar says how a node is written: as tokens and smaller constructs in a row.
The grammar is read from left to right and takes as much as it can, so a production may also say
what does not come next. `Symbol` is one element of a production, and `Lexemes.Spells` says that the
words of an input, from one index up to another, are those that symbols stand for.
-/

namespace SolidityParser

/-! ### Words ahead -/

/-- The word at an index. -/
def Lexemes.lexemeAt (lexemes : Lexemes) (index : Nat) : Lexeme :=
  ⟨lexemes.kindAt index, lexemes.textAt index⟩

/-- What consecutive words may be: one test for each. -/
abbrev Lookahead := List (Lexeme → Bool)

/-- The words from an index on pass the tests. The end of the input and a semicolon pass none: no
rule that looks ahead looks past them. -/
def Lexemes.Ahead (lexemes : Lexemes) : Nat → Lookahead → Prop
  | _, [] => True
  | i, test :: tests =>
    test (lexemes.lexemeAt i) = true ∧ lexemes.kindAt i ≠ .eof ∧ lexemes.kindAt i ≠ .semicolon ∧
      lexemes.Ahead (i + 1) tests

/-- Tokens of given kinds ahead. -/
def Lookahead.kinds (kinds : List Kind) : Lookahead := kinds.map fun k lexeme => lexeme.kind == k

/-! ### Symbols -/

/-- An element of a production. -/
inductive Symbol
  /-- A token of a kind. -/
  | token (kind : Kind)
  /-- A token of a kind with a spelling. -/
  | word (kind : Kind) (text : String)
  /-- A smaller construct. -/
  | part (place : Extent)
  /-- A smaller construct that consists of names with points between. -/
  | path (place : Extent) (first : String) (more : List String)
  /-- Nothing, where the words ahead are not as tested. -/
  | no (ahead : Lookahead)
  /-- Nothing, at an index. -/
  | here (index : Nat)

/-- An extent holds at least one token, and not the end of the input. -/
structure Lexemes.Covers (lexemes : Lexemes) (place : Extent) : Prop where
  /-- There is a token. -/
  nonempty : place.first < place.next
  /-- The input goes on after each. -/
  inside : ∀ n, place.first ≤ n → n < place.next → lexemes.kindAt n ≠ .eof

/-- From one index up to another, each of the names has a point before it. -/
def Lexemes.Steps (lexemes : Lexemes) : Nat → List String → Nat → Prop
  | i, [], j => i = j
  | i, name :: names, j =>
    (lexemes.kindAt i = .dot ∧ lexemes.kindAt (i + 1) = .ident ∧ lexemes.textAt (i + 1) = name) ∧
      lexemes.Steps (i + 2) names j

/-- From one index up to another, the words are those that the symbols stand for. -/
def Lexemes.Spells (lexemes : Lexemes) : Nat → List Symbol → Nat → Prop
  | i, [], j => i = j
  | i, .token kind :: rest, j =>
    (kind ≠ .eof ∧ lexemes.kindAt i = kind) ∧ lexemes.Spells (i + 1) rest j
  | i, .word kind text :: rest, j =>
    (kind ≠ .eof ∧ lexemes.kindAt i = kind ∧ lexemes.textAt i = text) ∧
      lexemes.Spells (i + 1) rest j
  | i, .part place :: rest, j =>
    (place.first = i ∧ lexemes.Covers place) ∧ lexemes.Spells place.next rest j
  | i, .path place first more :: rest, j =>
    (place.first = i ∧ (lexemes.kindAt i = .ident ∧ lexemes.textAt i = first) ∧
      lexemes.Steps (i + 1) more place.next) ∧ lexemes.Spells place.next rest j
  | i, .no ahead :: rest, j => ¬ lexemes.Ahead i ahead ∧ lexemes.Spells i rest j
  | i, .here index :: rest, j => index = i ∧ lexemes.Spells i rest j

namespace Symbol

/-- The smaller constructs among symbols. -/
def parts : List Symbol → List Extent
  | [] => []
  | .part place :: rest | .path place _ _ :: rest => place :: parts rest
  | .token _ :: rest | .word _ _ :: rest | .no _ :: rest | .here _ :: rest => parts rest

@[simp] theorem parts_append (left right : List Symbol) :
    parts (left ++ right) = parts left ++ parts right := by
  induction left with
  | nil => rfl
  | cons symbol left ih => cases symbol <;> simp [parts, ih]

/-- Symbols with commas between. -/
def separated : List (List Symbol) → List Symbol
  | [] => []
  | [item] => item
  | item :: items => item ++ .token .comma :: separated items

/-- Symbols with commas between, and the token that closes them. -/
def series (close : Kind) (items : List (List Symbol)) : List Symbol :=
  separated items ++ [.token close]

/-- A smaller construct, or nothing where it is missing. -/
def option (place : Option Extent) : List Symbol := place.toList.map .part

/-- Does the symbol stand for at least one token? -/
def isSolid (symbol : Symbol) : Bool :=
  symbol matches .token _ | .word _ _ | .part _ | .path _ _ _

/-- Names with points between. -/
def names (first : String) (more : List String) : List Symbol :=
  .word .ident first :: more.flatMap fun name => [.token .dot, .word .ident name]

end Symbol

/-! ### Spelling -/

namespace Lexemes

variable {lexemes : Lexemes} {i j k : Nat} {rest left right : List Symbol}

@[simp] theorem spells_nil : lexemes.Spells i [] j ↔ i = j := Iff.rfl

@[simp] theorem spells_token {kind : Kind} :
    lexemes.Spells i (.token kind :: rest) j ↔
      (kind ≠ .eof ∧ lexemes.kindAt i = kind) ∧ lexemes.Spells (i + 1) rest j := Iff.rfl

@[simp] theorem spells_word {kind : Kind} {text : String} :
    lexemes.Spells i (.word kind text :: rest) j ↔
      (kind ≠ .eof ∧ lexemes.kindAt i = kind ∧ lexemes.textAt i = text) ∧
        lexemes.Spells (i + 1) rest j := Iff.rfl

@[simp] theorem spells_part {place : Extent} :
    lexemes.Spells i (.part place :: rest) j ↔
      (place.first = i ∧ lexemes.Covers place) ∧ lexemes.Spells place.next rest j := Iff.rfl

@[simp] theorem spells_path {place : Extent} {first : String} {more : List String} :
    lexemes.Spells i (.path place first more :: rest) j ↔
      (place.first = i ∧ (lexemes.kindAt i = .ident ∧ lexemes.textAt i = first) ∧
        lexemes.Steps (i + 1) more place.next) ∧ lexemes.Spells place.next rest j := Iff.rfl

@[simp] theorem spells_here {index : Nat} :
    lexemes.Spells i (.here index :: rest) j ↔ index = i ∧ lexemes.Spells i rest j := Iff.rfl

@[simp] theorem spells_no {ahead : Lookahead} :
    lexemes.Spells i (.no ahead :: rest) j ↔
      ¬ lexemes.Ahead i ahead ∧ lexemes.Spells i rest j := Iff.rfl

@[simp] theorem spells_append :
    lexemes.Spells i (left ++ right) j ↔
      ∃ k, lexemes.Spells i left k ∧ lexemes.Spells k right j := by
  induction left generalizing i with
  | nil => simp
  | cons symbol left ih =>
    cases symbol <;> simp [ih, and_assoc]

theorem Spells.append (hl : lexemes.Spells i left k) (hr : lexemes.Spells k right j) :
    lexemes.Spells i (left ++ right) j :=
  spells_append.mpr ⟨k, hl, hr⟩

/-- Names after points are spelled as such. -/
theorem steps_iff {names : List String} :
    lexemes.Steps i names j ↔
      lexemes.Spells i (names.flatMap fun name => [.token .dot, .word .ident name]) j := by
  induction names generalizing i with
  | nil => rfl
  | cons name names ih => simp [Steps, ih, and_assoc]

/-- A path is spelled as its names are. -/
theorem spells_path_iff {place : Extent} {first : String} {more : List String} :
    lexemes.Spells i (.path place first more :: rest) j ↔
      place.first = i ∧ lexemes.Spells i (Symbol.names first more) place.next ∧
        lexemes.Spells place.next rest j := by
  simp [Symbol.names, steps_iff, and_assoc]

/-- The input does not end among names after points. -/
theorem Steps.inside {names : List String} (h : lexemes.Steps i names j) :
    i ≤ j ∧ ∀ n, i ≤ n → n < j → lexemes.kindAt n ≠ .eof := by
  induction names generalizing i with
  | nil =>
    obtain rfl := h
    exact ⟨Nat.le_refl _, fun n _ _ => by omega⟩
  | cons name names ih =>
    obtain ⟨⟨hdot, hident, -⟩, hrest⟩ := h
    obtain ⟨hle, hin⟩ := ih hrest
    refine ⟨by omega, fun n hn hj => ?_⟩
    obtain rfl | rfl | hn : n = i ∨ n = i + 1 ∨ i + 2 ≤ n := by omega
    · rw [hdot]
      decide
    · rw [hident]
      decide
    · exact hin n hn hj

namespace Spells

/-- The first of several items stands before a comma, and a single one before what closes it. -/
theorem series_cons {close : Kind} {item : List Symbol} {items : List (List Symbol)}
    (h : lexemes.Spells i (Symbol.series close (item :: items)) j) :
    ∃ k, lexemes.Spells i item k ∧
      (items ≠ [] ∧ lexemes.kindAt k = .comma ∨ items = [] ∧ lexemes.kindAt k = close) := by
  obtain ⟨k, hrow, ⟨-, hclose⟩, -⟩ := spells_append.mp h
  cases items with
  | nil => exact ⟨k, hrow, .inr ⟨rfl, hclose⟩⟩
  | cons other items =>
    obtain ⟨l, hitem, ⟨-, hcomma⟩, -⟩ := spells_append.mp hrow
    exact ⟨l, hitem, .inl ⟨by simp, hcomma⟩⟩

/-- The end does not come before the start, and the input does not end between. -/
theorem inside (h : lexemes.Spells i rest j) :
    i ≤ j ∧ ∀ n, i ≤ n → n < j → lexemes.kindAt n ≠ .eof := by
  induction rest generalizing i with
  | nil =>
    obtain rfl := h
    exact ⟨Nat.le_refl _, fun n _ _ => by omega⟩
  | cons symbol rest ih =>
    cases symbol with
    | token kind =>
      obtain ⟨⟨hk, hi⟩, hrest⟩ := h
      obtain ⟨hle, hin⟩ := ih hrest
      refine ⟨by omega, fun n hn hj => ?_⟩
      rcases Nat.eq_or_lt_of_le hn with rfl | hn
      · rwa [hi]
      · exact hin n hn hj
    | word kind text =>
      obtain ⟨⟨hk, hi, -⟩, hrest⟩ := h
      obtain ⟨hle, hin⟩ := ih hrest
      refine ⟨by omega, fun n hn hj => ?_⟩
      rcases Nat.eq_or_lt_of_le hn with rfl | hn
      · rwa [hi]
      · exact hin n hn hj
    | part place =>
      obtain ⟨⟨hi, hcovers⟩, hrest⟩ := h
      obtain ⟨hle, hin⟩ := ih hrest
      have := hcovers.nonempty
      refine ⟨by omega, fun n hn hj => ?_⟩
      by_cases hn' : n < place.next
      · exact hcovers.inside n (by omega) hn'
      · exact hin n (by omega) hj
    | path place first more =>
      obtain ⟨⟨hi, ⟨hident, -⟩, hsteps⟩, hrest⟩ := h
      obtain ⟨hle, hin⟩ := ih hrest
      obtain ⟨hle', hin'⟩ := hsteps.inside
      refine ⟨by omega, fun n hn hj => ?_⟩
      by_cases hn' : n < place.next
      · rcases Nat.eq_or_lt_of_le hn with rfl | hn
        · rw [hident]
          decide
        · exact hin' n hn hn'
      · exact hin n (by omega) hj
    | no | here => exact ih h.2

/-- What symbols spell ends within the input. -/
theorem le_size (h : lexemes.Spells i rest j) (hlt : i < j) : j ≤ lexemes.size := by
  have := lexemes.lt_size_of_kindAt (h.inside.2 (j - 1) (by omega) (by omega))
  omega

/-- What symbols spell holds a token if one of them stands for one. -/
theorem covers (h : lexemes.Spells i rest j) (hsolid : ∃ symbol ∈ rest, symbol.isSolid = true) :
    lexemes.Covers ⟨i, j⟩ := by
  refine ⟨?_, h.inside.2⟩
  induction rest generalizing i with
  | nil => simp at hsolid
  | cons symbol rest ih =>
    cases symbol with
    | token kind =>
      have := h.2.inside.1
      dsimp only
      omega
    | word kind text =>
      have := h.2.inside.1
      dsimp only
      omega
    | part place =>
      obtain ⟨⟨hi, hcovers⟩, hrest⟩ := h
      have := hcovers.nonempty
      have := hrest.inside.1
      dsimp only
      omega
    | path place first more =>
      obtain ⟨⟨hi, -, hsteps⟩, hrest⟩ := h
      have := hsteps.inside.1
      have := hrest.inside.1
      dsimp only
      omega
    | no | here => exact ih h.2 (by simpa [Symbol.isSolid] using hsolid)

end Spells

/-! ### Words ahead, as the grammar asks for them -/

@[simp] theorem ahead_nil : lexemes.Ahead i [] ↔ True := Iff.rfl

@[simp] theorem ahead_cons {test : Lexeme → Bool} {tests : Lookahead} :
    lexemes.Ahead i (test :: tests) ↔
      test (lexemes.lexemeAt i) = true ∧ lexemes.kindAt i ≠ .eof ∧
        lexemes.kindAt i ≠ .semicolon ∧ lexemes.Ahead (i + 1) tests := Iff.rfl

/-- Tokens of given kinds stand ahead. -/
theorem ahead_kinds {kinds : List Kind} (h : ∀ k ∈ kinds, k ≠ .eof ∧ k ≠ .semicolon) :
    lexemes.Ahead i (.kinds kinds) ↔
      ∀ n (hn : n < kinds.length), lexemes.kindAt (i + n) = kinds[n] := by
  induction kinds generalizing i with
  | nil => simp [Lookahead.kinds]
  | cons k kinds ih =>
    obtain ⟨hk, hkinds⟩ := List.forall_mem_cons.mp h
    have hrest := ih (i := i + 1) hkinds
    simp only [Lookahead.kinds, List.map_cons, ahead_cons, lexemeAt, beq_iff_eq] at hrest ⊢
    rw [hrest]
    constructor
    · rintro ⟨h0, -, -, hn⟩ n hlt
      cases n with
      | zero => exact h0
      | succ n =>
        rw [show i + (n + 1) = i + 1 + n by omega]
        exact hn n (by simpa using hlt)
    · intro hn
      have h0 := hn 0 (by simp)
      simp only [Nat.add_zero, List.getElem_cons_zero] at h0
      refine ⟨h0, h0 ▸ hk.1, h0 ▸ hk.2, fun n hlt => ?_⟩
      rw [show i + 1 + n = i + (n + 1) by omega]
      exact hn (n + 1) (by simpa using hlt)

end Lexemes

end SolidityParser
