import SolidityParser.Proofs.Containment
import SolidityParser.Proofs.Lexer.Munch
import SolidityParser.Proofs.Lexer.Spaced

/-!
# Inputs told by their words

`Lexemes.HasRow` says that the input has the words of a row from one index up to another. Where
keywords and symbols are spelled as in a source (`lex_spelled`), their kinds are enough to tell
them; so an input that has a row from its start to its end is that row (`HasRow.eq_ofWords`).
-/

namespace SolidityParser

namespace Lexeme

/-- The words of a path. -/
def ofPath (first : String) (more : List String) : List Lexeme :=
  ⟨.ident, first⟩ :: more.flatMap fun name => [.of .dot, ⟨.ident, name⟩]

/-- The words are names, keywords and symbols. -/
def Plain (words : List Lexeme) : Prop :=
  ∀ word ∈ words, word.kind = .ident ∨ ∃ kind ∈ Kind.keywords ++ Kind.symbols, word = .of kind

namespace Plain

variable {word : Lexeme} {words others : List Lexeme}

/-- There is nothing wrong with no words. -/
theorem nil : Plain [] := by simp [Plain]

/-- A name, a keyword or a symbol may be put in front. -/
theorem cons (hword : word.kind = .ident ∨ ∃ kind ∈ Kind.keywords ++ Kind.symbols, word = .of kind)
    (h : Plain words) : Plain (word :: words) :=
  List.forall_mem_cons.mpr ⟨hword, h⟩

/-- In particular a fixed word may be. -/
theorem of {kind : Kind} (hkind : kind ∈ Kind.keywords ++ Kind.symbols) (h : Plain words) :
    Plain (.of kind :: words) :=
  h.cons (.inr ⟨kind, hkind, rfl⟩)

/-- Rows may be put together. -/
theorem append (h : Plain words) (hothers : Plain others) : Plain (words ++ others) :=
  List.forall_mem_append.mpr ⟨h, hothers⟩

/-- None of them is the end of the input. -/
theorem ne_eof (h : Plain words) : ∀ word ∈ words, word.kind ≠ .eof := by
  intro word hmem
  rcases h word hmem with hident | ⟨kind, hkind, rfl⟩
  · rw [hident]
    decide
  · rintro rfl
    revert hkind
    decide

/-- With spaces between, they are the words of a source, if the names are words by themselves. -/
theorem lex_intercalate (h : Plain words)
    (hnames : ∀ word ∈ words, word.kind = .ident → word.StandsAlone) :
    (lex (" ".intercalate (words.map (·.text)))).tokens.lexemes =
      (words ++ [(⟨.eof, ""⟩ : Lexeme)]).toArray := by
  refine lex_spaced words fun word hmem => ?_
  rcases h word hmem with hident | ⟨kind, hkind, rfl⟩
  · exact hnames word hmem hident
  · exact standsAlone_kind hkind

end Plain

end Lexeme

namespace Lexemes

/-- The input of the words of a row. -/
def ofWords (words : List Lexeme) : Lexemes := (words ++ [(⟨.eof, ""⟩ : Lexeme)]).toArray

/-- From one index up to another, the input has the words of a row. -/
def HasRow (lexemes : Lexemes) : Nat → List Lexeme → Nat → Prop
  | i, [], j => i = j
  | i, word :: words, j =>
    (lexemes.kindAt i = word.kind ∧ lexemes.textAt i = word.text) ∧ lexemes.HasRow (i + 1) words j

/-- Keywords and symbols are spelled as their kinds say. -/
def Spelled (lexemes : Lexemes) : Prop :=
  ∀ i, lexemes.kindAt i ∈ Kind.keywords ++ Kind.symbols →
    lexemes.textAt i = (lexemes.kindAt i).text

variable {lexemes : Lexemes} {i j k : Nat} {word : Lexeme} {words left right : List Lexeme}

/-! ### Rows -/

@[simp] theorem hasRow_nil : lexemes.HasRow i [] j ↔ i = j := Iff.rfl

@[simp] theorem hasRow_cons :
    lexemes.HasRow i (word :: words) j ↔
      (lexemes.kindAt i = word.kind ∧ lexemes.textAt i = word.text) ∧
        lexemes.HasRow (i + 1) words j := Iff.rfl

@[simp] theorem hasRow_append :
    lexemes.HasRow i (left ++ right) j ↔
      ∃ k, lexemes.HasRow i left k ∧ lexemes.HasRow k right j := by
  induction left generalizing i with
  | nil => simp
  | cons word left ih => simp [ih, and_assoc]

/-- A row ends where the next begins. -/
theorem HasRow.append (hl : lexemes.HasRow i left k) (hr : lexemes.HasRow k right j) :
    lexemes.HasRow i (left ++ right) j :=
  hasRow_append.mpr ⟨k, hl, hr⟩

/-- A keyword or symbol, and a row after it. -/
theorem HasRow.of {kind : Kind} (hspelled : lexemes.Spelled)
    (hkind : kind ∈ Kind.keywords ++ Kind.symbols)
    (h : kind ≠ .eof ∧ lexemes.kindAt i = kind) (hrest : lexemes.HasRow (i + 1) words j) :
    lexemes.HasRow i (.of kind :: words) j := by
  obtain rfl := h.2
  exact ⟨⟨rfl, hspelled i hkind⟩, hrest⟩

/-- A smaller construct that is a row, and a row after it. -/
theorem HasRow.part {place : Extent} (h : lexemes.HasRow place.first left place.next)
    (hplace : place.first = i ∧ lexemes.Covers place) (hrest : lexemes.HasRow place.next right j) :
    lexemes.HasRow i (left ++ right) j :=
  hplace.1 ▸ h.append hrest

/-- A row has as many words as it takes up, each in its place. -/
theorem hasRow_iff :
    lexemes.HasRow i words j ↔
      j = i + words.length ∧ ∀ n (hn : n < words.length), lexemes.lexemeAt (i + n) = words[n] := by
  induction words generalizing i with
  | nil => simp [eq_comm]
  | cons word words ih =>
    rw [hasRow_cons, ih]
    constructor
    · rintro ⟨⟨hkind, htext⟩, rfl, hrest⟩
      refine ⟨by rw [List.length_cons]; omega, fun n hn => ?_⟩
      cases n with
      | zero => exact congrArg₂ Lexeme.mk hkind htext
      | succ n =>
        rw [show i + (n + 1) = i + 1 + n by omega]
        exact hrest n (Nat.lt_of_succ_lt_succ hn)
    · rintro ⟨rfl, hall⟩
      have hfirst := hall 0 (Nat.succ_pos _)
      refine ⟨⟨congrArg Lexeme.kind hfirst, congrArg Lexeme.text hfirst⟩,
        by rw [List.length_cons]; omega, fun n hn => ?_⟩
      rw [show i + 1 + n = i + (n + 1) by omega]
      exact hall (n + 1) (Nat.succ_lt_succ hn)

/-- A row is as long as its words. -/
theorem HasRow.length (h : lexemes.HasRow i words j) : j = i + words.length :=
  (hasRow_iff.mp h).1

/-- No word of a row is the end of the input if the input does not end inside it. -/
theorem HasRow.ne_eof (h : lexemes.HasRow i words j)
    (hinside : ∀ n, i ≤ n → n < j → lexemes.kindAt n ≠ .eof) :
    ∀ word ∈ words, word.kind ≠ .eof := by
  obtain ⟨rfl, hwords⟩ := hasRow_iff.mp h
  intro word hmem
  obtain ⟨n, hn, rfl⟩ := List.mem_iff_getElem.mp hmem
  rw [← hwords n hn]
  exact hinside _ (Nat.le_add_right ..) (Nat.add_lt_add_left hn i)

/-- What an input has from one index up to another is a row. -/
theorem exists_hasRow (lexemes : Lexemes) (h : i ≤ j) : ∃ words, lexemes.HasRow i words j := by
  refine ⟨(List.range' i (j - i)).map lexemes.lexemeAt, hasRow_iff.mpr ⟨?_, fun n hn => ?_⟩⟩
  · simp only [List.length_map, List.length_range']
    omega
  · simp

/-- What stands before a row that ends where all ends, ends where the row begins. -/
theorem HasRow.front (h : lexemes.HasRow i (left ++ right) j) (hright : lexemes.HasRow k right j) :
    lexemes.HasRow i left k := by
  obtain ⟨m, hleft, hright'⟩ := hasRow_append.mp h
  have hlength := hright.length
  have hlength' := hright'.length
  obtain rfl : m = k := by omega
  exact hleft

/-- A path is spelled where its words stand. -/
theorem HasRow.path {first : String} {more : List String}
    (h : lexemes.HasRow i (Lexeme.ofPath first more) j) :
    lexemes.Spells i (Symbol.names first more) j := by
  refine ⟨⟨by decide, h.1⟩, ?_⟩
  replace h := h.2
  induction more generalizing i with
  | nil => exact h
  | cons name more ih =>
    obtain ⟨⟨hdot, -⟩, hname, hrest⟩ := h
    exact ⟨⟨by decide, hdot⟩, ⟨by decide, hname⟩, ih hrest⟩

/-- The words of a path stand where it is spelled. -/
theorem Spells.path_hasRow (hspelled : lexemes.Spelled) {first : String} {more : List String}
    (h : lexemes.Spells i (Symbol.names first more) j) :
    lexemes.HasRow i (Lexeme.ofPath first more) j := by
  refine ⟨h.1.2, ?_⟩
  replace h := h.2
  induction more generalizing i with
  | nil => exact h
  | cons name more ih =>
    obtain ⟨hdot, ⟨-, hname⟩, hrest⟩ := h
    exact .of hspelled (by decide) hdot ⟨hname, ih hrest⟩

/-- The words of a row are at their indices. -/
theorem lexemeAt_ofWords {n : Nat} (hn : n < words.length) :
    (ofWords words).lexemeAt n = words[n] := by
  simp [lexemeAt, kindAt, textAt, ofWords, Nat.lt_succ_of_lt hn, List.getElem_append_left hn]

/-- The input of a row has it, and nothing after it. -/
theorem hasRow_ofWords (words : List Lexeme) :
    (ofWords words).HasRow 0 words words.length ∧ (ofWords words).kindAt words.length = .eof := by
  refine ⟨hasRow_iff.mpr ⟨(Nat.zero_add _).symm, fun n hn => ?_⟩, by simp [ofWords, kindAt]⟩
  rw [Nat.zero_add, lexemeAt_ofWords hn]

/-- The first end of the input comes after the row. -/
theorem eq_length_of_eof (hwords : ∀ word ∈ words, word.kind ≠ .eof)
    (hinside : ∀ n < j, (ofWords words).kindAt n ≠ .eof) (hend : (ofWords words).kindAt j = .eof) :
    j = words.length := by
  rcases Nat.lt_trichotomy words.length j with hlt | heq | hgt
  · exact absurd (hasRow_ofWords words).2 (hinside _ hlt)
  · exact heq.symm
  · have hkind := congrArg Lexeme.kind (lexemeAt_ofWords hgt)
    exact absurd (hkind.symm.trans hend) (hwords _ (List.getElem_mem hgt))

/-- An input has only one row from its start to its end. -/
theorem HasRow.unique (h : (ofWords words).HasRow 0 left j)
    (hwords : ∀ word ∈ words, word.kind ≠ .eof) (hleft : ∀ word ∈ left, word.kind ≠ .eof)
    (hend : (ofWords words).kindAt j = .eof) : words = left := by
  obtain ⟨hj, hall⟩ := hasRow_iff.mp h
  rw [Nat.zero_add] at hj
  subst hj
  simp only [Nat.zero_add] at hall
  have hlength := eq_length_of_eof hwords (fun n hn => ?_) hend
  · refine List.ext_getElem hlength.symm fun n hn hn' => ?_
    rw [← lexemeAt_ofWords hn, hall n hn']
  · rw [show (ofWords words).kindAt n = ((ofWords words).lexemeAt n).kind from rfl, hall n hn]
    exact hleft _ (List.getElem_mem hn)

end Lexemes

/-! ### Rows of a source -/

/-- A keyword or symbol at the front of a text is the text of its kind. -/
theorem Lexer.Munch.take_eq {text : List Char} {kind : Kind} {n : Nat}
    (h : Munch text (.token kind) n) (hkind : kind ∈ Kind.keywords ++ Kind.symbols) :
    text.take n = kind.text.toList := by
  cases h with
  | word _ hclassified =>
    rcases hclassified with ⟨-, htext⟩ | ⟨rfl, -⟩
    · rw [htext, String.toList_ofList]
    · exact absurd hkind (by decide)
  | symbol hlongest => exact hlongest.fits.2
  | @string _ sort => cases sort <;> exact absurd hkind (by decide)
  | _ => exact absurd hkind (by decide)

/-- In a source, the spelling of a keyword or symbol is that of its kind. -/
theorem lex_spelled (source : String) : (lex source).tokens.lexemes.Spelled := by
  intro i
  refine Lexemes.lexemeAt_of_forall (P := fun lexeme =>
    lexeme.kind ∈ Kind.keywords ++ Kind.symbols → lexeme.text = lexeme.kind.text)
    (fun lexeme hmem hkind => ?_) (by decide) i
  rw [Lexer.lex_lexemes] at hmem
  rcases List.mem_append.mp (List.mem_toArray.mp hmem) with hmem | hmem
  · obtain ⟨piece, hpiece, hlexeme⟩ := List.mem_filterMap.mp hmem
    obtain ⟨left, -, -, rfl⟩ := (Lexer.cuts_pieces source.toList).front hpiece
    obtain ⟨hsort, htext⟩ := Lexer.lexeme?_eq_some.mp hlexeme
    have hmunch := Lexer.munch_front left
    dsimp only at hsort htext
    rw [hsort] at hmunch
    rw [← String.toList_inj, ← htext]
    exact hmunch.take_eq hkind
  · obtain rfl := List.mem_singleton.mp hmem
    revert hkind
    decide

/-- A source is the row of its words, and the end of the input is none of them. -/
theorem lex_eq_ofWords (source : String) :
    ∃ words, (lex source).tokens.lexemes = .ofWords words ∧ ∀ word ∈ words, word.kind ≠ .eof := by
  refine ⟨_, Lexer.lex_lexemes source, fun word hmem => ?_⟩
  obtain ⟨piece, hpiece, hlexeme⟩ := List.mem_filterMap.mp hmem
  obtain ⟨left, -, -, rfl⟩ := (Lexer.cuts_pieces source.toList).front hpiece
  exact Lexer.ne_eof_of_front (Lexer.lexeme?_eq_some.mp hlexeme).1

/-- If the tokens of a source are given words, none of these is the end of the input. -/
theorem ne_eof_of_lex {source : String} {words : List Lexeme}
    (h : (lex source).tokens.lexemes = .ofWords words) : ∀ word ∈ words, word.kind ≠ .eof := by
  obtain ⟨others, hothers, hne⟩ := lex_eq_ofWords source
  rw [h] at hothers
  obtain rfl : words = others := List.append_cancel_right (congrArg Array.toList hothers)
  exact hne

/-- What takes up a source, up to its end, is as long as its words are. -/
theorem Lexemes.Covers.eq_length {source : String} {words : List Lexeme} {j : Nat}
    (h : (lex source).tokens.lexemes.Covers ⟨0, j⟩)
    (hwords : (lex source).tokens.lexemes = .ofWords words)
    (hend : (lex source).tokens.lexemes.kindAt j = .eof) : j = words.length := by
  have hinside := h.inside
  rw [hwords] at hinside hend
  exact eq_length_of_eof (ne_eof_of_lex hwords) (fun n hn => hinside n (Nat.zero_le n) hn) hend

/-- A source that has a row from its start to its end is that row. -/
theorem Lexemes.HasRow.eq_ofWords {source : String} {words : List Lexeme} {j : Nat}
    (h : (lex source).tokens.lexemes.HasRow 0 words j) (hwords : ∀ word ∈ words, word.kind ≠ .eof)
    (hend : (lex source).tokens.lexemes.kindAt j = .eof) :
    (lex source).tokens.lexemes = ofWords words := by
  obtain ⟨others, hothers, hne⟩ := lex_eq_ofWords source
  rw [hothers] at h hend ⊢
  exact congrArg ofWords (h.unique hne hwords hend)

end SolidityParser
