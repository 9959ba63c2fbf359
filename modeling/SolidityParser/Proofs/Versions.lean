import Mathlib
import SolidityParser.Proofs.Lexer.Lossless
import SolidityParser.Proofs.Lexer.Standing
import SolidityParser.Proofs.Literal.Version
import SolidityParser.Proofs.Production.Unread
import SolidityParser.Proofs.Spans

/-!
# Versions and the tokens they are made of

The versions in the value of a pragma are picked out of its text, comments included, without regard
to its tokens. **Theorem** (`Source.parse_versions_aligned_iff`): a version reaches from the start
of a token to the end of one exactly if no comment overlaps it, and each token that does is a
comparison or holds nothing but characters of versions. Where a comment or a name has such
characters in it, the version found there is none that was written
(`Source.parse_versions_commented`).
-/

namespace SolidityParser

open Pattern (isBlank)
open Text (byteLength)

/-- Two spans share a byte, or one of them is empty and inside the other. -/
def Span.Overlaps (span other : Span) : Prop := span.start < other.stop ∧ other.start < span.stop

/-- A version is written as one: only its own tokens are where it is. -/
structure VersionLiteral.Written (lexed : Lexed) (version : VersionLiteral) : Prop where
  /-- There is no comment. -/
  comments : ∀ c ∈ lexed.comments, ¬ c.span.Overlaps version.span
  /-- Each token is a comparison or holds nothing but characters of versions. -/
  tokens : ∀ t ∈ lexed.tokens.tokens.toList, t.span.Overlaps version.span →
    t.text.toList ∈ VersionLiteral.comparisons ∨
      ∀ c ∈ t.text.toList, VersionLiteral.isVersionChar c = true

/-! ### Pieces with the characters of versions -/

namespace VersionLiteral

/-- Characters of comparisons. -/
def isComparisonChar (c : Char) : Bool := c matches '>' | '<' | '^' | '~' | '='

/-- Characters that are found in a version with its comparison. -/
def isFoundChar (c : Char) : Bool := isComparisonChar c || isBlank c || isVersionChar c

/-- A part of a comparison is a comparison. -/
theorem mem_comparisons_of_infix {comparison part : List Char} (h : comparison ∈ comparisons)
    (hpart : part <:+: comparison) (hne : part ≠ []) : part ∈ comparisons := by
  have hall : ∀ comparison ∈ comparisons, ∀ rest ∈ comparison.tails, ∀ part ∈ rest.inits,
      part ≠ [] → part ∈ comparisons := by
    decide +kernel
  obtain ⟨rest, hprefix, hsuffix⟩ := List.infix_iff_prefix_suffix.mp hpart
  exact hall comparison h rest ((List.mem_tails _ _).mpr hsuffix) part
    ((List.mem_inits _ _).mpr hprefix) hne

/-- Only an equals sign comes second in a comparison, and it ends it. -/
theorem second_of_mem {u w : List Char} {c : Char} (h : u ++ c :: w ∈ comparisons) (hu : u ≠ []) :
    ∃ d, u = [d] ∧ c = '=' ∧ w = [] := by
  have hall : comparisons.all
      (fun comparison => comparison.length ≤ 2 && comparison.tail.all (· == '=')) = true := rfl
  have hcomparison := List.all_eq_true.mp hall _ h
  rw [Bool.and_eq_true, decide_eq_true_eq, List.all_eq_true] at hcomparison
  obtain ⟨hlength, hequals⟩ := hcomparison
  cases u with
  | nil => exact absurd rfl hu
  | cons d u =>
    simp only [List.cons_append, List.length_cons, List.length_append] at hlength
    obtain rfl : u = [] := List.eq_nil_of_length_eq_zero (by omega)
    obtain rfl : w = [] := List.eq_nil_of_length_eq_zero (by omega)
    exact ⟨d, rfl, beq_iff_eq.mp (hequals c (by simp)), rfl⟩

/-- A comparison that begins with an equals sign has nothing else. -/
theorem eq_nil_of_equals {cs : List Char} (h : '=' :: cs ∈ comparisons) : cs = [] := by
  simpa [comparisons] using h

/-- The signs of a comparison are characters of comparisons. -/
theorem isComparisonChar_of_mem {comparison : List Char} {c : Char} (h : comparison ∈ comparisons)
    (hc : c ∈ comparison) : isComparisonChar c = true := by
  have hall : comparisons.all (·.all isComparisonChar) = true := rfl
  exact List.all_eq_true.mp (List.all_eq_true.mp hall comparison h) c hc

/-- The kinds of characters exclude one another. -/
theorem isComparisonChar_cases {c : Char} (h : isComparisonChar c = true) :
    isBlank c = false ∧ isVersionChar c = false := by
  unfold isComparisonChar at h
  split at h <;> first | exact ⟨rfl, rfl⟩ | cases h

end VersionLiteral

open VersionLiteral

/-- Only symbols begin as comparisons do. -/
theorem Pattern.exists_symbol {pattern : Pattern} {c : Char} {cs : List Char}
    (hmem : pattern ∈ all) (hc : isComparisonChar c = true)
    (hpos : 0 < pattern.matchLength (c :: cs)) :
    ∃ symbol ∈ Kind.symbols, pattern = .symbol symbol := by
  rcases List.mem_append.mp hmem with hother | hsymbol
  · simp only [List.mem_cons, List.not_mem_nil, or_false] at hother
    unfold isComparisonChar at hc
    rcases hother with rfl | rfl | rfl | rfl | rfl | rfl | rfl | rfl | rfl | rfl | rfl | rfl <;>
      split at hc <;> first | exact absurd hpos (Nat.lt_irrefl 0) | cases hc
  · obtain ⟨symbol, hkind, rfl⟩ := List.mem_map.mp hsymbol
    exact ⟨symbol, hkind, rfl⟩

/-- A symbol that begins as a comparison does goes on as one, or has other characters in it. -/
theorem Kind.isComparisonChar_of_symbol :
    ∀ symbol ∈ Kind.symbols, symbol.text.toList.head?.all isComparisonChar = true →
      symbol.text.toList.all isFoundChar = true →
        symbol.text.toList.all isComparisonChar = true := by
  decide +kernel

namespace Lexer

variable {source : String} {text ds : List Char} {piece : Piece} {c : Char} {kind : Kind}

/-- A piece is at the front of a text that begins as it does. -/
theorem exists_front_of_piece (hmem : piece ∈ pieces text) (htext : piece.text = c :: ds) :
    ∃ rest, piece.sort = (front (c :: rest)).1 ∧
      c :: ds = (c :: rest).take (front (c :: rest)).2 := by
  obtain ⟨left, hne, -, rfl⟩ := (cuts_pieces text).front hmem
  obtain ⟨d, rest, rfl⟩ := List.exists_cons_of_ne_nil hne
  have hpos := CommentScan.front_pos hne
  obtain ⟨n, hn⟩ := Nat.exists_eq_succ_of_ne_zero (Nat.ne_of_gt hpos)
  obtain rfl : d = c := by
    dsimp only at htext
    rw [hn, List.take_succ_cons] at htext
    exact (List.cons.inj htext).1
  exact ⟨rest, rfl, htext.symm⟩

/-- No token begins with a blank. -/
theorem not_isBlank_of_piece (hmem : piece ∈ pieces text) (hsort : piece.sort = .token kind)
    (htext : piece.text = c :: ds) : isBlank c = false := by
  cases hblank : isBlank c with
  | false => rfl
  | true =>
    obtain ⟨rest, hfront, -⟩ := exists_front_of_piece hmem htext
    rw [front_of_isBlank hblank, hsort] at hfront
    cases hfront

/-- A piece that begins as a comparison does and has no characters but those found in a version has
only those of comparisons. -/
theorem isComparisonChar_of_piece (hmem : piece ∈ pieces text) (htext : piece.text = c :: ds)
    (hc : isComparisonChar c = true) (hall : ∀ d ∈ c :: ds, isFoundChar d = true) :
    ∀ d ∈ c :: ds, isComparisonChar d = true := by
  obtain ⟨rest, -, htake⟩ := exists_front_of_piece hmem htext
  unfold front at htake
  cases hfound : Pattern.longest? (c :: rest) with
  | none =>
    rw [hfound] at htake
    obtain ⟨-, rfl⟩ := List.cons.inj htake
    simpa using hc
  | some found =>
    obtain ⟨pattern, length⟩ := found
    obtain ⟨hpattern, hlength, hpos, -⟩ := Pattern.longest?_eq_some hfound
    obtain ⟨symbol, hsymbol, rfl⟩ := Pattern.exists_symbol hpattern hc (hlength ▸ hpos)
    obtain ⟨hfixed, after, hafter⟩ := Pattern.of_fixed_pos (hlength ▸ hpos)
    have hword : c :: ds = symbol.text.toList := by
      rw [hfound] at htake
      rw [htake, hafter]
      exact List.take_left' (hlength.trans hfixed).symm
    have hsymbols := Kind.isComparisonChar_of_symbol symbol hsymbol
    rw [← hword] at hsymbols
    exact List.all_eq_true.mp (hsymbols (by simpa using hc) (List.all_eq_true.mpr hall))

end Lexer

/-! ### Parts of a version -/

namespace VersionLiteral.Picks

variable {text before comparison gap version after x y ds : List Char} {c : Char}

/-- All that is found has characters of comparisons, blanks or characters of versions. -/
theorem isFoundChar (h : Picks text before comparison gap version after)
    (hc : c ∈ comparison ++ gap ++ version) : isFoundChar c = true := by
  unfold VersionLiteral.isFoundChar
  rw [Bool.or_eq_true, Bool.or_eq_true]
  rcases List.mem_append.mp hc with hc | hc
  · rcases List.mem_append.mp hc with hc | hc
    · rcases h.comparison_mem with hmem | ⟨rfl, -⟩
      · exact .inl (.inl (isComparisonChar_of_mem hmem hc))
      · cases hc
    · exact .inl (.inr (h.gap_blank c hc))
  · exact .inr (h.version_chars c hc)

/-- Before the version there is no character of one. -/
theorem not_isVersionChar (h : Picks text before comparison gap version after)
    (hc : c ∈ comparison ++ gap) : isVersionChar c = false := by
  rcases List.mem_append.mp hc with hc | hc
  · rcases h.comparison_mem with hmem | ⟨rfl, -⟩
    · exact not_isVersionChar_of_mem hmem hc
    · cases hc
  · cases hchar : isVersionChar c with
    | false => rfl
    | true =>
      have hblank := h.gap_blank c hc
      rw [isBlank_of_isVersionChar hchar] at hblank
      cases hblank

/-- After the comparison there is no character of one. -/
theorem not_isComparisonChar (h : Picks text before comparison gap version after)
    (hc : c ∈ gap ++ version) : isComparisonChar c = false := by
  cases hchar : isComparisonChar c with
  | false => rfl
  | true =>
    obtain ⟨hblank, hversion⟩ := isComparisonChar_cases hchar
    rcases List.mem_append.mp hc with hc | hc
    · rw [h.gap_blank c hc] at hblank
      cases hblank
    · rw [h.version_chars c hc] at hversion
      cases hversion

/-- A part that begins with a character of a version has no others. -/
theorem version_part (h : Picks text before comparison gap version after)
    (hpart : comparison ++ gap ++ version = x ++ (c :: ds ++ y)) (hc : isVersionChar c = true) :
    ∀ d ∈ c :: ds, isVersionChar d = true := by
  intro d hd
  rcases List.append_eq_append_iff.mp hpart with ⟨a, -, hversion⟩ | ⟨a, hfront, hrest⟩
  · refine h.version_chars d ?_
    rw [hversion]
    exact List.mem_append_right _ (List.mem_append_left _ hd)
  · cases a with
    | nil =>
      refine h.version_chars d ?_
      rw [show version = c :: ds ++ y from hrest.symm]
      exact List.mem_append_left _ hd
    | cons e a =>
      obtain ⟨rfl, -⟩ := List.cons.inj hrest
      rw [h.not_isVersionChar (hfront ▸ by simp)] at hc
      cases hc

/-- A part with nothing but characters of comparisons is a comparison. -/
theorem comparison_part (h : Picks text before comparison gap version after)
    (hpart : comparison ++ gap ++ version = x ++ (c :: ds ++ y))
    (hall : ∀ d ∈ c :: ds, isComparisonChar d = true) : c :: ds ∈ comparisons := by
  have hmem (hwithin : c :: ds <:+: comparison) : c :: ds ∈ comparisons := by
    rcases h.comparison_mem with hmem | ⟨rfl, -⟩
    · exact mem_comparisons_of_infix hmem hwithin (by simp)
    · exact absurd (List.infix_nil.mp hwithin) (by simp)
  rw [List.append_assoc, ← List.append_assoc x] at hpart
  rcases List.append_eq_append_iff.mp hpart with ⟨a, hfront, hrest⟩ | ⟨a, rfl, -⟩
  · -- the last character would belong to the gap or the version
    rcases List.eq_nil_or_concat a with rfl | ⟨init, last, rfl⟩
    · exact hmem ⟨x, [], by rw [List.append_nil, hfront, List.append_nil]⟩
    · have hlast : last ∈ c :: ds := by
        exact List.mem_of_getLast? (by simpa using congrArg List.getLast? hfront)
      have hchar := h.not_isComparisonChar (c := last) (hrest ▸ by simp)
      rw [hall last hlast] at hchar
      cases hchar
  · exact hmem ⟨x, a, rfl⟩

/-- A version that begins with a character of one has no comparison. -/
theorem eq_nil_of_isVersionChar (h : Picks text before comparison gap version after)
    (hfound : comparison ++ gap ++ version = c :: ds) (hc : isVersionChar c = true) :
    comparison = [] := by
  cases comparison with
  | nil => rfl
  | cons d comparison =>
    obtain ⟨rfl, -⟩ := List.cons.inj hfound
    rw [h.not_isVersionChar (by simp)] at hc
    cases hc

/-- A version that begins with an equals sign has that for its comparison. -/
theorem eq_equals_of_first (h : Picks text before comparison gap version after)
    (hfound : comparison ++ gap ++ version = '=' :: ds) : comparison = ['='] := by
  rcases h.comparison_mem with hmem | ⟨rfl, rfl⟩
  · cases comparison with
    | nil => exact absurd hmem (by decide)
    | cons e comparison =>
      obtain ⟨rfl, -⟩ := List.cons.inj hfound
      rw [eq_nil_of_equals hmem]
  · have hchar := h.version_chars '=' (by
      rw [show version = '=' :: ds from hfound]
      exact .head _)
    exact absurd hchar (by decide)

/-- A piece that has the first character of a version begins with it. -/
theorem eq_nil_of_first (h : Picks text before comparison gap version after) {u w : List Char}
    (hfound : comparison ++ gap ++ version = c :: ds) (hbefore : u <:+ before)
    (hpiece : u ++ c :: w ∈ comparisons ∨ ∀ d ∈ u ++ c :: w, isVersionChar d = true) : u = [] := by
  rcases List.eq_nil_or_concat u with rfl | ⟨init, d, rfl⟩
  · rfl
  exfalso
  have hlast : d ∈ before.getLast? := by
    obtain ⟨more, rfl⟩ := hbefore
    simp
  rcases hpiece with hpiece | hpiece
  · -- the comparison would begin with the other piece's first character
    obtain ⟨e, hu, rfl, rfl⟩ := second_of_mem hpiece (by simp)
    have hsingle : init ++ [d] = [] ++ [e] := by simpa using hu
    obtain ⟨rfl, hd⟩ := List.append_inj' hsingle rfl
    obtain ⟨rfl, -⟩ := List.cons.inj hd
    refine h.longest d hlast ?_
    rw [h.eq_equals_of_first hfound]
    exact hpiece
  · have hchar := h.starts (h.eq_nil_of_isVersionChar hfound (hpiece c (by simp))) d hlast
    rw [hpiece d (by simp)] at hchar
    cases hchar

/-- A version does not begin with a blank. -/
theorem not_isBlank_first (h : Picks text before comparison gap version after)
    (hfound : comparison ++ gap ++ version = c :: ds) : isBlank c = false := by
  rcases h.comparison_mem with hmem | ⟨rfl, rfl⟩
  · cases comparison with
    | nil => exact absurd hmem (by decide)
    | cons d comparison =>
      obtain ⟨rfl, -⟩ := List.cons.inj hfound
      exact (isComparisonChar_cases (isComparisonChar_of_mem hmem (.head _))).1
  · refine isBlank_of_isVersionChar (h.version_chars c ?_)
    rw [show version = c :: ds from hfound]
    exact .head _

/-- A version ends with a character of one. -/
theorem isVersionChar_last (h : Picks text before comparison gap version after)
    (hfound : comparison ++ gap ++ version = x ++ [c]) : isVersionChar c = true := by
  refine h.version_chars c (List.mem_of_getLast? ?_)
  have hlast := congrArg List.getLast? hfound
  rwa [List.getLast?_append, List.getLast?_eq_some_getLast h.version_ne_nil, Option.some_or,
    List.getLast?_concat, ← List.getLast?_eq_some_getLast h.version_ne_nil] at hlast

/-- A piece that has the last character of a version ends with it. -/
theorem eq_nil_of_last (h : Picks text before comparison gap version after) {u w : List Char}
    (hfound : comparison ++ gap ++ version = x ++ [c]) (hafter : w <+: after)
    (hpiece : u ++ c :: w ∈ comparisons ∨ ∀ d ∈ u ++ c :: w, isVersionChar d = true) : w = [] := by
  cases w with
  | nil => rfl
  | cons d w =>
    exfalso
    have hc := h.isVersionChar_last hfound
    rcases hpiece with hpiece | hpiece
    · rw [not_isVersionChar_of_mem hpiece (by simp)] at hc
      cases hc
    · obtain ⟨more, rfl⟩ := hafter
      have hchar := h.stops d rfl
      rw [hpiece d (by simp)] at hchar
      cases hchar

end VersionLiteral.Picks

/-! ### Versions among the pieces of a source -/

/-- The end of the input is the last token. -/
theorem TokenList.Placed.eq_ending {list : TokenList} {size i : Nat} {t : Token}
    (h : list.Placed size) (ht : list.get? i = some t) (hkind : t.kind = .eof) :
    t = .ending size := by
  have hi := lt_size ht
  by_cases hlast : i + 1 = list.size
  · obtain rfl : i = list.size - 1 := by omega
    exact Option.some.inj (ht.symm.trans h.last)
  · exact absurd hkind (h.ne_eof i t ht (by omega))

namespace Lexer

variable {text : List Char} {piece : Piece}

/-- No piece is empty. -/
theorem ne_nil_of_pieces {left right : List Piece} (h : pieces text = left ++ piece :: right) :
    piece.text ≠ [] :=
  List.length_pos_iff.mp (solid_pieces text piece (by simp [h])).1

/-- A span that begins where a token does begins where a piece does. -/
theorem exists_pieces_of_start {source : String} {span : Span} {i j : Nat}
    (hruns : (lex source).tokens.Runs i span j) :
    ∃ l piece r, pieces source.toList = l ++ piece :: r ∧
      (spanAfter l piece).start = span.start := by
  obtain ⟨t, ht, hstart⟩ := hruns.start
  have hkind := (lex_placed source).ne_eof i t ht (Nat.lt_of_le_of_lt hruns.lt hruns.next_lt)
  obtain ⟨l, piece, r, hl, -, -, -, hspan⟩ := exists_pieces_of_get? ht hkind
  exact ⟨l, piece, r, hl, hspan ▸ hstart⟩

/-- A span that ends where a token does ends where a piece does. -/
theorem exists_pieces_of_stop {source : String} {span : Span} {i j : Nat}
    (hruns : (lex source).tokens.Runs i span j) :
    ∃ l piece r, pieces source.toList = l ++ piece :: r ∧ (spanAfter l piece).stop = span.stop := by
  obtain ⟨t, ht, hstop⟩ := hruns.stop
  have hlt : j - 1 + 1 < (lex source).tokens.size :=
    Nat.sub_add_cancel (Nat.lt_of_le_of_lt (Nat.zero_le i) hruns.lt) ▸ hruns.next_lt
  have hkind := (lex_placed source).ne_eof (j - 1) t ht hlt
  obtain ⟨l, piece, r, hl, -, -, -, hspan⟩ := exists_pieces_of_get? ht hkind
  exact ⟨l, piece, r, hl, hspan ▸ hstop⟩

/-- Where a version is written as one, a piece there with a character that is not blank is a
token. -/
theorem isToken_of_written {source : String} {l r : List Piece} {v : VersionLiteral} {c : Char}
    (hwritten : v.Written (lex source)) (hl : pieces source.toList = l ++ piece :: r)
    (hoverlaps : (spanAfter l piece).Overlaps v.span) (hmem : c ∈ piece.text)
    (hc : isBlank c = false) : ∃ kind, piece.sort = .token kind := by
  have hholds := pieces_hold source.toList piece (by simp [hl])
  cases hsort : piece.sort with
  | token kind => exact ⟨kind, rfl⟩
  | blank =>
    rw [hsort] at hholds
    rw [hholds c hmem] at hc
    cases hc
  | comment kind =>
    exact absurd hoverlaps (hwritten.comments _ (comment_mem_of_pieces hl hsort))

/-- A comment has a slash. -/
theorem slash_mem_of_comment {kind : CommentKind} (hmem : piece ∈ pieces text)
    (hsort : piece.sort = .comment kind) : '/' ∈ piece.text := by
  have hholds := pieces_hold text piece hmem
  rw [hsort] at hholds
  cases kind with
  | line | block =>
    obtain ⟨body, hbody, -⟩ := hholds
    simp [hbody]

section Picked

variable {source : String} {left middle right l r : List Piece} {piece : Piece}
  {before comparison gap version after x y : List Char} {c : Char} {v : VersionLiteral}
  (hpieces : pieces source.toList = left ++ (middle ++ right))
  (hpicks : Picks (middle.flatMap (·.text)) before comparison gap version after)
  (hspan : v.span = ⟨byteLength (left.flatMap (·.text)) + byteLength before,
    byteLength (left.flatMap (·.text)) + byteLength before +
      byteLength (comparison ++ gap ++ version)⟩)

include hpieces hpicks hspan

/-- Where a version is written as one, each character of it that is not blank is in a token. -/
theorem exists_token_of_written (hwritten : v.Written (lex source))
    (hfound : comparison ++ gap ++ version = x ++ c :: y) (hc : isBlank c = false) :
    ∃ l piece r kind u w, pieces source.toList = l ++ piece :: r ∧ piece.sort = .token kind ∧
      piece.text = u ++ c :: w ∧ u <:+ before ++ x ∧ w <+: y ++ after ∧
      (spanAfter l piece).start + byteLength u = v.span.start + byteLength x ∧
      (piece.text ∈ comparisons ∨ ∀ d ∈ piece.text, isVersionChar d = true) := by
  have htext : middle.flatMap (·.text) = (before ++ x) ++ c :: (y ++ after) := by
    rw [hpicks.text_eq, hfound]
    simp
  obtain ⟨l, piece, r, u, w, rfl, hpiece, hbefore, hafter⟩ := exists_standing middle htext
  have hall : pieces source.toList = (left ++ l) ++ piece :: (r ++ right) := by simp [hpieces]
  have hbytes := congrArg byteLength hbefore
  have hmore := Text.byteLength_pos (List.cons_ne_nil c [])
  rw [hfound] at hspan
  have hstart : (spanAfter (left ++ l) piece).start + byteLength u =
      v.span.start + byteLength x := by
    simp only [spanAfter, hspan, List.flatMap_append, Text.byteLength_append] at hbytes ⊢
    omega
  have hoverlaps : (spanAfter (left ++ l) piece).Overlaps v.span := by
    rw [List.append_cons x c y, List.append_cons] at *
    simp only [Span.Overlaps, spanAfter, hspan, hpiece, Text.byteLength_append] at hstart ⊢
    omega
  obtain ⟨kind, hsort⟩ := isToken_of_written hwritten hall hoverlaps (by simp [hpiece]) hc
  have htoken := hwritten.tokens _
    (Array.mem_toList_iff.mpr (Array.mem_of_getElem? (get?_of_pieces hall hsort))) hoverlaps
  rw [String.toList_ofList] at htoken
  exact ⟨_, piece, _, kind, u, w, hall, hsort, hpiece, ⟨_, hbefore.symm⟩, ⟨_, hafter.symm⟩, hstart,
    htoken⟩

/-- A version that is written as one begins where a token does. -/
theorem exists_start_of_written (hwritten : v.Written (lex source)) :
    ∃ l p r kind, pieces source.toList = l ++ p :: r ∧ p.sort = .token kind ∧
      (spanAfter l p).start = v.span.start := by
  obtain ⟨c, ds, hfirst⟩ : ∃ c ds, comparison ++ gap ++ version = c :: ds :=
    List.exists_cons_of_ne_nil (by simp [hpicks.version_ne_nil])
  obtain ⟨l, p, r, kind, u, w, hl, hsort, htext, hbefore, -, hstart, hpiece⟩ :=
    exists_token_of_written hpieces hpicks hspan hwritten (x := []) hfirst
      (hpicks.not_isBlank_first hfirst)
  rw [List.append_nil] at hbefore
  obtain rfl := hpicks.eq_nil_of_first hfirst hbefore (htext ▸ hpiece)
  exact ⟨l, p, r, kind, hl, hsort, hstart⟩

/-- It ends where a token does. -/
theorem exists_stop_of_written (hwritten : v.Written (lex source)) :
    ∃ l p r kind, pieces source.toList = l ++ p :: r ∧ p.sort = .token kind ∧
      (spanAfter l p).stop = v.span.stop := by
  obtain ⟨x, d, hlast⟩ : ∃ x d, comparison ++ gap ++ version = x ++ [d] := by
    rcases List.eq_nil_or_concat version with hnil | ⟨init, d, rfl⟩
    · exact absurd hnil hpicks.version_ne_nil
    · exact ⟨comparison ++ gap ++ init, d, by simp⟩
  obtain ⟨l, p, r, kind, u, w, hl, hsort, htext, -, hafter, hstart, hpiece⟩ :=
    exists_token_of_written hpieces hpicks hspan hwritten (y := []) hlast
      (isBlank_of_isVersionChar (hpicks.isVersionChar_last hlast))
  obtain rfl := hpicks.eq_nil_of_last hlast hafter (htext ▸ hpiece)
  refine ⟨l, p, r, kind, hl, hsort, ?_⟩
  have hbytes : byteLength p.text = byteLength u + byteLength [d] := by
    rw [htext, Text.byteLength_append]
  simp only [hspan, hlast, spanAfter, Text.byteLength_append] at hstart ⊢
  omega

/-- A version that is written as one reaches from the start of a token to the end of one. -/
theorem runs_of_written (hwritten : v.Written (lex source)) :
    ∃ i j, (lex source).tokens.Runs i v.span j := by
  have hp := lex_placed source
  obtain ⟨l, p, r, kind, hl, hsort, hfrom⟩ :=
    exists_start_of_written hpieces hpicks hspan hwritten
  obtain ⟨l', p', r', kind', hl', hsort', hupto⟩ :=
    exists_stop_of_written hpieces hpicks hspan hwritten
  have htoken := get?_of_pieces hl hsort
  have htoken' := get?_of_pieces hl' hsort'
  have hne : v.span.start < v.span.stop := by
    have hmore := Text.byteLength_pos hpicks.version_ne_nil
    simp only [hspan, Text.byteLength_append]
    omega
  refine ⟨tokenCount l, tokenCount l' + 1, ⟨?_, ?_, ⟨_, htoken, hfrom⟩, ⟨_, htoken', hupto⟩⟩⟩
  · -- otherwise the version would end before it begins
    rcases Nat.lt_or_ge (tokenCount l') (tokenCount l) with hlt | hle
    · have hordered := hp.ordered _ _ _ _ hlt htoken' htoken
      dsimp only at hordered
      omega
    · omega
  · refine hp.succ_lt_size ?_
    rw [TokenList.kindAt_lexemes htoken']
    rintro rfl
    exact (solid_pieces source.toList p' (by simp [hl'])).2 hsort'

omit hpieces hpicks hspan in
/-- A piece that overlaps a version from the start of a token to the end of one is inside it. -/
theorem inside_of_runs {i j : Nat} (hruns : (lex source).tokens.Runs i v.span j)
    (hl : pieces source.toList = l ++ piece :: r)
    (hoverlaps : (spanAfter l piece).Overlaps v.span) :
    v.span.start ≤ (spanAfter l piece).start ∧ (spanAfter l piece).stop ≤ v.span.stop := by
  obtain ⟨l₀, p₀, r₀, hl₀, hfrom⟩ := exists_pieces_of_start hruns
  obtain ⟨l₁, p₁, r₁, hl₁, hupto⟩ := exists_pieces_of_stop hruns
  obtain ⟨hbefore, hafter⟩ := hoverlaps
  constructor
  · rcases Nat.lt_or_ge (spanAfter l piece).start v.span.start with hlt | hle
    · have hstop := stop_le_of_start_lt (hl.symm.trans hl₀) (hfrom ▸ hlt)
      omega
    · exact hle
  · rcases Nat.lt_trichotomy (spanAfter l piece).start (spanAfter l₁ p₁).start with hlt | heq | hgt
    · have hle := stop_le_of_start_lt (hl.symm.trans hl₁) hlt
      have hforward : (spanAfter l₁ p₁).start ≤ (spanAfter l₁ p₁).stop := Nat.le_add_right _ _
      omega
    · obtain rfl := eq_of_start_eq (hl.symm.trans hl₁) (ne_nil_of_pieces hl)
        (ne_nil_of_pieces hl₁) heq
      simp only [spanAfter] at heq hupto ⊢
      omega
    · have hle := stop_le_of_start_lt (hl₁.symm.trans hl) hgt
      omega

/-- So it is a part of its text. -/
theorem exists_part_of_runs {i j : Nat} (hruns : (lex source).tokens.Runs i v.span j)
    (hl : pieces source.toList = l ++ piece :: r)
    (hoverlaps : (spanAfter l piece).Overlaps v.span) :
    ∃ x y, comparison ++ gap ++ version = x ++ (piece.text ++ y) := by
  obtain ⟨hstart, hstop⟩ := inside_of_runs hruns hl hoverlaps
  -- the piece and the version are cut out of one text
  have htext := (cuts_pieces source.toList).text_eq
  have hpiece : l.flatMap (·.text) ++ piece.text <+: source.toList := by
    rw [htext, hl]
    exact ⟨r.flatMap (·.text), by simp⟩
  have hfound : left.flatMap (·.text) ++ before ++ (comparison ++ gap ++ version) <+:
      source.toList := by
    rw [htext, hpieces, List.flatMap_append, List.flatMap_append, hpicks.text_eq]
    exact ⟨after ++ right.flatMap (·.text), by simp⟩
  simp only [hspan, spanAfter, ← Text.byteLength_append] at hstart hstop
  obtain ⟨x, hx⟩ := Text.prefix_of_byteLength_le ((List.prefix_append _ _).trans hfound)
    ((List.prefix_append _ _).trans hpiece) hstart
  obtain ⟨y, hy⟩ := Text.prefix_of_byteLength_le hpiece hfound hstop
  refine ⟨x, y, List.append_cancel_left (hy.symm.trans ?_)⟩
  rw [← hx]
  simp only [List.append_assoc]

/-- A token that overlaps a version from the start of a token to the end of one is a comparison or
holds nothing but characters of versions. -/
theorem token_of_runs {i j : Nat} (hruns : (lex source).tokens.Runs i v.span j)
    (hl : pieces source.toList = l ++ piece :: r) {kind : Kind} (hsort : piece.sort = .token kind)
    (hoverlaps : (spanAfter l piece).Overlaps v.span) :
    piece.text ∈ comparisons ∨ ∀ c ∈ piece.text, isVersionChar c = true := by
  obtain ⟨x, y, hpart⟩ := exists_part_of_runs hpieces hpicks hspan hruns hl hoverlaps
  have hmem : piece ∈ pieces source.toList := by simp [hl]
  obtain ⟨c, ds, hcons⟩ := List.exists_cons_of_ne_nil (ne_nil_of_pieces hl)
  rw [hcons] at hpart ⊢
  have hfound (d : Char) (hd : d ∈ c :: ds) : isFoundChar d = true := by
    refine hpicks.isFoundChar ?_
    rw [hpart]
    exact List.mem_append_right _ (List.mem_append_left _ hd)
  have hc := hfound c (.head _)
  unfold isFoundChar at hc
  rw [not_isBlank_of_piece hmem hsort hcons, Bool.or_false, Bool.or_eq_true] at hc
  rcases hc with hc | hc
  · have hall := isComparisonChar_of_piece hmem hcons hc hfound
    exact .inl (hpicks.comparison_part hpart hall)
  · exact .inr (hpicks.version_part hpart hc)

/-- Where a version reaches from the start of a token to the end of one, it is written as one. -/
theorem written_of_runs {i j : Nat} (hruns : (lex source).tokens.Runs i v.span j) :
    v.Written (lex source) := by
  constructor
  case comments =>
    intro comment hmem hoverlaps
    obtain ⟨l, piece, r, hl, hsort, hat⟩ := exists_pieces_of_comment hmem
    rw [hat] at hoverlaps
    obtain ⟨x, y, hpart⟩ := exists_part_of_runs hpieces hpicks hspan hruns hl hoverlaps
    have hmem' : piece ∈ pieces source.toList := by simp [hl]
    have hslash : '/' ∈ comparison ++ gap ++ version := by
      rw [hpart]
      exact List.mem_append_right _ (List.mem_append_left _ (slash_mem_of_comment hmem' hsort))
    exact absurd (hpicks.isFoundChar hslash) (by decide)
  case tokens =>
    intro t hmem hoverlaps
    obtain ⟨n, ht⟩ := List.mem_iff_getElem?.mp hmem
    rw [Array.getElem?_toList] at ht
    by_cases hkind : t.kind = .eof
    · -- the end of the input has no text
      obtain rfl := (lex_placed source).eq_ending ht hkind
      exact .inr nofun
    · obtain ⟨l, piece, r, hl, -, hsort, htext, hat⟩ := exists_pieces_of_get? ht hkind
      rw [hat] at hoverlaps
      rw [← htext]
      exact token_of_runs hpieces hpicks hspan hruns hl hsort hoverlaps

end Picked

end Lexer

/-! ### Versions in the pragmas of a source -/

namespace Source

variable {source : String} {place : Extent}

/-- The span of a token in a layout is its own. -/
theorem span_of_get? {n : Nat} {t : Token} (h : (lex source).tokens.get? n = some t) :
    (layout source).tokens.span n = t.span := by
  rw [layout, TokenList.span, h]

/-- Before a token ends the one before it. -/
theorem spanBefore_of_get? {n : Nat} {t : Token} (hpos : 0 < n)
    (h : (lex source).tokens.get? (n - 1) = some t) :
    (layout source).tokens.spanBefore n = t.span := by
  rw [TokenList.spanBefore, if_neg (Nat.ne_of_gt hpos), span_of_get? h]

/-- The tokens of an extent are pieces of the source that have the text of the extent. -/
theorem exists_pieces_of_extent (hlt : place.first < place.next)
    (hnext : place.next < (lex source).tokens.size) : ∃ left middle right,
    Lexer.pieces source.toList = left ++ (middle ++ right) ∧
      ((layout source).span place).start = byteLength (left.flatMap (·.text)) ∧
      (layout source).passage place = middle.flatMap (·.text) := by
  have hsize : (lex source).tokens.size = Lexer.tokenCount (Lexer.pieces source.toList) + 1 :=
    Lexer.lexText_size source.toList
  obtain ⟨left, middle, right, hpieces, -, -, ⟨s, hs, hstart⟩, ⟨t, ht, hstop⟩⟩ :=
    Lexer.exists_pieces hlt (Nat.le_of_lt_succ (hsize ▸ hnext))
  rw [← Lexer.lexText_get?] at hs ht
  have hspan : (layout source).span place = ⟨byteLength (left.flatMap (·.text)),
      byteLength (left.flatMap (·.text)) + byteLength (middle.flatMap (·.text))⟩ := by
    rw [Layout.span, span_of_get? hs, spanBefore_of_get? (Nat.zero_lt_of_lt hlt) ht, hstart, hstop,
      Nat.max_eq_left (Nat.le_add_right _ _)]
  refine ⟨left, middle, right, hpieces, by rw [hspan], ?_⟩
  have htext := (Lexer.cuts_pieces source.toList).text_eq
  rw [hpieces, List.append_nil, List.flatMap_append, List.flatMap_append] at htext
  rw [Layout.passage, hspan, Text.slice, layout, htext, Text.slice?_append, Option.getD_some]

/-- An extent without tokens has no text. -/
theorem passage_of_eq (hpos : 0 < place.first) (heq : place.next = place.first)
    (hfirst : place.first < (lex source).tokens.size) : (layout source).passage place = [] := by
  obtain ⟨s, hs⟩ := (lex source).tokens.exists_get? (show place.first - 1 < _ by omega)
  obtain ⟨t, ht⟩ := (lex source).tokens.exists_get? hfirst
  have hordered := (lex_placed source).ordered _ _ s t (by omega) hs ht
  have hlength : ((layout source).span place).length = 0 := by
    rw [Layout.span, heq, span_of_get? ht, spanBefore_of_get? hpos hs, Nat.max_eq_right hordered]
    exact Nat.sub_self _
  have hbytes := Text.byteLength_slice_le (layout source).text ((layout source).span place)
  cases hpassage : (layout source).passage place with
  | nil => rfl
  | cons c cs =>
    have hmore := Text.byteLength_pos (List.cons_ne_nil c cs)
    rw [← hpassage, Layout.passage] at hmore
    omega

/-- A version in the value of a pragma begins where a token does and ends where a token does exactly
if it is written as one. -/
theorem runs_iff_written {v : VersionLiteral}
    (hv : v ∈ ((layout source).pragmaValue place).versions) (hpos : 0 < place.first)
    (hle : place.first ≤ place.next)
    (hnext : place.next < (lex source).tokens.size) :
    (∃ i j, (lex source).tokens.Runs i v.span j) ↔ v.Written (lex source) := by
  obtain ⟨before, comparison, gap, version, after, hpicks, hparts⟩ :=
    VersionLiteral.exists_picks (Layout.mem_scan hv)
  have hspan := congrArg VersionLiteral.span hparts
  change v.span = ⟨_, _⟩ at hspan
  have hlt : place.first < place.next := by
    rcases Nat.eq_or_lt_of_le hle with heq | hlt
    · have htext := hpicks.text_eq
      rw [passage_of_eq hpos heq.symm (heq ▸ hnext)] at htext
      exact absurd htext.symm (by simp [hpicks.version_ne_nil])
    · exact hlt
  obtain ⟨left, middle, right, hpieces, hstart, hpassage⟩ := exists_pieces_of_extent hlt hnext
  rw [hstart] at hspan
  rw [hpassage] at hpicks
  exact ⟨fun ⟨_, _, hruns⟩ => Lexer.written_of_runs hpieces hpicks hspan hruns,
    Lexer.runs_of_written hpieces hpicks hspan⟩

/-- A version in a pragma of a program reaches from the start of a token to the end of one exactly
if it is written as one. -/
theorem parse_versions_aligned_iff {tolerant : Bool} {program : Program}
    (h : parse source tolerant = .ok program) :
    ∀ u ∈ program.body, ∀ value ∈ (Part.unit u).values, ∀ version ∈ value.versions,
      (∃ i j, (lex source).tokens.Runs i version.span j) ↔ version.Written (lex source) := by
  have hp : (layout source).tokens.Placed (Text.byteLength source.toList) := lex_placed source
  obtain ⟨-, units, hunits, rfl⟩ := parse_eq_ok_iff.mp h
  obtain ⟨-, -, -, hstands, -⟩ := Grammar.parseUnits_isSource (lex_wellSpelled source) hunits
  refine List.forall_mem_map.mpr fun u hu value hvalue version hversion => ?_
  have hvalues := Part.values_relocate (layout source).relocation (.unit u)
  rw [show (Part.unit u).relocate (layout source).relocation =
    .unit (u.relocate (layout source).relocation) from rfl] at hvalues
  rw [hvalues] at hvalue
  obtain ⟨place, hplace, rfl⟩ := List.mem_map.mp hvalue
  cases u with
  | pragma directive =>
    obtain rfl := List.mem_singleton.mp hplace
    have hhere := (hstands _ hu).here
    obtain ⟨-, -, hfirst, hle, hnext, -⟩ := hhere.pragma
    have hlt : directive.place.next < (lex source).tokens.size :=
      (Layout.runs_span hp hhere.covers).next_lt
    exact runs_iff_written hversion (by omega) (by omega) (by omega)
  | _ => cases hplace

/-- A pragma with a comment between its versions. -/
def commentedPragma : String := "pragma solidity >=0.4.0 /* or */ <0.9.0;"

/-- What it parses to: the second version is the first asterisk of the comment. -/
def commentedProgram : Program :=
  ⟨⟨0, 40⟩, [.pragma ⟨⟨0, 40⟩, "solidity", ⟨">=0.4.0 /* or */ <0.9.0",
    some ⟨some ">=", "0.4.0", ⟨16, 23⟩⟩, some ⟨none, "*", ⟨25, 26⟩⟩⟩⟩]⟩

/-- The pragma with a comment is parsed. -/
theorem parse_commentedPragma : parse commentedPragma false = .ok commentedProgram := by
  rw [commentedPragma, parse, read_ofList_of_le (by decide)]
  cbv

/-- The versions of a pragma with a comment. -/
theorem parse_versions_aligned_iff_commented :
    parse commentedPragma false = .ok commentedProgram ∧
      ∀ u ∈ commentedProgram.body, ∀ value ∈ (Part.unit u).values, ∀ version ∈ value.versions,
        (∃ i j, (lex commentedPragma).tokens.Runs i version.span j) ↔
          version.Written (lex commentedPragma) :=
  ⟨parse_commentedPragma, parse_versions_aligned_iff parse_commentedPragma⟩

/-- A version that is found in a comment, where no token begins. -/
theorem parse_versions_commented :
    parse commentedPragma false = .ok commentedProgram ∧
      ∃ u ∈ commentedProgram.body, ∃ value ∈ (Part.unit u).values, ∃ version ∈ value.versions,
        ¬ ∃ i j, (lex commentedPragma).tokens.Runs i version.span j := by
  refine ⟨parse_commentedPragma, _, .head _, _, .head _, ⟨none, "*", ⟨25, 26⟩⟩, .tail _ (.head _),
    ?_⟩
  rintro ⟨i, j, -, -, ⟨t, ht, hstart⟩, -⟩
  have hnone : ∀ t ∈ (lex commentedPragma).tokens.tokens.toList, t.span.start ≠ 25 := by
    rw [commentedPragma, lex_ofList]
    decide +kernel
  exact hnone t (Array.mem_toList_iff.mpr (Array.mem_of_getElem? ht)) hstart

end Source

end SolidityParser
