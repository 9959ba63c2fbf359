import SolidityParser.Proofs.Lexer.Pattern

/-!
# The scan for comments agrees with the lexer

**Theorem** (`scanComments_eq_lex`): the comments that `scanComments` finds without cutting the
text into tokens are those of `lex`, in kind, text, place and order.

The scan stops at marks, the lexer at the ends of pieces, and the two sets of places differ: one
piece may hold no mark, a mark and a tail (`/=`), or a prefix and a mark (`hex"`). They are kept in
step by `inStep_front`: to scan a text is to scan what the lexer leaves after its first piece, with
the comment that the piece is put in front. An open block comment is one error piece up to the end
for the lexer and the end of the scan, so the two agree there as well.
-/

namespace SolidityParser

namespace Text

@[simp] theorem byteLength_nil : byteLength [] = 0 := rfl

@[simp] theorem byteLength_append (left right : List Char) :
    byteLength (left ++ right) = byteLength left + byteLength right := by
  induction left with
  | nil => simp
  | cons c left ih => simp [byteLength, ih, Nat.add_assoc]

end Text

/-- The kind of comment that a piece is, if it is one. -/
def PieceSort.comment? : PieceSort → Option CommentKind
  | .comment kind => some kind
  | .blank | .token _ => none

namespace CommentScan

variable {c : Char} {text before rest : List Char} {kind? : Option CommentKind}
  {offset fuel length : Nat}

/-! ### From mark to mark -/

/-- What the scan meets at a mark: the kind of comment that begins there, if one does, and how far
the scan goes on. None at the end of the text, and where a block comment stays open. -/
def stride? : List Char → Option (Option CommentKind × Nat)
  | [] => none
  | '/' :: '/' :: body => some (some .line, Delimiter.lineCommentEnd body + 2)
  | '/' :: '*' :: body =>
    (Delimiter.blockCommentEnd? body).map fun inner => (some .block, inner + 2)
  | '/' :: _ => some (none, 1)
  | quote :: body => some (none, (Delimiter.stringEnd? quote body).getD 0 + 1)

/-- The comment of `length` characters at the front of a text, if it has a kind. -/
def found (kind? : Option CommentKind) (offset length : Nat) (text : List Char) : List Comment :=
  (kind?.map (commentAt · offset length text)).toList

@[simp] theorem found_none : found none offset length text = [] := rfl

@[simp] theorem stride?_line (body : List Char) :
    stride? ('/' :: '/' :: body) = some (some .line, Delimiter.lineCommentEnd body + 2) := rfl

@[simp] theorem stride?_block (body : List Char) :
    stride? ('/' :: '*' :: body) =
      (Delimiter.blockCommentEnd? body).map fun inner => (some .block, inner + 2) := by
  rfl

/-- A slash that begins no comment is passed by itself. -/
theorem stride?_slash (hline : ∀ body, text ≠ '/' :: body) (hblock : ∀ body, text ≠ '*' :: body) :
    stride? ('/' :: text) = some (none, 1) := by
  unfold stride?
  split <;> simp_all
  next hquote he => exact absurd he.1.symm hquote

/-- A string is passed as a whole, and a quote that no other closes is passed by itself. -/
theorem stride?_quote (h : c ≠ '/') (body : List Char) :
    stride? (c :: body) = some (none, (Delimiter.stringEnd? c body).getD 0 + 1) := by
  unfold stride?
  split <;> simp_all

/-- The scan moves on from each mark. -/
theorem stride?_pos (h : stride? text = some (kind?, length)) : 0 < length := by
  unfold stride? at h
  split at h <;> simp at h <;> omega

/-- One round of the scan, in terms of what it meets at the next mark. -/
theorem commentsAtFuel_succ (fuel offset : Nat) (text : List Char) :
    commentsAtFuel (fuel + 1) offset text =
      match stride? (text.dropWhile (!isMark ·)) with
      | none => []
      | some (kind?, length) =>
        let here := offset + Text.byteLength (text.takeWhile (!isMark ·))
        let marked := text.dropWhile (!isMark ·)
        found kind? here length marked ++ commentsAtFuel fuel
          (here + Text.byteLength (marked.take length)) (marked.drop length) := by
  conv => lhs; unfold commentsAtFuel
  generalize text.dropWhile (!isMark ·) = marked
  split
  · rfl
  · rfl
  · next body =>
    rw [stride?_block]
    cases Delimiter.blockCommentEnd? body <;> rfl
  · next body hline hblock =>
    rw [stride?_slash hline hblock]
    rfl
  · next quote body _ _ hquote =>
    rw [stride?_quote hquote]
    rfl

@[simp] theorem commentsAtFuel_nil (fuel offset : Nat) : commentsAtFuel fuel offset [] = [] := by
  cases fuel <;> rfl

/-- Rounds beyond the length of the text change nothing. -/
theorem commentsAtFuel_congr {m n : Nat} (hm : text.length ≤ m)
    (hn : text.length ≤ n) :
    commentsAtFuel m offset text = commentsAtFuel n offset text := by
  induction m generalizing n offset text with
  | zero =>
    rw [List.length_eq_zero_iff.mp (Nat.le_zero.mp hm)]
    simp
  | succ m ih =>
    cases n with
    | zero =>
      rw [List.length_eq_zero_iff.mp (Nat.le_zero.mp hn)]
      simp
    | succ n =>
      rw [commentsAtFuel_succ, commentsAtFuel_succ]
      cases hstride : stride? (text.dropWhile (!isMark ·)) with
      | none => rfl
      | some step =>
        obtain ⟨kind?, length⟩ := step
        have hpos := stride?_pos hstride
        have hle : (text.dropWhile (!isMark ·)).length ≤ text.length :=
          (List.dropWhile_sublist _).length_le
        dsimp only
        rw [ih (n := n) (by simp; omega) (by simp; omega)]

/-- The comments that the scan finds in a text that begins at `offset`. -/
def scan (offset : Nat) (text : List Char) : List Comment := commentsAtFuel text.length offset text

@[simp] theorem scan_nil (offset : Nat) : scan offset [] = [] := rfl

/-- A round for each character is enough. -/
theorem commentsAtFuel_eq_scan (h : text.length ≤ fuel) :
    commentsAtFuel fuel offset text = scan offset text :=
  commentsAtFuel_congr h (Nat.le_refl _)

/-- To scan a text is to scan from its first mark. -/
theorem scan_eq (offset : Nat) (text : List Char) :
    scan offset text =
      match stride? (text.dropWhile (!isMark ·)) with
      | none => []
      | some (kind?, length) =>
        let here := offset + Text.byteLength (text.takeWhile (!isMark ·))
        let marked := text.dropWhile (!isMark ·)
        found kind? here length marked ++
          scan (here + Text.byteLength (marked.take length)) (marked.drop length) := by
  rw [← commentsAtFuel_eq_scan (Nat.le_succ text.length), commentsAtFuel_succ]
  have hle : (text.dropWhile (!isMark ·)).length ≤ text.length :=
    (List.dropWhile_sublist _).length_le
  cases stride? (text.dropWhile (!isMark ·)) with
  | none => rfl
  | some step =>
    dsimp only
    rw [commentsAtFuel_eq_scan (by simp; omega)]

/-- A plain text at the front only moves the place. -/
theorem scan_plain_append (offset : Nat) (hbefore : Plain before) (rest : List Char) :
    scan offset (before ++ rest) = scan (offset + Text.byteLength before) rest := by
  have hunmarked : ∀ c ∈ before, (!isMark c) = true := by
    intro c hc
    simp [hbefore c hc]
  rw [scan_eq, scan_eq (offset + _), List.dropWhile_append_of_pos hunmarked,
    List.takeWhile_append_of_pos hunmarked]
  simp only [Text.byteLength_append, Nat.add_assoc]

/-- A front without marks may be left out of the scan. -/
theorem scan_plain_take {n : Nat} (h : Plain (text.take n)) :
    scan offset text = scan (offset + Text.byteLength (text.take n)) (text.drop n) := by
  have happend := scan_plain_append offset h (text.drop n)
  rwa [List.take_append_drop] at happend

/-- At a mark, the scan goes one stride. -/
theorem scan_stride (offset : Nat) (hmark : isMark c = true)
    (h : stride? (c :: text) = some (kind?, length)) :
    scan offset (c :: text) =
      found kind? offset length (c :: text) ++
        scan (offset + Text.byteLength ((c :: text).take length)) ((c :: text).drop length) := by
  rw [scan_eq]
  simp [hmark, h]

/-- The scan ends where a block comment stays open. -/
theorem scan_open (hmark : isMark c = true) (h : stride? (c :: text) = none) :
    scan offset (c :: text) = [] := by
  rw [scan_eq]
  simp [hmark, h]

/-! ### Piece by piece -/

open Lexer Pattern

/-- To scan a text is to scan what follows a piece of it, the comment that the piece is put in
front. -/
def InStep (offset : Nat) (text : List Char) (piece : PieceSort × Nat) : Prop :=
  scan offset text =
    found piece.1.comment? offset piece.2 text ++
      scan (offset + Text.byteLength (text.take piece.2)) (text.drop piece.2)

/-- A piece that is no comment and holds no mark keeps scan and lexer in step. -/
theorem inStep_of_plain {sort : PieceSort} (hsort : sort.comment? = none)
    (h : Plain (text.take length)) : InStep offset text (sort, length) := by
  simp only [InStep, hsort, found_none, List.nil_append]
  exact scan_plain_take h

/-- Where a pattern without marks is chosen, the piece is what it matches, and no comment. -/
theorem extend_of_isMarked_eq_false {pattern : Pattern} (h : pattern.isMarked = false)
    (length : Nat) (text : List Char) :
    (extend pattern length text).1.comment? = none ∧ (extend pattern length text).2 = length := by
  cases pattern <;> first | exact ⟨rfl, rfl⟩ | cases h

/-- So does a line comment, which both take to the end of its line. -/
theorem inStep_line (offset : Nat) (body : List Char) :
    InStep offset ('/' :: '/' :: body) (extend .lineComment 2 ('/' :: '/' :: body)) := by
  have hstride := scan_stride offset (c := '/') rfl (stride?_line body)
  simpa only [InStep, extend, PieceSort.comment?, List.drop_succ_cons, List.drop_zero,
    Nat.add_comm 2] using hstride

/-- So does a block comment, closed or open. -/
theorem inStep_block (offset : Nat) (body : List Char) :
    InStep offset ('/' :: '*' :: body) (extend .blockComment 2 ('/' :: '*' :: body)) := by
  have hblock := stride?_block body
  cases hend : Delimiter.blockCommentEnd? body with
  | none =>
    rw [hend] at hblock
    simp [InStep, extend, hend, PieceSort.comment?, scan_open (c := '/') rfl hblock]
  | some inner =>
    rw [hend] at hblock
    have hstride := scan_stride offset (c := '/') rfl hblock
    simpa only [InStep, extend, List.drop_succ_cons, List.drop_zero, hend, PieceSort.comment?,
      Nat.add_comm 2] using hstride

/-- So does a string, with its prefix: past the prefix the scan meets the quote and looks for the
same end. -/
theorem inStep_quote {kind : StringKind} {mark : Char} (hmark : isMark mark = true)
    (hquote : mark ≠ '/') (offset : Nat) (body : List Char) :
    InStep offset (kind.marker ++ mark :: body)
      (extend (.quote kind mark) (kind.marker.length + 1) (kind.marker ++ mark :: body)) := by
  have hmarker : Plain kind.marker := by cases kind <;> simp [StringKind.marker, isMark]
  have hdrop : (kind.marker ++ mark :: body).drop (kind.marker.length + 1) = body := by simp
  have hextend : (extend (.quote kind mark) (kind.marker.length + 1)
      (kind.marker ++ mark :: body)).1.comment? = none ∧
      (extend (.quote kind mark) (kind.marker.length + 1) (kind.marker ++ mark :: body)).2 =
        kind.marker.length + ((Delimiter.stringEnd? mark body).getD 0 + 1) := by
    simp only [extend, hdrop]
    cases Delimiter.stringEnd? mark body with
    | none => exact ⟨rfl, rfl⟩
    | some inner => exact ⟨rfl, by simp; omega⟩
  have hstride := scan_stride (offset + Text.byteLength kind.marker) hmark
    (stride?_quote hquote body)
  rw [InStep, hextend.1, hextend.2, scan_plain_append _ hmarker, hstride]
  simp [List.take_length_add_append, List.drop_length_add_append, Nat.add_assoc]

/-- So does a slash that is a token of its own. -/
theorem inStep_slash {body : List Char} (hline : ∀ rest, body ≠ '/' :: rest)
    (hblock : ∀ rest, body ≠ '*' :: rest) (offset : Nat) :
    InStep offset ('/' :: body) (extend (.symbol .slash) 1 ('/' :: body)) :=
  scan_stride offset (c := '/') rfl (stride?_slash hline hblock)

/-- So does `/=`, where the scan stops at the slash and then passes what is left of the piece. -/
theorem inStep_slashEq (offset : Nat) (body : List Char) :
    InStep offset ('/' :: '=' :: body) (extend (.symbol .slashEq) 2 ('/' :: '=' :: body)) := by
  have hslash : stride? ('/' :: '=' :: body) = some (none, 1) :=
    stride?_slash (by simp) (by simp)
  have hstride := scan_stride offset (c := '/') rfl hslash
  have heq : Plain ['='] := by simp [isMark]
  have hplain := scan_plain_append (offset + Text.byteLength ['/']) heq body
  rw [List.singleton_append] at hplain
  rw [InStep, hstride]
  simpa [extend, PieceSort.comment?, Text.byteLength, Nat.add_assoc] using hplain

/-- Where no pattern matches, the first character is no mark: a mark alone is a match. -/
theorem isMark_eq_false_of_longest? {cs : List Char} (h : longest? (c :: cs) = none) :
    isMark c = false := by
  have hnone {p : Pattern} (hp : p ∈ all) : p.matchLength (c :: cs) = 0 :=
    matchLength_of_longest?_eq_none h hp
  cases hmark : isMark c with
  | false => rfl
  | true =>
    exfalso
    rcases isMark_cases hmark with rfl | rfl | rfl
    · have hzero := hnone (p := .symbol .slash) (by decide)
      simp [matchLength, fixed, Kind.text] at hzero
    · have hzero := hnone (p := .quote .plain '\x22') (by decide)
      simp [matchLength, fixed, StringKind.marker] at hzero
    · have hzero := hnone (p := .quote .plain '\x27') (by decide)
      simp [matchLength, fixed, StringKind.marker] at hzero

/-- So does whatever a pattern without marks matches. -/
theorem inStep_unmarked {pattern : Pattern} (hmem : pattern ∈ all)
    (hmarked : pattern.isMarked = false) (offset : Nat) (text : List Char) :
    InStep offset text (extend pattern (pattern.matchLength text) text) := by
  obtain ⟨hsort, hlength⟩ := extend_of_isMarked_eq_false hmarked (pattern.matchLength text) text
  have hplain := plain_of_isMarked_eq_false hmem hmarked text
  generalize extend pattern (pattern.matchLength text) text = piece at hsort hlength ⊢
  obtain ⟨sort, length⟩ := piece
  dsimp only at hsort hlength
  subst hlength
  exact inStep_of_plain hsort hplain

/-- Where the longest match is a symbol with a mark, no comment begins: the openings of comments are
longer than the slash. -/
theorem inStep_symbol {kind : Kind} (hmarked : (Pattern.symbol kind).isMarked = true)
    (hpos : 0 < (Pattern.symbol kind).matchLength text)
    (hmax : ∀ pattern ∈ all, pattern.matchLength text ≤ (Pattern.symbol kind).matchLength text)
    (offset : Nat) :
    InStep offset text
      (extend (.symbol kind) ((Pattern.symbol kind).matchLength text) text) := by
  obtain ⟨hlength, body, rfl⟩ := of_fixed_pos hpos
  have hkind : kind = .slash ∨ kind = .slashEq := by
    unfold isMarked at hmarked
    split at hmarked <;> simp_all
  simp only [matchLength, hlength]
  rcases hkind with rfl | rfl
  · refine inStep_slash ?_ ?_ offset
    · rintro rest rfl
      have hle : fixed ['/', '/'] (['/', '/'] ++ rest) ≤ Kind.slash.text.toList.length :=
        Nat.le_trans (hmax .lineComment (by decide)) (Nat.le_of_eq hlength)
      rw [fixed_append] at hle
      exact absurd hle (by decide)
    · rintro rest rfl
      have hle : fixed ['/', '*'] (['/', '*'] ++ rest) ≤ Kind.slash.text.toList.length :=
        Nat.le_trans (hmax .blockComment (by decide)) (Nat.le_of_eq hlength)
      rw [fixed_append] at hle
      exact absurd hle (by decide)
  · exact inStep_slashEq offset body

/-- So does what is matched by a pattern with marks, if no pattern matches more. -/
theorem inStep_marked {pattern : Pattern} (hmem : pattern ∈ all)
    (hmarked : pattern.isMarked = true) (hpos : 0 < pattern.matchLength text)
    (hmax : ∀ other ∈ all, other.matchLength text ≤ pattern.matchLength text) (offset : Nat) :
    InStep offset text (extend pattern (pattern.matchLength text) text) := by
  cases pattern with
  | blank | number | hexNumber | word => cases hmarked
  | lineComment =>
    obtain ⟨hlength, body, rfl⟩ := of_fixed_pos hpos
    simp only [matchLength, hlength]
    exact inStep_line offset body
  | blockComment =>
    obtain ⟨hlength, body, rfl⟩ := of_fixed_pos hpos
    simp only [matchLength, hlength]
    exact inStep_block offset body
  | quote kind mark =>
    obtain ⟨hlength, body, rfl⟩ := of_fixed_pos hpos
    have hquote : isMark mark = true ∧ mark ≠ '/' := by
      revert hmem
      cases kind <;> simp [all] <;> rintro (rfl | rfl) <;> decide
    simp only [matchLength, hlength]
    simpa using inStep_quote hquote.1 hquote.2 offset body
  | symbol kind => exact inStep_symbol hmarked hpos hmax offset

/-- The scan is in step with the piece at the front of a text. -/
theorem inStep_front (offset : Nat) (htext : text ≠ []) : InStep offset text (front text) := by
  unfold front
  cases hlongest : longest? text with
  | none =>
    obtain ⟨c, cs, rfl⟩ := List.exists_cons_of_ne_nil htext
    have hmark := isMark_eq_false_of_longest? hlongest
    exact inStep_of_plain rfl (by simp [hmark])
  | some best =>
    obtain ⟨pattern, length⟩ := best
    obtain ⟨hmem, rfl, hpos, hmax⟩ := longest?_eq_some hlongest
    cases hmarked : pattern.isMarked with
    | false => exact inStep_unmarked hmem hmarked offset text
    | true => exact inStep_marked hmem hmarked hpos hmax offset

/-- The piece of a pattern that matches is not empty. -/
theorem extend_pos (pattern : Pattern) (hlength : 0 < length) (htext : text ≠ []) :
    0 < (extend pattern length text).2 := by
  have hpos : 0 < text.length := List.length_pos_iff.mpr htext
  unfold extend
  dsimp only
  split <;> (try split) <;> simp <;> omega

/-- Every piece has a character. -/
theorem front_pos (htext : text ≠ []) : 0 < (front text).2 := by
  unfold front
  split
  · next pattern length hlongest => exact extend_pos pattern (longest?_eq_some hlongest).2.2.1 htext
  · exact Nat.one_pos

/-- The pieces of a text are the one in front and those of the rest. -/
theorem piecesAtFuel_cons (fuel : Nat) (c : Char) (cs : List Char) :
    piecesAtFuel (fuel + 1) (c :: cs) =
      ⟨(front (c :: cs)).1, (c :: cs).take (front (c :: cs)).2⟩ ::
        piecesAtFuel fuel ((c :: cs).drop (front (c :: cs)).2) := by
  rfl

/-- The comments among the pieces of a text are those that the scan finds in it. -/
theorem commentsFrom_pieces (hfuel : text.length ≤ fuel) :
    commentsFrom offset (piecesAtFuel fuel text) = scan offset text := by
  induction fuel generalizing offset text with
  | zero =>
    rw [List.length_eq_zero_iff.mp (Nat.le_zero.mp hfuel)]
    rfl
  | succ fuel ih =>
    cases text with
    | nil => rfl
    | cons c cs =>
      have hstep : InStep offset (c :: cs) (front (c :: cs)) := inStep_front offset (by simp)
      have hpos : 0 < (front (c :: cs)).2 := front_pos (by simp)
      have hshort : ((c :: cs).drop (front (c :: cs)).2).length ≤ fuel := by
        rw [List.length_drop]
        omega
      rw [hstep, ← ih hshort, piecesAtFuel_cons]
      generalize front (c :: cs) = piece
      obtain ⟨sort, length⟩ := piece
      cases sort <;> rfl

end CommentScan

open CommentScan in
/-- The comments found without cutting a source into tokens are those that the lexer keeps. -/
theorem scanComments_eq_lex (source : String) : scanComments source = (lex source).comments :=
  (commentsFrom_pieces (Nat.le_refl _)).symm

end SolidityParser
