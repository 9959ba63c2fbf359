import SolidityParser.Proofs.Lexer.Slice
import SolidityParser.Proofs.Production.Thin
import SolidityParser.Proofs.Production.Unread
import SolidityParser.Proofs.Spans

/-!
# Sources within others

Where the tokens of a source stand in another text as well, after some of its text and some of its
tokens (`Source.Embeds`), a tree of that source stands there too: placed in the other text, each of
its offsets is greater by what comes before, and the passages that are left unread are the same
(`Source.Embeds.relocate`).
-/

namespace SolidityParser

open Text (byteLength)

/-! ### Offsets that are moved -/

/-- The version moved by so many bytes. -/
def VersionLiteral.shift (offset : Nat) (version : VersionLiteral) : VersionLiteral :=
  { version with span := version.span.shift offset }

/-- The value of a pragma moved by so many bytes. -/
def PragmaValue.shift (offset : Nat) (value : PragmaValue) : PragmaValue where
  text := value.text
  startVersion := value.startVersion.map (·.shift offset)
  endVersion := value.endVersion.map (·.shift offset)

/-- The change that moves a tree by so many bytes. -/
def Relocation.shift (offset : Nat) : Relocation .located .located where
  place := Span.shift offset
  value := PragmaValue.shift offset
  body := id

theorem VersionLiteral.scanAtFuel_shift (distance : Nat) : (fuel offset : Nat) →
    (text : List Char) → scanAtFuel fuel (offset + distance) text =
      (scanAtFuel fuel offset text).map (·.shift distance)
  | 0, _, _ => rfl
  | _ + 1, _, [] => rfl
  | fuel + 1, offset, c :: cs => by
    unfold scanAtFuel
    dsimp only
    split
    · rw [Nat.add_right_comm, scanAtFuel_shift]
    · rw [Nat.add_right_comm offset distance, scanAtFuel_shift]
      rfl

/-- The value of a pragma that begins further on. -/
theorem PragmaValue.ofText_shift (offset distance : Nat) (text : List Char) :
    ofText (offset + distance) text = (ofText offset text).shift distance := by
  simp [ofText, VersionLiteral.scan, VersionLiteral.scanAtFuel_shift, shift]

/-- Nothing is moved by no bytes. -/
theorem Part.relocate_shift_zero (layout : Layout) (part : Part .parsed) :
    (part.relocate layout.relocation).relocate (.shift 0) = part.relocate layout.relocation := by
  refine relocate_relocate_of_sameAt fun _ _ => ⟨rfl, fun _ _ => rfl, fun value _ => ?_⟩
  change (layout.pragmaValue value).shift 0 = layout.pragmaValue value
  unfold Layout.pragmaValue
  rw [← PragmaValue.ofText_shift]
  rfl

namespace Source

/-! ### Where the tokens of a source begin and end -/

/-- From the start of one token to the end of another, a span cuts a source between characters. -/
theorem span_cuts {source : String} {place : Extent} (hpos : 0 < place.next)
    (hle : place.first ≤ place.next) (hfirst : place.first + 1 < (lex source).tokens.size)
    (hnext : place.next < (lex source).tokens.size) :
    ∃ before middle after, source.toList = before ++ (middle ++ after) ∧
      (layout source).span place = ⟨byteLength before, byteLength before + byteLength middle⟩ := by
  obtain ⟨first, next⟩ := place
  dsimp only at hpos hle hfirst hnext
  have hspan {n : Nat} {t : Token} (ht : (lex source).tokens.get? n = some t) :
      (layout source).tokens.span n = t.span := by
    rw [layout, TokenList.span, ht]
  rw [Layout.span, TokenList.spanBefore, if_neg (Nat.ne_of_gt hpos)]
  rcases Nat.eq_or_lt_of_le hle with rfl | hlt
  · -- without a token, nothing but the start of the next one
    obtain ⟨before, middle, after, htext, ⟨t, ht, hstart⟩, -⟩ :=
      lex_slice (Nat.lt_succ_self first) hfirst
    obtain ⟨s, hs⟩ := (lex source).tokens.exists_get? (show first - 1 < _ by omega)
    have hordered := (lex_placed source).ordered _ _ s t (by omega) hs ht
    refine ⟨before, [], middle ++ after, htext, ?_⟩
    rw [hspan ht, hspan hs, Nat.max_eq_right hordered, hstart]
    rfl
  · obtain ⟨before, middle, after, htext, ⟨s, hs, hstart⟩, ⟨t, ht, hstop⟩, -⟩ :=
      lex_slice hlt hnext
    refine ⟨before, middle, after, htext, ?_⟩
    rw [hspan hs, hspan ht, hstart, hstop, Nat.max_eq_left (Nat.le_add_right ..)]

/-! ### Embeddings -/

/-- A text has all of a source in it after `before`, and its first `count` tokens from the index
`first` on. -/
structure Embeds (source : String) (outer : Layout) (before : List Char) (first count : Nat) :
    Prop where
  /-- The text. -/
  text : ∃ after, outer.text = before ++ (source.toList ++ after)
  /-- The tokens. -/
  tokens : ∀ n < count,
    outer.tokens.get? (first + n) = ((lex source).tokens.get? n).map (·.shift (byteLength before))
  /-- The end of the source is not among them. -/
  lt : count < (lex source).tokens.size

namespace Embeds

variable {source : String} {outer : Layout} {before : List Char} {first count n : Nat}
  {place : Extent} {repairs : Repairs} {part : Part .parsed}

/-- The words are the same. -/
theorem lexemeAt (h : Embeds source outer before first count) (hn : n < count) :
    outer.tokens.lexemes.lexemeAt (first + n) = (lex source).tokens.lexemes.lexemeAt n := by
  rw [TokenList.lexemeAt_eq, TokenList.lexemeAt_eq, h.tokens n hn]
  cases (lex source).tokens.get? n <;> rfl

/-- A token stands further on. -/
theorem tokenSpan (h : Embeds source outer before first count) (hn : n < count) :
    outer.tokens.span (first + n) = ((lex source).tokens.span n).shift (byteLength before) := by
  obtain ⟨t, ht⟩ := (lex source).tokens.exists_get? (Nat.lt_trans hn h.lt)
  have hget := h.tokens n hn
  rw [ht] at hget
  rw [TokenList.span, TokenList.span, hget, ht]
  rfl

/-- So does what begins and ends with tokens. -/
theorem span_move (h : Embeds source outer before first count) (hpos : 0 < place.next)
    (hfirst : place.first < count) (hnext : place.next ≤ count) :
    outer.span (place.move (first + ·)) =
      ((layout source).span place).shift (byteLength before) := by
  obtain ⟨i, j⟩ := place
  cases j with
  | zero => exact absurd hpos (Nat.lt_irrefl 0)
  | succ last =>
    have hstart := h.tokenSpan hfirst
    have hstop := h.tokenSpan (Nat.lt_of_succ_le hnext)
    have hindex : first + (last + 1) - 1 = first + last := by omega
    simp [Layout.span, Extent.move, TokenList.spanBefore, hindex, hstart, hstop, Span.shift, layout,
      Nat.add_max_add_right]

/-- The text is the same. -/
theorem passage_move (h : Embeds source outer before first count) (hpos : 0 < place.next)
    (hle : place.first ≤ place.next) (hfirst : place.first < count) (hnext : place.next ≤ count) :
    outer.passage (place.move (first + ·)) = (layout source).passage place := by
  have hlt := h.lt
  obtain ⟨after, htext⟩ := h.text
  obtain ⟨front, middle, rest, hsource, hspan⟩ :=
    @span_cuts source place hpos hle (by omega) (by omega)
  have hinner := Text.slice?_append front middle rest
  have houter := Text.slice?_append (before ++ front) middle (rest ++ after)
  have hcut : outer.text = before ++ front ++ (middle ++ (rest ++ after)) := by
    rw [htext, hsource]
    simp
  have hshift : Span.shift (byteLength before)
      ⟨byteLength front, byteLength front + byteLength middle⟩ =
        ⟨byteLength (before ++ front), byteLength (before ++ front) + byteLength middle⟩ := by
    rw [Text.byteLength_append, Span.shift, Nat.add_comm (byteLength before), Nat.add_right_comm]
  rw [Layout.passage, Layout.passage, h.span_move hpos hfirst hnext, hspan, layout, hsource, hcut,
    Text.slice, Text.slice, hinner, hshift, houter]

/-- Of a tree in which nothing was skipped, all words are kept. -/
theorem thins (h : Embeds source outer before first count)
    (hpart : part.All fun p => ¬ p.IsIncomplete) (hnext : part.place.next ≤ count) :
    (lex source).tokens.lexemes.Thins outer.tokens.lexemes (first + ·) part :=
  .of_complete hpart fun _ _ hlt => ⟨h.lexemeAt (by omega), rfl⟩

/-- A tree stands further on in the other text, and holds the same passages. -/
theorem relocate (h : Embeds source outer before first count)
    (hpart : part.All ((lex source).tokens.lexemes.Supports repairs))
    (hnext : part.place.next ≤ count) :
    (part.relocate (.move (first + ·))).relocate outer.relocation =
      (part.relocate (layout source).relocation).relocate (.shift (byteLength before)) := by
  rw [Part.relocate_relocate (layout source).relocation]
  refine Part.relocate_relocate_of_sameAt fun p hwithin => ?_
  have hsupports := hpart p hwithin
  have hinside : p.place.next ≤ count :=
    Nat.le_trans (Lexemes.within_inside hpart hwithin).2 hnext
  have hnonempty := hsupports.covers.nonempty
  constructor
  case place => exact h.span_move (by omega) (by omega) hinside
  case body =>
    intro body hbody
    have hheld := hsupports.held_inside (.inl hbody)
    exact congrArg String.ofList (h.passage_move (by omega) (by omega) (by omega) (by omega))
  case value =>
    intro value hvalue
    have hheld := hsupports.held_inside (.inr hvalue)
    have hspan : outer.span (value.move (first + ·)) = ((layout source).span value).shift _ :=
      h.span_move (by omega) (by omega) (by omega)
    have hpassage : outer.passage (value.move (first + ·)) = (layout source).passage value :=
      h.passage_move (by omega) (by omega) (by omega) (by omega)
    change outer.pragmaValue (value.move (first + ·)) = ((layout source).pragmaValue value).shift _
    rw [Layout.pragmaValue, Layout.pragmaValue, hpassage, hspan, ← PragmaValue.ofText_shift]
    rfl

end Embeds

end Source

end SolidityParser
