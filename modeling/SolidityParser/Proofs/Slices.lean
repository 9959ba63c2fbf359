import SolidityParser.Proofs.Embedding
import SolidityParser.Proofs.Production.Thinned
import SolidityParser.Proofs.Recovery

/-!
# Slices of a source parse by themselves

The text of an expression in a source that parses without tolerance parses as an expression, to the
same one with its offsets counted from its start (`Source.parseExpression_slice`). So does the text
of a statement in a block as a statement (`Source.parseStatement_slice`). What comes after either
has no say in it (`Source.parse_reparses`).
-/

namespace SolidityParser

open Text (byteLength)

/-! ### Whole statements -/

namespace Grammar

variable {lexemes : Lexemes} {s : Statement .parsed}

/-- An input parses to a statement if and only if it stands there, up to the end. -/
theorem parseStatement_eq_ok_iff (hw : lexemes.WellSpelled) :
    parseStatement lexemes = .ok s ↔
      ∃ j, lexemes.IsStatement .none 0 s j ∧ lexemes.kindAt j = .eof := by
  have hd : lexemes.size < 0 + (lexemes.size + 1) := by omega
  unfold parseStatement run
  constructor
  · intro h
    split at h
    · next value t hrun =>
      cases h
      obtain ⟨v, j, hstatement, hrest⟩ := (Parser.Gives.of_run hrun).bind
      obtain ⟨heof, hrest⟩ := hrest.expect_eof
      obtain ⟨rfl, -⟩ := hrest.pure
      exact ⟨j, Lexemes.isStatement_of_gives hw rfl rfl hd hstatement.finish, heof⟩
    · cases h
  · rintro ⟨j, hstatement, heof⟩
    have hrun : (wholeStatement (Inner.ofLexemes lexemes)).Reads { lexemes } 0 s j :=
      .bind (.finish (Lexemes.reads_of_isStatement hw { lexemes } rfl hd hstatement)) <|
        .bind (.expect_eof heof) .pure
    obtain ⟨trail, hok⟩ := hrun {}
    rw [hok]

end Grammar

/-- A source is read as a statement if and only if it is not too long and its words are one, which
is then placed in the source. -/
theorem Source.parseStatement_eq_ok_iff {source : String} {s : Statement .located} :
    parseStatement source = .ok s ↔
      WithinLimit source ∧ ∃ v j, (lex source).tokens.lexemes.IsStatement .none 0 v j ∧
        (lex source).tokens.lexemes.kindAt j = .eof ∧
          s = v.relocate (layout source).relocation := by
  have hiff {v} := @Grammar.parseStatement_eq_ok_iff _ v (lex_wellSpelled source)
  refine read_eq_ok_iff.trans (and_congr_right fun _ => ?_)
  constructor
  · rintro ⟨v, hrun, hs⟩
    obtain ⟨j, hstatement, heof⟩ := hiff.mp hrun
    exact ⟨v, j, hstatement, heof, hs⟩
  · rintro ⟨v, j, hstatement, heof, hs⟩
    exact ⟨v, hiff.mpr ⟨j, hstatement, heof⟩, hs⟩

/-! ### Names -/

/-- A keyword is spelled in one way. -/
theorem Kind.eq_text_of_ofWord {word : String} {kind : Kind} (h : ofWord word = kind)
    (hkind : kind ≠ .ident) : word = kind.text := by
  unfold ofWord ofKeyword? at h
  cases hfound : keywords.find? (·.text == word) with
  | none =>
    rw [hfound] at h
    exact absurd h.symm hkind
  | some keyword =>
    rw [hfound] at h
    obtain rfl : keyword = kind := h
    have htext := List.find?_some hfound
    exact (eq_of_beq htext).symm

/-- All expressions may stand by themselves but names that are keywords. -/
theorem Expression.isWhole_of_names {σ : Type} {e : Expression σ}
    (h : ∀ place name, e = .identifier place name → Kind.ofWord name = .ident) : e.IsWhole := by
  unfold IsWhole
  cases e with
  | identifier place name =>
    rw [level, if_pos (h place name rfl)]
    decide
  | unary _ _ leading =>
    cases leading
    · exact Nat.zero_le _
    · exact Nat.le_add_left 1 12
  | binary place operator left right =>
    obtain ⟨-, hlevel⟩ | ⟨l, hl, hlevel⟩ := level_binary place operator left right
    · rw [hlevel]
      decide
    · rw [hlevel]
      exact Nat.le_of_lt (binaryLevel_lt hl)
  | assignment | conditional => exact Nat.le_refl _
  | _ => exact Nat.zero_le _

/-- So all may that stand in an input, but `payable` and `type`. -/
theorem Lexemes.Holds.isWhole {lexemes : Lexemes} {e : Expression Extent}
    (h : lexemes.Holds (.expression e))
    (hname : ∀ place name, e = .identifier place name → name ≠ "payable" ∧ name ≠ "type") :
    e.IsWhole := by
  refine Expression.isWhole_of_names fun place name he => ?_
  obtain ⟨hpayable, htype⟩ := hname place name he
  subst he
  obtain ⟨-, symbols, hphrased, -⟩ := h
  cases hphrased with
  | name hkind =>
    rcases hkind with hkind | hkind | hkind
    · exact hkind
    · exact absurd (Kind.eq_text_of_ofWord hkind (by decide)) hpayable
    · exact absurd (Kind.eq_text_of_ofWord hkind (by decide)) htype

/-- What stands in an input without broken statements stands wherever its words do, if what comes
next there does not go on with it. -/
theorem Lexemes.carry_supports {lexemes other : Lexemes} {f : Nat → Nat} {part : Part .parsed}
    (h : part.All (lexemes.Supports .none)) (hclosed : ¬ part.IsOpen)
    (hkept : ∀ n, part.place.first ≤ n → n < part.place.next → lexemes.Keeps other f n)
    (hnext : (other.kindAt (f part.place.next)).joins = false) :
    (part.relocate (.move f)).All (other.Supports .none) := by
  have hcomplete : part.All fun p => ¬ p.IsIncomplete := h.mono fun _ hp => hp.complete
  have hfresh : lexemes.Fresh other f .none part.place.next := ⟨hnext, nofun⟩
  have hstands := thin h hcomplete.here hclosed (.of_complete hcomplete hkept)
    (.inr hfresh.follows)
  rwa [Part.prune_of_complete hcomplete] at hstands

namespace Source

/-- The text that a span of a source covers. -/
def slice (source : String) (span : Span) : String :=
  String.ofList (Text.slice source.toList span)

/-- What stands in a source that is not too long is not too long either. -/
theorem Embeds.withinLimit {source inner : String} {before : List Char} {first count : Nat}
    (h : Embeds inner (layout source) before first count) (hsize : WithinLimit source) :
    WithinLimit inner := by
  obtain ⟨after, htext⟩ := h.text
  have hbytes : byteLength source.toList =
      byteLength before + (byteLength inner.toList + byteLength after) := by
    rw [← Text.byteLength_append, ← Text.byteLength_append, ← htext]
    rfl
  unfold WithinLimit at *
  omega

/-- What covers tokens of a source is a source with these tokens. -/
theorem exists_embeds {source : String} {place : Extent}
    (h : (lex source).tokens.lexemes.Covers place) :
    ∃ before count, byteLength before = ((layout source).span place).start ∧
      place.next = place.first + count ∧
      Embeds (slice source ((layout source).span place)) (layout source) before place.first count ∧
      (lex (slice source ((layout source).span place))).tokens.lexemes.kindAt count = .eof := by
  have hruns := (layout source).runs_span (lex_placed source) h
  obtain ⟨before, middle, after, htext, ⟨s, hs, hstart⟩, ⟨t, ht, hstop⟩, hsize, htokens⟩ :=
    lex_slice hruns.lt hruns.next_lt
  obtain ⟨s', hs', hstart'⟩ := hruns.start
  obtain ⟨t', ht', hstop'⟩ := hruns.stop
  obtain rfl : s' = s := Option.some.inj (hs'.symm.trans hs)
  obtain rfl : t' = t := Option.some.inj (ht'.symm.trans ht)
  have hspan : (layout source).span place =
      ⟨byteLength before, byteLength before + byteLength middle⟩ := by
    rw [← hstop, ← hstart, hstart', hstop']
  have hslice : slice source ((layout source).span place) = String.ofList middle := by
    rw [slice, hspan, htext, Text.slice, Text.slice?_append, Option.getD_some]
  have hlt := hruns.lt
  rw [hslice, hspan]
  refine ⟨before, place.next - place.first, rfl, by omega, ⟨⟨after, ?_⟩, htokens, by omega⟩, ?_⟩
  · rw [String.toList_ofList]
    exact htext
  · have hlast := (lex_placed (String.ofList middle)).last
    rw [hsize, Nat.add_sub_cancel] at hlast
    exact TokenList.kindAt_lexemes hlast

/-! ### Trees of slices -/

section Back

variable {inner : String} {outer : Layout} {before : List Char} {first count : Nat}
  {part : Part .parsed} {repairs : Repairs}

/-- The words of a slice are those that the source has there. -/
theorem Embeds.keeps (h : Embeds inner outer before first count) {n : Nat} (hn : first ≤ n)
    (hlt : n < first + count) :
    outer.tokens.lexemes.Keeps (lex inner).tokens.lexemes (· - first) n := by
  refine ⟨?_, Nat.sub_add_comm hn⟩
  have hword := h.lexemeAt (show n - first < count by omega)
  rwa [Nat.add_sub_cancel' hn, eq_comm] at hword

/-- In a slice, it begins at the start. -/
theorem place_back (h : part.place.next = part.place.first + count) :
    (part.relocate (.move (· - part.place.first))).place = ⟨0, count⟩ := by
  rw [Part.place_relocate]
  simp [Relocation.move, Extent.move, h]

/-- A tree that stands in a slice is, but for its offsets, the one that stands in the source. -/
theorem Embeds.relocate_back (h : Embeds inner outer before first count)
    (hpart : part.All (outer.tokens.lexemes.Supports repairs))
    (hslice : (part.relocate (.move (· - first))).All ((lex inner).tokens.lexemes.Supports repairs))
    (hfirst : first ≤ part.place.first) (hnext : part.place.next ≤ first + count) :
    ((part.relocate (.move (· - first))).relocate (layout inner).relocation).relocate
      (.shift (byteLength before)) = part.relocate outer.relocation := by
  rw [← h.relocate hslice]
  · rw [Part.relocate_relocate]
    refine Part.relocate_relocate_of_sameAt fun p hwithin => ?_
    have hmove (e : Extent) (hi : p.place.first ≤ e.first) (hj : e.first ≤ e.next) :
        (e.move (· - first)).move (first + ·) = e := by
      have hinside := Lexemes.within_inside hpart hwithin
      simp only [Extent.move]
      rw [Nat.add_sub_cancel' (by omega), Nat.add_sub_cancel' (by omega)]
    have hsupports := hpart p hwithin
    constructor
    case place =>
      exact congrArg outer.span (hmove _ (Nat.le_refl _) (Nat.le_of_lt hsupports.covers.nonempty))
    case body =>
      intro body hbody
      have hheld := hsupports.held_inside (.inl hbody)
      exact congrArg outer.relocation.body (hmove body (by omega) (by omega))
    case value =>
      intro value hvalue
      have hheld := hsupports.held_inside (.inr hvalue)
      exact congrArg outer.pragmaValue (hmove value (by omega) (by omega))
  · rw [Part.place_relocate]
    exact Nat.sub_le_iff_le_add'.mpr hnext

section Whole

variable (hend : (lex inner).tokens.lexemes.kindAt count = .eof)

include hend

/-- A phrase that takes up a slice is one by itself. -/
theorem Embeds.isPhrase_back (h : Embeds inner outer before part.place.first count)
    (hnext : part.place.next = part.place.first + count)
    (hholds : part.All outer.tokens.lexemes.Holds) :
    (lex inner).tokens.lexemes.IsPhrase 0 (part.relocate (.move (· - part.place.first))) count := by
  refine ⟨place_back hnext, Lexemes.carry_holds hholds
    (fun n hn hlt => h.keeps hn (by omega)) fun n hn hle => ?_⟩
  rcases Nat.eq_or_lt_of_le hle with rfl | hlt
  · exact .of_eof (by rwa [hnext, Nat.add_sub_cancel_left])
  · refine (h.keeps hn (by omega)).sees fun _ => ?_
    by_cases hlast : n + 1 = part.place.first + count
    · refine .inr ?_
      rwa [hlast, Nat.add_sub_cancel_left]
    · exact .inl (h.keeps (by omega) (by omega))

/-- So is what does not go on with what comes next, with the statements in it. -/
theorem Embeds.lays_back (h : Embeds inner outer before part.place.first count)
    (hnext : part.place.next = part.place.first + count)
    (hall : part.All (outer.tokens.lexemes.Supports .none)) (hclosed : ¬ part.IsOpen) :
    (lex inner).tokens.lexemes.Lays .none 0 (part.relocate (.move (· - part.place.first)))
      count := by
  refine ⟨place_back hnext, Lexemes.carry_supports hall hclosed
    (fun n hn hlt => h.keeps hn (hlt.trans_eq hnext)) ?_⟩
  rw [hnext, Nat.add_sub_cancel_left, hend]
  rfl

/-- So is a statement. -/
theorem Embeds.isStatement_back {s : Statement .parsed}
    (h : Embeds inner outer before s.place.first count)
    (hnext : (Part.statement s).place.next = (Part.statement s).place.first + count)
    (hall : (Part.statement s).All (outer.tokens.lexemes.Supports .none))
    (hchosen : outer.tokens.lexemes.Chosen s) :
    (lex inner).tokens.lexemes.IsStatement .none 0 (s.relocate (.move (· - s.place.first)))
      count := by
  have hcomplete : (Part.statement s).All fun p => ¬ p.IsIncomplete :=
    hall.mono fun _ hp => hp.complete
  have hfirst := hchosen.thin hall
    (.of_complete hcomplete fun n hn hlt => h.keeps hn (hlt.trans_eq hnext))
  rw [Part.statement.inj (Part.prune_of_complete hcomplete)] at hfirst
  exact ⟨h.lays_back hend hnext hall id, hfirst⟩

end Whole

end Back

/-! ### Nodes of a program -/

variable {source : String} {program : Program}

/-- Each expression of a source that parses is what its text parses to, but for the offsets. -/
theorem parseExpression_slice (h : parse source = .ok program) :
    ∀ u ∈ program.body, ∀ e, (Part.unit u).Within (.expression e) →
      (∀ place name, e = .identifier place name → name ≠ "payable" ∧ name ≠ "type") →
        ∃ v, parseExpression (slice source e.place) = .ok v ∧
          v.relocate (Span.shift e.place.start) = e := by
  obtain ⟨hsize, units, hunits, rfl⟩ := parse_eq_ok_iff.mp h
  obtain ⟨j, hsource⟩ := (Grammar.parseUnits_eq_ok_iff (lex_wellSpelled source)).mp hunits
  refine List.forall_mem_map.mpr fun u hu e hwithin hname => ?_
  have hmoved : ((Part.unit u).relocate (layout source).relocation).Within (.expression e) :=
    hwithin
  obtain ⟨p, hpart, hp⟩ := Part.within_relocate.mp hmoved
  obtain ⟨e, rfl⟩ : ∃ w, p = .expression w := by
    cases p <;> first | exact ⟨_, rfl⟩ | cases hp
  cases hp
  have hall := (hsource.stands u hu).within hpart
  have hholds := Lexemes.all_holds hall trivial
  obtain ⟨before, count, hbytes, hlength, hembeds, hend⟩ := exists_embeds hall.here.covers
  have hphrase := hembeds.isPhrase_back hend hlength hholds
  rw [Expression.place_relocate]
  refine ⟨_, parseExpression_eq_ok_iff.mpr
    ⟨hembeds.withinLimit hsize, _, count, hphrase, ?_, hend, rfl⟩, ?_⟩
  · refine (Expression.isWhole_relocate _ _).mpr (hholds.here.isWhole fun place name he => ?_)
    exact hname _ name (by rw [he]; rfl)
  · have hback := hembeds.relocate_back hall (hphrase.holds.mono fun _ => .phrase) (Nat.le_refl _)
      (Nat.le_of_eq hlength)
    rw [hbytes] at hback
    exact Part.expression.inj hback

/-- Each statement in a block of a source that parses is what its text parses to, but for the
offsets. -/
theorem parseStatement_slice (h : parse source = .ok program) :
    ∀ u ∈ program.body, ∀ b, (Part.unit u).Within (.block b) → ∀ s ∈ b.body,
      ∃ v, parseStatement (slice source s.place) = .ok v ∧
        v.relocate (.shift s.place.start) = s := by
  obtain ⟨hsize, units, hunits, rfl⟩ := parse_eq_ok_iff.mp h
  obtain ⟨j, hsource⟩ := (Grammar.parseUnits_eq_ok_iff (lex_wellSpelled source)).mp hunits
  refine List.forall_mem_map.mpr fun u hu b hwithin => ?_
  have hplaced : ((Part.unit u).relocate (layout source).relocation).Within (.block b) := hwithin
  obtain ⟨p, hpart, hp⟩ := Part.within_relocate.mp hplaced
  obtain ⟨b, rfl⟩ : ∃ w, p = .block w := by
    cases p <;> first | exact ⟨_, rfl⟩ | cases hp
  cases hp
  obtain ⟨place, body⟩ := b
  have hblock := (hsource.stands u hu).within hpart
  have hchosen := hblock.here.block.1
  rw [Block.body_relocate]
  refine List.forall_mem_map.mpr fun s hs => ?_
  have hall : (Part.statement s).All _ :=
    hblock.below (List.mem_singleton_self _) (List.mem_map_of_mem hs)
  obtain ⟨before, count, hbytes, hlength, hembeds, hend⟩ := exists_embeds hall.here.covers
  have hstatement := hembeds.isStatement_back hend hlength hall (hchosen s hs)
  rw [Statement.place_relocate]
  refine ⟨_, parseStatement_eq_ok_iff.mpr
    ⟨hembeds.withinLimit hsize, _, count, hstatement, hend, rfl⟩, ?_⟩
  have hback := hembeds.relocate_back hall hstatement.lays.stands (Nat.le_refl _)
    (Nat.le_of_eq hlength)
  rw [hbytes] at hback
  exact Part.statement.inj hback

end Source

/-- The nodes of a program are what their texts in the source parse to by themselves, but for the
offsets. -/
structure Program.Reparses (source : String) (program : Program) : Prop where
  /-- The expressions are, but `payable` and `type`. -/
  expressions : ∀ u ∈ program.body, ∀ e, (Part.unit u).Within (.expression e) →
    (∀ place name, e = .identifier place name → name ≠ "payable" ∧ name ≠ "type") →
      ∃ v, Source.parseExpression (Source.slice source e.place) = .ok v ∧
        v.relocate (Span.shift e.place.start) = e
  /-- The statements in blocks are. -/
  statements : ∀ u ∈ program.body, ∀ b, (Part.unit u).Within (.block b) → ∀ s ∈ b.body,
    ∃ v, Source.parseStatement (Source.slice source s.place) = .ok v ∧
      v.relocate (.shift s.place.start) = s

namespace Source

/-- The expressions and the statements of a source that parses, parse by themselves. -/
theorem parse_reparses {source : String} {program : Program} (h : parse source = .ok program) :
    program.Reparses source :=
  ⟨parseExpression_slice h, parseStatement_slice h⟩

/-- A source with names, numbers and strings that may go on, and statements that look ahead. -/
def nested : String :=
  "contract C \x7b function f() \x7b if (a) b; else c = payable(d).e\x7bg: 1 days\x7d(type(C)); " ++
    "try h.i() returns (uint j) \x7b k = 'l' 'm'; \x7d catch \x7b \x7d " ++
      "assembly \x7b n \x7d \x7d \x7d"

/-- The nodes of a source. -/
theorem parse_reparses_nested :
    ∃ program, parse nested = .ok program ∧ program.Reparses nested := by
  have hok : (parse nested).isOk = true := by
    have htext : nested = String.ofList _ :=
      Text.append_eq_ofList (Text.append_eq_ofList rfl rfl) rfl
    rw [htext, parse, read_ofList]
    decide +kernel
  cases h : parse nested with
  | error e =>
    rw [h] at hok
    cases hok
  | ok program => exact ⟨program, rfl, parse_reparses h⟩

end Source

end SolidityParser
