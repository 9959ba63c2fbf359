import SolidityParser.Proofs.Embedding
import SolidityParser.Proofs.Lexer.Join
import SolidityParser.Proofs.Production.Units
import SolidityParser.Proofs.Unread

/-!
# Sources one after the other

Two sources that parse without tolerance parse as one, with a line feed between them: the units of
the second come after those of the first, moved by the length of the first and the line feed
(`Source.parse_join`). No unit goes on with what begins the next one.
-/

namespace SolidityParser

open Text (byteLength)

namespace Lexemes

variable {lexemes : Lexemes} {repairs : Repairs} {units : List (SourceUnit .parsed)} {j : Nat}

/-- A source does not begin with a word that would go on with what comes before. -/
theorem IsSource.joins_first (h : lexemes.IsSource repairs units j) :
    (lexemes.kindAt 0).joins = false := by
  cases units with
  | nil =>
    obtain rfl : 0 = j := h.row
    rw [h.ends]
    rfl
  | cons u units =>
    have hfirst : u.place.first = 0 := h.row.1.1
    have hjoins := Lexemes.joins_first (h.stands u (List.mem_cons_self ..)) id id
    rwa [show (Part.unit u).place.first = 0 from hfirst] at hjoins

/-- Without repairs, nothing of a source is incomplete. -/
theorem IsSource.complete (h : lexemes.IsSource .none units j) {u : SourceUnit .parsed}
    (hu : u ∈ units) : (Part.unit u).All fun p => ¬ p.IsIncomplete :=
  (h.stands u hu).mono fun _ hp => hp.complete

end Lexemes

namespace Source

variable {source other : String} {program rest : Program}

/-- The units of a source that is embedded in a text stand there too, if what comes after them does
not go on with them. -/
theorem Embeds.units {outer : Layout} {before : List Char} {first j : Nat}
    {units : List (SourceUnit .parsed)} (h : Embeds source outer before first j)
    (hsource : (lex source).tokens.lexemes.IsSource .none units j)
    (hjoins : (outer.tokens.lexemes.kindAt (first + j)).joins = false) :
    ∃ moved : List (SourceUnit .parsed),
      outer.tokens.lexemes.Spells first (Symbol.row (moved.map (·.place))) (first + j) ∧
        (∀ u ∈ moved, (Part.unit u).All (outer.tokens.lexemes.Supports .none) ∧
          outer.tokens.lexemes.ChosenUnit u) ∧
        moved.map (·.relocate outer.relocation) = units.map fun u =>
          (u.relocate (layout source).relocation).relocate (.shift (byteLength before)) := by
  have hthins (u : SourceUnit .parsed) (hu : u ∈ units) :=
    h.thins (hsource.complete hu) (hsource.next_le hu)
  have hfresh : (lex source).tokens.lexemes.Fresh outer.tokens.lexemes (first + ·) .none j :=
    ⟨hjoins, nofun⟩
  obtain ⟨hrow, -, hmoved⟩ := Lexemes.units_thin hsource.row
    (fun u hu => ⟨hsource.stands u hu, hthins u hu⟩) hfresh.follows
  have hprune (u : SourceUnit .parsed) (hu : u ∈ units) : u.prune = u :=
    Part.unit.inj (Part.prune_of_complete (hsource.complete hu))
  refine ⟨units.map (·.relocate (.move (first + ·))), ?_,
    List.forall_mem_map.mpr fun u hu => ?_, ?_⟩
  · have hplaces : (units.map (·.relocate (.move (first + ·)))).map (·.place) =
        units.map fun u => u.place.move (first + ·) := by
      rw [List.map_map]
      exact List.map_congr_left fun u _ => Part.place_relocate _ (.unit u)
    rwa [hplaces]
  · have hchosen := (hsource.chosen u hu).thin (hsource.stands u hu) (hthins u hu)
    have hstands := hmoved u hu
    rw [hprune u hu] at hchosen
    rw [Part.prune_of_complete (hsource.complete hu)] at hstands
    exact ⟨hstands, hchosen⟩
  · rw [List.map_map]
    refine List.map_congr_left fun u hu => ?_
    exact Part.unit.inj (h.relocate (hsource.stands u hu) (hsource.next_le hu))

/-- Two sources that parse, with a line feed between them, parse to the units of the first and then
those of the second, if no token of the first is an error and they are not too long together. -/
theorem parse_join (h : parse source = .ok program) (h' : parse other = .ok rest)
    (herror : ∀ t ∈ (lex source).tokens.tokens, t.kind ≠ .error)
    (hlimit : WithinLimit (source ++ "\n" ++ other)) :
    parse (source ++ "\n" ++ other) = .ok
      { span := ⟨0, byteLength (source ++ "\n" ++ other).toList⟩
        body := program.body ++
          rest.body.map (·.relocate (.shift (byteLength source.toList + 1))) } := by
  obtain ⟨-, units, hunits, rfl⟩ := parse_eq_ok_iff.mp h
  obtain ⟨-, units', hunits', rfl⟩ := parse_eq_ok_iff.mp h'
  obtain ⟨j, hsource⟩ := (Grammar.parseUnits_eq_ok_iff (lex_wellSpelled source)).mp hunits
  obtain ⟨k, hsource'⟩ := (Grammar.parseUnits_eq_ok_iff (lex_wellSpelled other)).mp hunits'
  have hlast := (lex_placed source).eq_last hsource.ends fun n hn =>
    hsource.row.inside.2 n (Nat.zero_le n) hn
  have hsize := (lex_placed source).size_pos
  have hlast' := (lex_placed other).eq_last hsource'.ends fun n hn =>
    hsource'.row.inside.2 n (Nat.zero_le n) hn
  have hsize' := (lex_placed other).size_pos
  have hkind (n : Nat) : (lex source).tokens.lexemes.kindAt n ≠ .error := by
    intro hkind
    obtain ⟨t, ht⟩ := (lex source).tokens.exists_get? (i := n) <| by
      have := (lex_placed source).succ_lt_size (i := n) (by rw [hkind]; decide)
      omega
    exact herror t (Array.mem_of_getElem? ht) ((TokenList.kindAt_lexemes ht).symm.trans hkind)
  obtain ⟨hfront, hback⟩ := @lex_join source other j hkind (by omega)
  have hword (n : Nat) : (layout (source ++ "\n" ++ other)).tokens.lexemes.kindAt (j + n) =
      (lex other).tokens.lexemes.kindAt n := by
    rw [← TokenList.kind_eq, ← TokenList.kind_eq, TokenList.kind, TokenList.kind, layout, hback,
      Option.map_map]
    rfl
  have hbytes : byteLength (source.toList ++ ['\n']) = byteLength source.toList + 1 :=
    Text.byteLength_append ..
  have htext : (source ++ "\n" ++ other).toList = source.toList ++ '\n' :: other.toList := by simp
  have hembeds : Embeds source (layout (source ++ "\n" ++ other)) [] 0 j := by
    refine ⟨⟨'\n' :: other.toList, htext⟩, fun n hn => ?_, by omega⟩
    rw [Nat.zero_add, layout, hfront n hn]
    exact (congrFun Option.map_id _).symm
  have hembeds' : Embeds other (layout (source ++ "\n" ++ other)) (source.toList ++ ['\n']) j
      k := by
    refine ⟨⟨[], by simp [layout]⟩, fun n _ => ?_, by omega⟩
    rw [layout, hback, hbytes]
  obtain ⟨moved, hrow, hmoved, hbody⟩ := hembeds.units hsource (by
    rw [Nat.zero_add, ← Nat.add_zero j, hword]
    exact hsource'.joins_first)
  obtain ⟨moved', hrow', hmoved', hbody'⟩ := hembeds'.units hsource' (by
    rw [hword, hsource'.ends]
    rfl)
  have hjoined : (layout (source ++ "\n" ++ other)).tokens.lexemes.IsSource .none (moved ++ moved')
      (j + k) := by
    rw [Nat.zero_add] at hrow
    refine ⟨?_, (hword k).trans hsource'.ends, ?_, ?_⟩
    · rw [List.map_append, Symbol.row, List.map_append]
      exact hrow.append hrow'
    · exact List.forall_mem_append.mpr
        ⟨fun u hu => (hmoved u hu).1, fun u hu => (hmoved' u hu).1⟩
    · exact List.forall_mem_append.mpr
        ⟨fun u hu => (hmoved u hu).2, fun u hu => (hmoved' u hu).2⟩
  refine parse_eq_ok_iff.mpr ⟨hlimit, moved ++ moved',
    (Grammar.parseUnits_eq_ok_iff (lex_wellSpelled _)).mpr ⟨_, hjoined⟩, ?_⟩
  have hunmoved : moved.map (·.relocate (layout (source ++ "\n" ++ other)).relocation) =
      units.map (·.relocate (layout source).relocation) := by
    refine hbody.trans (List.map_congr_left fun u _ => ?_)
    exact Part.unit.inj (Part.relocate_shift_zero (layout source) (.unit u))
  refine congrArg (Program.mk _) ?_
  rw [List.map_append, hunmoved, hbody', hbytes, Layout.program, Layout.program, List.map_map]
  rfl

/-- A source that ends with a comment. -/
def commented : String := "contract C \x7b function f() \x7b if (a) b; \x7d \x7d // c"

/-- A source that begins with an error, which may begin a constant too. -/
def versioned : String := "error E(uint a); pragma p >=1.2 <2; uint constant d = 3;"

/-- One source after another. -/
theorem parse_join_versioned :
    ∃ program rest, parse commented = .ok program ∧ parse versioned = .ok rest ∧
      (∀ t ∈ (lex commented).tokens.tokens, t.kind ≠ .error) ∧
      WithinLimit (commented ++ "\n" ++ versioned) ∧
      parse (commented ++ "\n" ++ versioned) = .ok
        { span := ⟨0, byteLength (commented ++ "\n" ++ versioned).toList⟩
          body := program.body ++
            rest.body.map (·.relocate (.shift (byteLength commented.toList + 1))) } := by
  have hok : (parse commented).isOk = true := by
    rw [commented, parse, read_ofList]
    decide +kernel
  have hok' : (parse versioned).isOk = true := by
    rw [versioned, parse, read_ofList]
    decide +kernel
  have herror : ∀ t ∈ (lex commented).tokens.tokens, t.kind ≠ .error := by
    rw [commented, lex_ofList]
    decide +kernel
  have hlimit : WithinLimit (commented ++ "\n" ++ versioned) := by
    have htext : commented ++ "\n" ++ versioned = String.ofList _ :=
      Text.append_eq_ofList (Text.append_eq_ofList rfl rfl) rfl
    rw [htext, withinLimit_ofList]
    decide
  cases h : parse commented with
  | error e =>
    rw [h] at hok
    cases hok
  | ok program =>
    cases h' : parse versioned with
    | error e =>
      rw [h'] at hok'
      cases hok'
    | ok rest => exact ⟨program, rest, rfl, rfl, herror, hlimit, parse_join h h' herror hlimit⟩

end Source

end SolidityParser
