import SolidityParser.Proofs.Production.Thinned
import SolidityParser.Proofs.Sound.Unit

/-!
# Sources in thinned inputs

The units of a source stand in a row in every input that has its words but for those of statements
that could not be read, each without these statements (`Lexemes.units_thin`). After each unit comes
another one, so only what comes after the last is to be seen to.
-/

namespace SolidityParser

namespace Lexemes

variable {lexemes other : Lexemes} {f : Nat → Nat} {repairs : Repairs} {i j : Nat}

/-- A unit that is the first way to read what it is written as is so in another input. -/
theorem ChosenUnit.thin {u : SourceUnit .parsed} (h : lexemes.ChosenUnit u)
    (hs : (Part.unit u).All (lexemes.Supports repairs)) (hthins : lexemes.Thins other f (.unit u)) :
    other.ChosenUnit (u.prune.relocate (.move f)) := by
  cases u with
  | constant declaration =>
    obtain ⟨-, symbols, hphrased, hspells⟩ := hs.here.holds trivial
    have hlt : declaration.place.first + 1 < declaration.place.next := by
      cases hphrased with
      | constant =>
        obtain ⟨⟨hfirst, hcovers⟩, hrest⟩ := hspells
        have hnonempty := hcovers.nonempty
        have hlt := (hrest.covers ⟨.token .semicolon, by simp, rfl⟩).nonempty
        dsimp only [Part.place, SourceUnit.place] at hfirst hlt ⊢
        omega
      | unit hmember => cases hmember
    have hkept := hthins.kept_of_isPhrasal trivial
    have hfirst := hkept _ (Nat.le_refl _)
      (show declaration.place.first < declaration.place.next by omega)
    refine ⟨fun hdefines => h.1 (hdefines.back hfirst (hkept _ (Nat.le_succ _) hlt)), fun hk => ?_⟩
    exact h.2 (hfirst.kindAt.symm.trans hk)
  | _ => trivial

/-- Units in a row stand in a row in another input, each without the statements that could not be
read, if what comes next there is nothing that the last one would go on with. -/
theorem units_thin {units : List (SourceUnit .parsed)}
    (hrow : lexemes.Spells i (Symbol.row (units.map (·.place))) j)
    (hunits : ∀ u ∈ units, (Part.unit u).All (lexemes.Supports repairs) ∧
      lexemes.Thins other f (.unit u))
    (hend : lexemes.Follows other f repairs j) :
    other.Spells (f i) (Symbol.row (units.map fun u => u.place.move f)) (f j) ∧
      lexemes.Follows other f repairs i ∧
      ∀ u ∈ units, ((Part.unit u).prune.relocate (.move f)).All (other.Supports repairs.pruned) := by
  induction units generalizing i with
  | nil =>
    obtain rfl : i = j := hrow
    exact ⟨rfl, hend, by simp⟩
  | cons u units ih =>
    obtain ⟨⟨hs, hthins⟩, hunits⟩ := List.forall_mem_cons.mp hunits
    obtain ⟨⟨hfirst, -⟩, hrest⟩ := hrow
    obtain rfl : u.place.first = i := hfirst
    obtain ⟨hspells, hnext, hothers⟩ := ih hrest hunits
    have hmoved := thin hs id id hthins (.inr hnext)
    have hcovers := hmoved.here.covers
    rw [Part.place_relocate, Part.place_prune] at hcovers
    exact ⟨⟨⟨rfl, hcovers⟩, hspells⟩, hthins.follows hs id id,
      List.forall_mem_cons.mpr ⟨hmoved, hothers⟩⟩

end Lexemes

end SolidityParser
