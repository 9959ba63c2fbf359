import SolidityParser.Proofs.Grammar.Entry
import SolidityParser.Proofs.Lexer.Dispatch
import SolidityParser.Proofs.Reading

/-!
# Tolerance changes no tree

What a source parses to without tolerance, it parses to with tolerance (`Source.parse_tolerant`):
the same units, each node in the same place. The rule for units is steady, so the two runs could
differ only if the strict one failed.
-/

namespace SolidityParser

namespace Grammar

/-- The units that a strict run gives, a tolerant run gives. -/
theorem parseUnits_tolerant {lexemes : Lexemes} {units : List (SourceUnit .parsed)}
    (h : parseUnits lexemes = .ok units) : parseUnits lexemes true = .ok units := by
  have hsteady := units_steady (Inner.built_ofLexemes lexemes)
  unfold parseUnits run at h ⊢
  cases hrun : Grammar.units (Inner.ofLexemes lexemes) { lexemes } {} with
  | error fault t =>
    rw [hrun] at h
    cases h
  | ok value t =>
    rw [hrun] at h
    cases h
    rcases hsteady.agrees (.relax { lexemes }) rfl with he | ⟨_, fault, u, he, _⟩
    · rw [hrun] at he
      obtain ⟨t', hrun', _⟩ := Parser.told_eq_ok he
      rw [show ({ lexemes, tolerant := true } : Scope) = Scope.relaxed { lexemes } from rfl, hrun']
    · rw [hrun] at he
      cases he

end Grammar

namespace Source

/-- The program that a source parses to without tolerance, it parses to with tolerance. -/
theorem parse_tolerant {source : String} {program : Program}
    (h : parse source false = .ok program) : parse source true = .ok program := by
  obtain ⟨hsize, units, hunits, hplaced⟩ := read_eq_ok_iff.mp h
  exact read_eq_ok_iff.mpr ⟨hsize, units, Grammar.parseUnits_tolerant hunits, hplaced⟩

/-- A contract with a function that has a body: strict and tolerant parse give one program. -/
theorem parse_tolerant_contract :
    ∃ program, parse "contract C { function f() public { x = 1; } }" false = .ok program ∧
      parse "contract C { function f() public { x = 1; } }" true = .ok program := by
  have hok : (parse "contract C { function f() public { x = 1; } }" false).isOk = true := by
    rw [parse, read_ofList]
    decide +kernel
  cases h : parse "contract C { function f() public { x = 1; } }" false with
  | error e =>
    rw [h] at hok
    cases hok
  | ok program => exact ⟨program, rfl, parse_tolerant h⟩

end Source

end SolidityParser
