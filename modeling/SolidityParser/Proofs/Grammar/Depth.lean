import SolidityParser.Proofs.Accounts.Unit
import SolidityParser.Proofs.Grammar.ByWords
import SolidityParser.Proofs.Grammar.Entry
import SolidityParser.Proofs.Parser.Gives

/-!
# Levels of nesting do not matter

An expression is read by the rules of any level in the same way, as long as the levels below are at
least as many as the tokens left (`Inner.expression_reads`, `Inner.assignment_reads`). This is what
the accounts of two readings of one input say, but for the failures on record and the mode, on which
such runs do not depend.
-/

namespace SolidityParser

open SolidityParser.Parser (Accounts)

variable {α : Type} {scope scope' : Scope} {n k depth depth' : Nat}

/-- An input and itself, up to a token. -/
def Alike.upTo (lexemes : Lexemes) (bound : Nat) : Alike := { Alike.refl lexemes with
  bound
  kindAt := fun _ _ => rfl
  textAt := fun _ _ => rfl
  whole := nofun }

/-- Of two parsers with accounts of one input, the second reads what the first gives. -/
theorem Parser.Accounts.reads {p q : Parser α} {post : α → Nat → Prop} {v : α}
    (h : ∀ bound, Accounts (.upTo scope.lexemes bound) false n p q post) (hp : p.ByWords)
    (hq : q.ByWords) (hsteady : p.Steady 1) (hsteady' : q.Steady 1)
    (hn : n ≤ scope.lexemes.size) (hw : scope'.lexemes = scope.lexemes)
    (hgives : p.Gives scope n v k) : q.Reads scope' n v k := by
  obtain ⟨s, t, hrun, rfl, rfl⟩ := hgives
  rw [hp scope] at hrun
  obtain ⟨trail, hread⟩ := hsteady.reads hrun {}
  -- the inputs agree as far as the run goes, since they are one
  let bound := (Parser.final (p { lexemes := scope.lexemes } ⟨s.position, {}⟩)).mark
  have haccount := h bound ⟨s.position, {}⟩ rfl Trail.exact_empty nofun hn
  have hsame := haccount.same hn (Nat.le_refl bound)
  have hread' : q { lexemes := scope.lexemes } ⟨s.position, {}⟩ = .ok v ⟨t.position, trail⟩ :=
    hsame.trans hread
  rw [Parser.Reads, hq scope', hw]
  intro trail'
  exact (hsteady'.reads hread') trail'

namespace Inner

variable (hd : scope.lexemes.size < n + depth) (hd' : scope.lexemes.size < n + depth')

include hd hd'

/-- Two levels have accounts of one input. -/
theorem account_upTo (bound : Nat) :
    Account (.upTo scope.lexemes bound) n (upTo depth) (upTo depth') :=
  Accounts.account (accounts_upTo depth depth' hd hd') (Nat.le_refl n)

theorem expression_reads {v : Expression Extent} (hn : n ≤ scope.lexemes.size)
    (hw : scope'.lexemes = scope.lexemes) (h : (upTo depth).expression.Gives scope n v k) :
    (upTo depth').expression.Reads scope' n v k :=
  Accounts.reads (fun bound => (account_upTo hd hd' bound).expression)
    (byWords_upTo depth).expression (byWords_upTo depth').expression
    ((built_upTo depth).expression {}).steady ((built_upTo depth').expression {}).steady hn hw h

theorem assignment_reads {v : Expression Extent} (hn : n ≤ scope.lexemes.size)
    (hw : scope'.lexemes = scope.lexemes) (h : (upTo depth).assignment.Gives scope n v k) :
    (upTo depth').assignment.Reads scope' n v k :=
  Accounts.reads (fun bound => (account_upTo hd hd' bound).assignment)
    (byWords_upTo depth).assignment (byWords_upTo depth').assignment
    ((built_upTo depth).assignment {}).steady ((built_upTo depth').assignment {}).steady hn hw h

omit hd' in
/-- An expression of one level is an assignment of the level below. -/
theorem expression_gives_iff {v : Expression Extent} (hn : n ≤ scope.lexemes.size) :
    (Grammar.expression (upTo depth)).Gives scope n v k ↔
      (upTo depth).assignment.Gives scope n v k := by
  have hd' : scope.lexemes.size < n + (depth + 1) := by omega
  constructor
  · intro h
    have habove : (upTo (depth + 1)).assignment.Gives scope n v k := h.named
    exact .of_reads (assignment_reads hd' hd hn rfl habove)
  · intro h
    have habove : (Grammar.assignment (upTo depth)).Reads scope n v k :=
      assignment_reads hd hd' hn rfl h
    exact .of_reads habove.named

end Inner

end SolidityParser
