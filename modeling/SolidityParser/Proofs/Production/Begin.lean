import SolidityParser.Proofs.Grammar.Boundary
import SolidityParser.Proofs.Production.Stops

/-!
# Where a phrase begins

No phrase begins with a token that may follow one, so a rule that asks for such a token in front of
what may be left out is not mistaken (`IsPhrase.begins`). A type begins with a name, with `mapping`
or with `function` (`IsPhrase.beginsType`), an expression with an operand or an operator before one
(`IsPhrase.beginsExpression`).
-/

namespace SolidityParser

/-- The kinds that begin a type. -/
def Kind.beginsType (kind : Kind) : Bool := kind matches .ident | .kwMapping | .kwFunction

/-- The kinds that begin an expression. -/
def Kind.beginsExpression (kind : Kind) : Bool :=
  Grammar.beginsOperand kind || (UnaryOp.leading? kind).isSome

/-- The kinds that only go on with what is before them. -/
def Kind.joins (kind : Kind) : Bool := kind matches .dot | .colon | .kwElse | .kwCatch | .kwReturns

/-- The kinds that a phrase may begin with, as they neither follow one nor go on with it. -/
def Kind.begins (kind : Kind) : Bool := !(kind.ends || kind.joins)

/-- What begins a phrase neither ends nor joins one. -/
theorem Kind.begins_iff {kind : Kind} :
    kind.begins = true ↔ kind.ends = false ∧ kind.joins = false := by
  simp [begins]

namespace Lexemes

variable {lexemes : Lexemes} {i j n : Nat} {part child : Part .parsed}
  {field : List (Part .parsed)}

/-- A part right below a phrase is one where it is spelled. -/
theorem IsPhrase.right_below (h : lexemes.IsPhrase i part j) (hfield : field ∈ part.fields)
    (hchild : child ∈ field) (hfirst : child.place.first = n) :
    lexemes.IsPhrase n child child.place.next :=
  hfirst ▸ h.below hfield hchild

/-- A string begins an operand. -/
theorem begins_of_isString {kind : Kind} (h : kind.isString = true) : kind.begins = true := by
  unfold Kind.isString at h
  split at h <;> first | rfl | cases h

/-- A phrase begins with a part right below, or else with a token that neither follows one nor
goes on with it. -/
theorem begins_of_phrased {symbols : List Symbol} (h : part.Phrased symbols)
    (hspells : lexemes.Spells i symbols j) :
    (lexemes.kindAt i).begins = true ∨
      ∃ field ∈ part.fields, ∃ child ∈ field, child.place.first = i := by
  induction h with
  | name hname =>
    rw [hspells.1.2.1]
    rcases hname with hname | hname | hname <;> exact .inl (by rw [hname]; rfl)
  | number hkind | numberWithUnit hkind =>
    rw [hspells.1.2.1]
    rcases hkind with rfl | rfl <;> exact .inl rfl
  | string hstrings =>
    rw [hspells.1.2.1]
    exact .inl (begins_of_isString (hstrings _ (List.mem_cons_self ..)))
  | @boolean _ value =>
    rw [hspells.1.2]
    cases value <;> exact .inl rfl
  | @before _ operator _ =>
    rw [hspells.1.2]
    cases operator <;> exact .inl rfl
  | identifier | namedArgument | elementary | payableAddress | userDefined | path | invocation
  | importSymbol | error =>
    rw [hspells.1.2.1]
    exact .inl rfl
  | tuple | array | new | mapping | functionType | declarationList | event | struct | enumeration
  | usingLibrary | usingFunctions | valueType | coderPragma | experimentalName
  | experimentalString | pragma | importFile | importAll | importNames =>
    rw [hspells.1.2]
    exact .inl rfl
  | unit hmember _ ih => exact (SourceUnit.fields_of_member? hmember) ▸ ih hspells
  | _ => exact .inr ⟨_, List.mem_cons_self .., _, List.mem_cons_self .., hspells.1.1⟩

/-- The first token of a phrase is none that may follow one, or goes on with one. -/
theorem begins_of_holds (h : part.All lexemes.Holds) :
    (lexemes.kindAt part.place.first).begins = true := by
  induction part using Part.induction with
  | step part ih =>
    obtain ⟨-, symbols, hphrased, hspells⟩ := h.here
    rcases begins_of_phrased hphrased hspells with h' | ⟨field, hfield, child, hchild, hfirst⟩
    · exact h'
    · exact hfirst ▸ ih field hfield child hchild (h.below hfield hchild)

/-- A phrase does not begin with a token that ends one. -/
theorem begins_of_all (h : part.All lexemes.Holds) :
    Kind.ends (lexemes.kindAt part.place.first) = false :=
  (Kind.begins_iff.mp (begins_of_holds h)).1

/-- The first token of a type. -/
theorem beginsType_of_all {type : TypeName Extent} (h : (Part.typeName type).All lexemes.Holds) :
    (lexemes.kindAt type.place.first).beginsType = true := by
  generalize hpart : (Part.typeName type : Part .parsed) = part at h
  induction part using Part.induction generalizing type with
  | step part ih =>
    subst hpart
    obtain ⟨-, symbols, hphrased, hspells⟩ := h.here
    change lexemes.Spells type.place.first symbols _ at hspells
    cases hphrased with
    | elementary | payableAddress | userDefined =>
      rw [hspells.1.2.1]
      rfl
    | mapping | functionType =>
      rw [hspells.1.2]
      rfl
    | @arrayType place base length =>
      have hbase : [Part.typeName base] ∈
          (Part.typeName (.array place base length) : Part .parsed).fields :=
        List.mem_cons_self ..
      rw [← hspells.1.1]
      exact ih _ hbase _ (List.mem_cons_self ..) rfl (h.below hbase (List.mem_cons_self ..))

/-- The first token of an expression. -/
theorem beginsExpression_of_all {e : Expression Extent}
    (h : (Part.expression e).All lexemes.Holds) :
    (lexemes.kindAt e.place.first).beginsExpression = true := by
  generalize hpart : (Part.expression e : Part .parsed) = part at h
  induction part using Part.induction generalizing e with
  | step part ih =>
    subst hpart
    obtain ⟨-, symbols, hphrased, hspells⟩ := h.here
    change lexemes.Spells e.place.first symbols _ at hspells
    -- what begins with another expression begins as that does
    have inner {object : Expression Extent}
        (hobject : [.expression object] ∈ (Part.expression e : Part .parsed).fields)
        (hfirst : object.place.first = e.place.first) :
        (lexemes.kindAt e.place.first).beginsExpression = true :=
      hfirst ▸ ih _ hobject _ (List.mem_singleton_self _) rfl
        (h.below hobject (List.mem_singleton_self _))
    cases hphrased with
    | name hname =>
      rw [hspells.1.2.1]
      rcases hname with hname | hname | hname <;> rw [hname] <;> rfl
    | number hkind | numberWithUnit hkind =>
      rw [hspells.1.2.1]
      rcases hkind with rfl | rfl <;> rfl
    | @string _ first more hstrings =>
      rw [hspells.1.2.1]
      have hfirst := hstrings first (List.mem_cons_self ..)
      unfold Kind.isString at hfirst
      split at hfirst <;> first | (next hk => rw [hk]; rfl) | cases hfirst
    | @boolean _ value =>
      rw [hspells.1.2]
      cases value <;> rfl
    | tuple | array | new =>
      rw [hspells.1.2]
      rfl
    | @before _ operator _ =>
      rw [hspells.1.2]
      cases operator <;> rfl
    | _ => exact inner (List.mem_cons_self ..) hspells.1.1

namespace IsPhrase

/-- So it is with a phrase between two places. -/
theorem begins (h : lexemes.IsPhrase i part j) : Kind.ends (lexemes.kindAt i) = false := by
  have := begins_of_all h.holds
  rwa [h.place] at this

/-- A type begins with a token that may begin one. -/
theorem beginsType {type : TypeName Extent} (h : lexemes.IsPhrase i (.typeName type) j) :
    (lexemes.kindAt i).beginsType = true := by
  have := beginsType_of_all h.holds
  rwa [show type.place = ⟨i, j⟩ from h.place] at this

/-- So does an expression. -/
theorem beginsExpression {e : Expression Extent} (h : lexemes.IsPhrase i (.expression e) j) :
    (lexemes.kindAt i).beginsExpression = true := by
  have := beginsExpression_of_all h.holds
  rwa [show e.place = ⟨i, j⟩ from h.place] at this

end IsPhrase

end Lexemes

end SolidityParser
