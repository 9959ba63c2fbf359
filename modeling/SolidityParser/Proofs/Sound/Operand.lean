import SolidityParser.Proofs.Grammar.Expression
import SolidityParser.Proofs.Parser.Gives
import SolidityParser.Proofs.Production.Stops

/-!
# What the rules for operands read

Each rule for an operand, or for what follows one, reads a phrase that binds as tightly as any. The
rules for what is nested are taken to read phrases of their levels (`Inner.Sound`).
-/

namespace SolidityParser

/-- The rules for what is nested read phrases of their levels. -/
structure Inner.Sound (inner : Inner) : Prop where
  /-- Expressions are whole. -/
  expression {scope : Scope} {i j : Nat} {e : Expression Extent} :
    scope.lexemes.WellSpelled → inner.expression.Gives scope i e j →
      scope.lexemes.IsRead Expression.wholeLevel i e j
  /-- So are assignments. -/
  assignment {scope : Scope} {i j : Nat} {e : Expression Extent} :
    scope.lexemes.WellSpelled → inner.assignment.Gives scope i e j →
      scope.lexemes.IsRead Expression.wholeLevel i e j
  /-- Powers are of level two. -/
  power {scope : Scope} {i j : Nat} {e : Expression Extent} :
    scope.lexemes.WellSpelled → inner.power.Gives scope i e j → scope.lexemes.IsRead 2 i e j
  /-- Operands with operators before them are of level one. -/
  unary {scope : Scope} {i j : Nat} {e : Expression Extent} :
    scope.lexemes.WellSpelled → inner.unary.Gives scope i e j → scope.lexemes.IsRead 1 i e j
  /-- Types end where no bracket makes an array of them. -/
  typeName {scope : Scope} {i j : Nat} {type : TypeName Extent} :
    scope.lexemes.WellSpelled → inner.typeName.Gives scope i type j →
      scope.lexemes.IsPhrase i (.typeName type) j ∧ scope.lexemes.kindAt j ≠ .lbracket

/-! ### Rows of items -/

section Rows

variable {α : Type} {scope : Scope} {i j : Nat} {item : Parser α} {vs : List α}
  {symbols : α → List Symbol}

/-- What the items spell, with commas between. -/
theorem Separated.ne_nil (h : Separated scope item i vs j) : vs ≠ [] := by
  cases h <;> exact List.cons_ne_nil _ _

/-- Items that are read with commas between them spell just that. -/
theorem Separated.spells (h : Separated scope item i vs j)
    (hitem : ∀ i v j, item.Gives scope i v j → scope.lexemes.Spells i (symbols v) j) :
    scope.lexemes.Spells i (Symbol.separated (vs.map symbols)) j := by
  induction h with
  | last only _ => exact hitem _ _ _ only
  | @more i j k v vs first comma rest ih =>
    have hne := rest.ne_nil
    obtain ⟨w, ws, rfl⟩ := List.exists_cons_of_ne_nil hne
    exact (hitem _ _ _ first).append ⟨⟨by decide, comma⟩, ih⟩

/-- What holds of what every item gives. -/
theorem Separated.forall {P : α → Prop} (h : Separated scope item i vs j)
    (hitem : ∀ i v j, item.Gives scope i v j → P v) : ∀ v ∈ vs, P v := by
  induction h with
  | last only _ => simpa using hitem _ _ _ only
  | more first _ _ ih => exact List.forall_mem_cons.mpr ⟨hitem _ _ _ first, ih⟩

variable {close : Kind}

/-- What a series spells, the closing token included. -/
theorem Parser.Gives.series_spells (hclose : close ≠ .eof)
    (h : (Parser.series close item).Gives scope i vs j)
    (hitem : ∀ i v j, item.Gives scope i v j → scope.lexemes.Spells i (symbols v) j) :
    scope.lexemes.Spells i (Symbol.series close (vs.map symbols)) j := by
  rcases h.series hclose with ⟨hi, rfl, rfl⟩ | ⟨-, k, hrow, hk, rfl⟩
  · exact ⟨⟨hclose, hi⟩, rfl⟩
  · exact (hrow.spells hitem).append ⟨⟨hclose, hk⟩, rfl⟩

/-- What holds of what every item of a series gives. -/
theorem Parser.Gives.series_forall {P : α → Prop} (hclose : close ≠ .eof)
    (h : (Parser.series close item).Gives scope i vs j)
    (hitem : ∀ i v j, item.Gives scope i v j → P v) : ∀ v ∈ vs, P v := by
  rcases h.series hclose with ⟨-, rfl, -⟩ | ⟨-, k, hrow, -, -⟩
  · simp
  · exact hrow.forall hitem

/-- What the items spell where each is made of something that is written. -/
theorem Separated.exists_spells {β : Type} {make : β → α} {symbols : β → List Symbol}
    (h : Separated scope item i vs j)
    (hitem : ∀ i v j, item.Gives scope i v j →
      ∃ w, v = make w ∧ scope.lexemes.Spells i (symbols w) j) :
    ∃ ws : List β, ws ≠ [] ∧ vs = ws.map make ∧
      scope.lexemes.Spells i (Symbol.separated (ws.map symbols)) j := by
  induction h with
  | last only _ =>
    obtain ⟨w, rfl, hspells⟩ := hitem _ _ _ only
    exact ⟨[w], by simp, rfl, hspells⟩
  | more first comma _ ih =>
    obtain ⟨w, rfl, hspells⟩ := hitem _ _ _ first
    obtain ⟨ws, hne, rfl, hrest⟩ := ih
    refine ⟨w :: ws, by simp, rfl, ?_⟩
    obtain ⟨w', ws, rfl⟩ := List.exists_cons_of_ne_nil hne
    exact hspells.append ⟨⟨by decide, comma⟩, hrest⟩

/-- What a series spells where each item is made of something that is written. -/
theorem Parser.Gives.series_exists_spells {β : Type} {make : β → α} {symbols : β → List Symbol}
    (hclose : close ≠ .eof) (h : (Parser.series close item).Gives scope i vs j)
    (hitem : ∀ i v j, item.Gives scope i v j →
      ∃ w, v = make w ∧ scope.lexemes.Spells i (symbols w) j) :
    ∃ ws : List β, vs = ws.map make ∧
      scope.lexemes.Spells i (Symbol.series close (ws.map symbols)) j := by
  rcases h.series hclose with ⟨hi, rfl, rfl⟩ | ⟨-, k, hrow, hk, rfl⟩
  · exact ⟨[], rfl, ⟨hclose, hi⟩, rfl⟩
  · obtain ⟨ws, -, rfl, hspells⟩ := hrow.exists_spells hitem
    exact ⟨ws, rfl, hspells.append ⟨⟨hclose, hk⟩, rfl⟩⟩

/-- A list in which nothing is missing. -/
theorem exists_map_some : {l : List (Option α)} → (∀ o ∈ l, ∃ v, o = some v) →
    ∃ values, l = List.map some values
  | [], _ => ⟨[], rfl⟩
  | o :: l, h => by
    obtain ⟨⟨v, rfl⟩, hl⟩ := List.forall_mem_cons.mp h
    obtain ⟨values, rfl⟩ := exists_map_some hl
    exact ⟨v :: values, rfl⟩

end Rows

namespace Grammar

open Lexemes (IsPhrase IsRead Stops)
open Expression (wholeLevel binaryLevel)

variable {inner : Inner} {scope : Scope} {i j k : Nat} {e object : Expression Extent}

/-! ### Operands -/

/-- A name is a phrase, which is whole unless it is a word that has to be called. -/
theorem identifier_isPhrase (hw : scope.lexemes.WellSpelled)
    (hi : scope.lexemes.kindAt i = .ident ∨ scope.lexemes.kindAt i = .kwPayable ∨
      scope.lexemes.kindAt i = .kwType)
    (h : identifier.Gives scope i e j) :
    e = .identifier (Extent.single i) (scope.lexemes.textAt i) ∧ j = i + 1 ∧
      scope.lexemes.IsPhrase i (.expression e) j := by
  have hne : scope.lexemes.kindAt i ≠ .eof := by
    rcases hi with hi | hi | hi <;> rw [hi] <;> decide
  have hword := hw i hi
  obtain ⟨rfl, rfl⟩ := (h.position.text.advance hne).pure
  refine ⟨rfl, rfl, .of_written rfl trivial (.name (by rwa [hword])) ?_ ?_⟩
  · rw [hword]
    exact ⟨⟨hne, rfl, rfl⟩, rfl⟩
  · simp [Part.fields, Part.expressionFields]

/-- A number takes a unit if there is one. -/
theorem number_isPhrase
    (hi : scope.lexemes.kindAt i = .number ∨ scope.lexemes.kindAt i = .hexNumber)
    (h : number.Gives scope i e j) :
    scope.lexemes.IsPhrase i (.expression e) j ∧ e.level = 0 := by
  have hne : scope.lexemes.kindAt i ≠ .eof := by rcases hi with hi | hi <;> rw [hi] <;> decide
  obtain ⟨unit, k, hunit, h⟩ := (h.position.text.advance hne).bind
  obtain ⟨rfl, rfl⟩ := h.extentFrom.pure
  replace hunit := hunit.text.kind
  split at hunit
  · next hu =>
    obtain ⟨rfl, rfl⟩ := (hunit.advance (by rw [hu.1]; decide)).pure
    refine ⟨.of_written rfl trivial (.numberWithUnit hi hu.2) ?_ ?_, rfl⟩
    · exact ⟨⟨hne, rfl, rfl⟩, ⟨by decide, hu.1, rfl⟩, rfl⟩
    · simp [Part.fields, Part.expressionFields]
  · next hu =>
    obtain ⟨rfl, rfl⟩ := hunit.pure
    refine ⟨.of_written rfl trivial (.number hi) ?_ ?_, rfl⟩
    · exact ⟨⟨hne, rfl, rfl⟩, fun hahead => hu (Lexemes.ahead_unit.mp hahead), rfl⟩
    · simp [Part.fields, Part.expressionFields]

/-- Adjacent strings are taken as one, up to a token that is no string. -/
theorem string_isPhrase (hi : (scope.lexemes.kindAt i).isString = true)
    (h : string.Gives scope i e j) :
    scope.lexemes.IsPhrase i (.expression e) j ∧ e.level = 0 := by
  have hne : ∀ {n}, (scope.lexemes.kindAt n).isString = true → scope.lexemes.kindAt n ≠ .eof := by
    intro n hn he
    rw [he] at hn
    cases hn
  obtain ⟨value, k, hloop, h⟩ := (h.position.text.advance (hne hi)).bind
  obtain ⟨rfl, rfl⟩ := h.extentFrom.pure
  -- the strings read so far, and the value they make
  obtain ⟨k, ⟨more, hall, rfl, hspells⟩, hlast⟩ := hloop.iterate
    (P := fun value k => ∃ more : List Lexeme,
      (∀ lexeme ∈ more, lexeme.kind.isString = true) ∧
      value = more.foldl (fun value lexeme => value ++ Quoted.valueOf lexeme.text)
        (Quoted.valueOf (scope.lexemes.textAt i)) ∧
      scope.lexemes.Spells (i + 1) (more.map fun lexeme => .word lexeme.kind lexeme.text) k)
    ⟨[], by simp, rfl, rfl⟩ (by
      rintro value k w l ⟨more, hall, rfl, hspells⟩ hstep
      replace hstep := hstep.kind
      split at hstep
      · next hs =>
        obtain ⟨hw, rfl⟩ := (hstep.text.advance (hne hs)).pure
        cases hw
        refine ⟨more ++ [scope.lexemes.lexemeAt k], ?_, by simp [Lexemes.lexemeAt], ?_⟩
        · simpa using fun lexeme h => h.elim (hall lexeme) fun h => h ▸ hs
        · rw [List.map_append]
          exact hspells.append ⟨⟨hne hs, rfl, rfl⟩, rfl⟩
      · obtain ⟨hw, -⟩ := hstep.pure
        cases hw)
  replace hlast := hlast.kind
  split at hlast
  · next hs =>
    obtain ⟨hw, -⟩ := (hlast.text.advance (hne hs)).pure
    cases hw
  · next hs =>
    obtain ⟨-, rfl⟩ := hlast.pure
    have hstrings : ∀ lexeme ∈ scope.lexemes.lexemeAt i :: more, lexeme.kind.isString = true :=
      List.forall_mem_cons.mpr ⟨hi, hall⟩
    refine ⟨.of_written rfl trivial
      (@Part.Phrased.string _ (scope.lexemes.lexemeAt i) more hstrings) ?_ ?_, rfl⟩
    · rw [List.map_cons]
      exact ⟨⟨hne hi, rfl, rfl⟩,
        hspells.append ⟨fun hahead => hs (Lexemes.ahead_string.mp hahead), rfl⟩⟩
    · simp [Part.fields, Part.expressionFields]

/-- A truth value is one keyword. -/
theorem boolean_isPhrase {value : Bool}
    (hi : scope.lexemes.kindAt i = if value then .kwTrue else .kwFalse)
    (h : (boolean value).Gives scope i e j) :
    scope.lexemes.IsPhrase i (.expression e) j ∧ e.level = 0 := by
  have hne : (if value then Kind.kwTrue else .kwFalse) ≠ .eof := by cases value <;> decide
  obtain ⟨rfl, rfl⟩ := (h.position.advance (hi ▸ hne)).pure
  exact ⟨.of_written rfl trivial .boolean ⟨⟨hne, hi⟩, rfl⟩
    (by simp [Part.fields, Part.expressionFields]), rfl⟩

section Nested

variable (hi : inner.Sound) (hw : scope.lexemes.WellSpelled)

include hi hw

/-- What holds of the value of every expression in a list. -/
theorem expression_spells (h : inner.expression.Gives scope i e j) :
    scope.lexemes.Spells i [.part e.place] j :=
  (hi.expression hw h).phrase.spells rfl

/-- What is in parentheses is a tuple, unless it is one expression. -/
theorem tuple_isPhrase (hk : scope.lexemes.kindAt i = .lparen)
    (h : (tuple inner false).Gives scope i e j) :
    scope.lexemes.IsPhrase i (.expression e) j ∧ e.level = 0 := by
  obtain ⟨components, k, hseries, h⟩ := (h.position.advance (by rw [hk]; decide)).bind
  obtain ⟨rfl, rfl⟩ := h.extentFrom.pure
  have hitem : ∀ i v j, (component inner false).Gives scope i v j →
      scope.lexemes.Spells i (Symbol.option (v.map (·.place))) j ∧
        (∀ e, v = some e → e.IsWhole ∧ (Part.expression e).All scope.lexemes.Holds) := by
    intro i v j h
    replace h := h.kind
    split at h
    · obtain ⟨rfl, rfl⟩ := h.pure
      exact ⟨rfl, by simp⟩
    · obtain ⟨e, k, he, h⟩ := h.bind
      obtain ⟨rfl, rfl⟩ := h.pure
      have hread := hi.expression hw he
      refine ⟨hread.phrase.spells rfl, ?_⟩
      rintro _ ⟨⟩
      exact ⟨hread.level_le, hread.phrase.holds⟩
  have hspells := hseries.series_spells (by decide) fun i v j h => (hitem i v j h).1
  have hforall := hseries.series_forall (by decide) fun i v j h => (hitem i v j h).2
  refine ⟨.of_written rfl (fun e he => (hforall _ he e rfl).1) (.tuple ?_)
    ⟨⟨by decide, hk⟩, hspells⟩ ?_, rfl⟩
  · -- a single slot that is empty would have closed the tuple
    rintro rfl
    rcases hseries.series (by decide) with ⟨-, hnil, -⟩ | ⟨hne, _, hrow, hclose, rfl⟩
    · cases hnil
    · cases hrow with
      | last only hcomma =>
        replace only := only.kind
        split at only
        · obtain ⟨-, rfl⟩ := only.pure
          exact hne hclose
        · obtain ⟨_, _, -, h⟩ := only.bind
          cases h.pure.1
      | more _ _ rest => cases rest
  · simp only [Part.fields, Part.expressionFields, List.forall_mem_singleton,
      List.forall_mem_map, Part.forall_mem_reduceOption]
    exact fun slot hslot e he => (hforall slot hslot e he).2

/-- What is in brackets is an array. -/
theorem array_isPhrase (hk : scope.lexemes.kindAt i = .lbracket)
    (h : (tuple inner true).Gives scope i e j) :
    scope.lexemes.IsPhrase i (.expression e) j ∧ e.level = 0 := by
  obtain ⟨components, k, hseries, h⟩ := (h.position.advance (by rw [hk]; decide)).bind
  obtain ⟨rfl, rfl⟩ := h.extentFrom.pure
  have hitem : ∀ i v j, (component inner true).Gives scope i v j →
      scope.lexemes.Spells i (Symbol.option (v.map (·.place))) j ∧
        ∃ e, v = some e ∧ e.IsWhole ∧ (Part.expression e).All scope.lexemes.Holds := by
    intro i v j h
    replace h := h.kind
    rw [if_neg (by simp)] at h
    obtain ⟨e, k, he, h⟩ := h.bind
    obtain ⟨rfl, rfl⟩ := h.pure
    have hread := hi.expression hw he
    exact ⟨hread.phrase.spells rfl, e, rfl, hread.level_le, hread.phrase.holds⟩
  have hspells := hseries.series_spells (by decide) fun i v j h => (hitem i v j h).1
  have hforall := hseries.series_forall (by decide) fun i v j h => (hitem i v j h).2
  -- no component is left out
  obtain ⟨values, rfl⟩ := exists_map_some fun v hv => (hforall v hv).imp fun _ h => h.1
  refine ⟨.of_written rfl ?_ .array ⟨⟨by decide, hk⟩, ?_⟩ ?_, rfl⟩
  · intro e he
    obtain ⟨_, ⟨⟩, hwhole, -⟩ := hforall _ he
    exact hwhole
  · simpa [Function.comp_def, Symbol.option] using hspells
  · simp only [Part.fields, Part.expressionFields, List.forall_mem_singleton,
      List.forall_mem_map, Part.forall_mem_reduceOption]
    rintro value hvalue _ ⟨⟩
    obtain ⟨_, ⟨⟩, -, hall⟩ := hforall _ (List.mem_map_of_mem hvalue)
    exact hall

/-- A type that is created takes all its brackets. -/
theorem newExpression_isPhrase (hk : scope.lexemes.kindAt i = .kwNew)
    (h : (newExpression inner).Gives scope i e j) :
    scope.lexemes.IsPhrase i (.expression e) j ∧ e.level = 0 := by
  obtain ⟨type, k, htype, h⟩ := (h.position.advance (by rw [hk]; decide)).bind
  obtain ⟨rfl, rfl⟩ := h.extentFrom.pure
  obtain ⟨hphrase, hbracket⟩ := hi.typeName hw htype.within.finish
  have hahead : ¬ scope.lexemes.Ahead j (.kinds [.lbracket]) := by
    rwa [Lexemes.ahead_kind (by decide)]
  refine ⟨.of_written rfl trivial .new ⟨⟨by decide, hk⟩, hphrase.spells ⟨hahead, rfl⟩⟩ ?_, rfl⟩
  simpa [Part.fields, Part.expressionFields] using hphrase.holds

/-! ### What follows an operand -/

/-- Named arguments are spelled in braces. -/
theorem namedArguments_spells {values : List (NamedArgument Extent)}
    (h : (namedArguments inner).Gives scope i values j) :
    scope.lexemes.Spells i (Symbol.series .rbrace (values.map fun a => [.part a.place])) j ∧
      ∀ a ∈ values, (Part.namedArgument a).All scope.lexemes.Holds := by
  have hitem : ∀ i v j, Parser.Gives scope i (do
      let name ← Parser.expectIdent
      Parser.expect .colon
      let value ← inner.expression
      return .mk (name.place.upTo value.place) name.name value) v j →
      scope.lexemes.IsPhrase i (.namedArgument v) j := by
    intro i v j h
    obtain ⟨hname, h⟩ := h.expectIdent
    obtain ⟨hcolon, h⟩ := h.expect (by decide)
    obtain ⟨value, k, hvalue, h⟩ := h.bind
    obtain ⟨rfl, rfl⟩ := h.pure
    have hread := hi.expression hw hvalue
    refine .of_written ?_ ?_ .namedArgument
      ⟨⟨by decide, hname, rfl⟩, ⟨by decide, hcolon⟩, hread.phrase.spells rfl⟩ ?_
    · simp only [Part.place, NamedArgument.place, Extent.upTo, Extent.single, hread.place]
    · simpa [Part.Tight, Part.fields, Expression.IsWhole] using hread.level_le
    · simpa [Part.fields] using hread.phrase.holds
  exact ⟨h.series_spells (by decide) fun i v j h => (hitem i v j h).spells rfl,
    h.series_forall (by decide) fun i v j h => (hitem i v j h).holds⟩

omit hi hw in
/-- A member is an operand. -/
theorem member_isPhrase (hobject : scope.lexemes.IsPhrase i (.expression object) j)
    (hlevel : object.level = 0) (hk : scope.lexemes.kindAt j = .dot)
    (h : (member object).Gives scope j e k) :
    scope.lexemes.IsPhrase i (.expression e) k ∧ e.level = 0 := by
  have hplace : object.place = ⟨i, j⟩ := hobject.place
  obtain ⟨hname, h⟩ := (h.advance (by rw [hk]; decide)).expectIdent
  obtain ⟨rfl, rfl⟩ := h.pure
  rw [hplace]
  have hproperty : scope.lexemes.IsPhrase (j + 1)
      (.identifier ⟨Extent.single (j + 1), scope.lexemes.textAt (j + 1)⟩) (j + 1 + 1) :=
    .of_written rfl (by simp [Part.Tight, Part.fields]) .identifier
      ⟨⟨by decide, hname, rfl⟩, rfl⟩ (by simp [Part.fields])
  refine ⟨.of_written rfl hlevel .member
    (hobject.spells ⟨⟨by decide, hk⟩, hproperty.spells rfl⟩) ?_, rfl⟩
  simpa [Part.fields, Part.expressionFields] using ⟨hobject.holds, hproperty.holds⟩

/-- A bound is spelled up to the token it is left out before. -/
theorem bound?_spells {close : Kind} {bound : Option (Expression Extent)}
    (h : (bound? inner close).Gives scope i bound j) :
    scope.lexemes.Spells i (Symbol.option (bound.map (·.place))) j ∧
      ∀ e, bound = some e → e.IsWhole ∧ (Part.expression e).All scope.lexemes.Holds := by
  rcases h.kindIf with ⟨-, h⟩ | ⟨-, h⟩
  · obtain ⟨rfl, rfl⟩ := h.pure
    exact ⟨rfl, by simp⟩
  · obtain ⟨e, k, he, h⟩ := h.bind
    obtain ⟨rfl, rfl⟩ := h.pure
    have hread := hi.expression hw he
    refine ⟨hread.phrase.spells rfl, ?_⟩
    rintro _ ⟨⟩
    exact ⟨hread.level_le, hread.phrase.holds⟩

/-- An index or a slice is an operand. -/
theorem subscript_isPhrase (hobject : scope.lexemes.IsPhrase i (.expression object) j)
    (hlevel : object.level = 0) (hk : scope.lexemes.kindAt j = .lbracket)
    (h : (subscript inner object).Gives scope j e k) :
    scope.lexemes.IsPhrase i (.expression e) k ∧ e.level = 0 := by
  have hplace : object.place = ⟨i, j⟩ := hobject.place
  unfold subscript at h
  simp only [hplace] at h
  rcases (h.advance (by rw [hk]; decide)).eatIf (by decide) with ⟨hclose, h⟩ | ⟨-, h⟩
  · obtain ⟨rfl, rfl⟩ := h.extentFrom.pure
    refine ⟨.of_written rfl ⟨hlevel, by simp⟩ .index
      (hobject.spells ⟨⟨by decide, hk⟩, ⟨by decide, hclose⟩, rfl⟩) ?_, rfl⟩
    simpa [Part.fields, Part.expressionFields] using hobject.holds
  · obtain ⟨first, l, hfirst, h⟩ := h.bind
    obtain ⟨hspells, hall⟩ := bound?_spells hi hw hfirst
    rcases h.eatIf (by decide) with ⟨hcolon, h⟩ | ⟨-, h⟩
    · obtain ⟨last, m, hlast, h⟩ := h.bind
      obtain ⟨hspells', hall'⟩ := bound?_spells hi hw hlast
      obtain ⟨hclose, h⟩ := h.expect (by decide)
      obtain ⟨rfl, rfl⟩ := h.extentFrom.pure
      refine ⟨.of_written rfl
        ⟨hlevel, fun e he => (hall e he).1, fun e he => (hall' e he).1⟩ .slice
        (hobject.spells ⟨⟨by decide, hk⟩, ?_⟩) ?_, rfl⟩
      · have hrest : scope.lexemes.Spells l
            (.token .colon :: Symbol.option (last.map (·.place)) ++ [.token .rbracket]) _ :=
          Lexemes.Spells.append ⟨⟨by decide, hcolon⟩, hspells'⟩ ⟨⟨by decide, hclose⟩, rfl⟩
        simpa using hspells.append hrest
      · simp only [Part.fields, Part.expressionFields, List.forall_mem_cons, List.forall_mem_map,
          Part.forall_mem_toList]
        simpa using ⟨hobject.holds, fun e he => (hall e he).2, fun e he => (hall' e he).2⟩
    · obtain ⟨hclose, h⟩ := h.expect (by decide)
      obtain ⟨rfl, rfl⟩ := h.extentFrom.pure
      refine ⟨.of_written rfl ⟨hlevel, fun e he => (hall e he).1⟩ .index
        (hobject.spells ⟨⟨by decide, hk⟩, hspells.append ⟨⟨by decide, hclose⟩, rfl⟩⟩) ?_, rfl⟩
      simp only [Part.fields, Part.expressionFields, List.forall_mem_cons, List.forall_mem_map,
        Part.forall_mem_toList]
      simpa using ⟨hobject.holds, fun e he => (hall e he).2⟩

/-- A call is one of an operand, or of one of the words that are names only there. -/
theorem call_isPhrase {callee : Expression Extent}
    (hcallee : scope.lexemes.IsPhrase i (.expression callee) j)
    (hlevel : callee.level = 0 ∨ callee.IsCalledWord) (hk : scope.lexemes.kindAt j = .lparen)
    (h : (call inner callee).Gives scope j e k) :
    scope.lexemes.IsPhrase i (.expression e) k ∧ e.level = 0 := by
  have hplace : callee.place = ⟨i, j⟩ := hcallee.place
  obtain ⟨given, l, hgiven, h⟩ := (h.advance (by rw [hk]; decide)).bind
  obtain ⟨rfl, rfl⟩ := h.extentFrom.pure
  rw [hplace]
  rcases hgiven.kindIf with ⟨hbrace, hgiven⟩ | ⟨-, hgiven⟩
  · obtain ⟨values, m, hvalues, hgiven⟩ := (hgiven.advance (by rw [hbrace]; decide)).bind
    obtain ⟨hspells, hall⟩ := namedArguments_spells hi hw hvalues
    obtain ⟨hclose, hgiven⟩ := hgiven.expect (by decide)
    obtain ⟨rfl, rfl⟩ := hgiven.pure
    refine ⟨.of_written rfl ⟨hlevel, trivial⟩ .callByName
      (hcallee.spells ⟨⟨by decide, hk⟩, ⟨by decide, hbrace⟩, ?_⟩) ?_, rfl⟩
    · exact hspells.append ⟨⟨by decide, hclose⟩, rfl⟩
    · simpa [Part.fields, Part.expressionFields] using ⟨hcallee.holds, hall⟩
  · obtain ⟨values, m, hvalues, hgiven⟩ := hgiven.bind
    obtain ⟨rfl, rfl⟩ := hgiven.pure
    have hspells := hvalues.within.series_spells (by decide) fun _ _ _ h =>
      expression_spells hi hw h
    have hall := hvalues.within.series_forall (by decide) fun i v j h =>
      And.intro (hi.expression hw h).level_le (hi.expression hw h).phrase.holds
    refine ⟨.of_written rfl ⟨hlevel, fun e he => (hall e he).1⟩ .call
      (hcallee.spells ⟨⟨by decide, hk⟩, hspells⟩) ?_, rfl⟩
    simpa [Part.fields, Part.expressionFields] using ⟨hcallee.holds, fun e he => (hall e he).2⟩

/-- So is what options are given to. -/
theorem callOptions_isPhrase {callee : Expression Extent}
    (hcallee : scope.lexemes.IsPhrase i (.expression callee) j) (hlevel : callee.level = 0)
    (hk : scope.lexemes.kindAt j = .lbrace) (hname : scope.lexemes.kindAt (j + 1) = .ident)
    (h : (callOptions inner callee).Gives scope j e k) :
    scope.lexemes.IsPhrase i (.expression e) k ∧ e.level = 0 := by
  have hplace : callee.place = ⟨i, j⟩ := hcallee.place
  obtain ⟨options, l, hoptions, h⟩ := (h.advance (by rw [hk]; decide)).bind
  obtain ⟨rfl, rfl⟩ := h.extentFrom.pure
  rw [hplace]
  obtain ⟨hspells, hall⟩ := namedArguments_spells hi hw hoptions
  have hne : options ≠ [] := by
    rintro rfl
    have := hspells.1.2
    rw [hname] at this
    cases this
  refine ⟨.of_written rfl hlevel (.callOptions hne)
    (hcallee.spells ⟨⟨by decide, hk⟩, hspells⟩) ?_, rfl⟩
  simpa [Part.fields, Part.expressionFields] using ⟨hcallee.holds, hall⟩

omit hi hw in
/-- So is what an operator stands behind. -/
theorem trailingOperator_isPhrase {operator : UnaryOp} {argument : Expression Extent}
    (hargument : scope.lexemes.IsPhrase i (.expression argument) j)
    (hlevel : argument.level = 0)
    (hk : UnaryOp.trailing? (scope.lexemes.kindAt j) = some operator)
    (h : (trailingOperator operator argument).Gives scope j e k) :
    scope.lexemes.IsPhrase i (.expression e) k ∧ e.level = 0 := by
  have hplace : argument.place = ⟨i, j⟩ := hargument.place
  have hkind : scope.lexemes.kindAt j = operator.kind := by
    unfold UnaryOp.trailing? at hk
    split at hk <;> cases hk <;> assumption
  have hne : operator.kind ≠ .eof := by cases operator <;> decide
  obtain ⟨rfl, rfl⟩ := (h.advance (hkind ▸ hne)).extentFrom.pure
  rw [hplace]
  refine ⟨.of_written rfl hlevel (.after (hkind ▸ hk))
    (hargument.spells ⟨⟨hne, hkind⟩, rfl⟩) ?_, rfl⟩
  simpa [Part.fields, Part.expressionFields] using hargument.holds

end Nested

end Grammar

end SolidityParser
