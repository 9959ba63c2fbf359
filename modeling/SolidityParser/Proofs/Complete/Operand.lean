import SolidityParser.Proofs.Grammar.Expression
import SolidityParser.Proofs.Grammar.Boundary
import SolidityParser.Proofs.Parser.Loops
import SolidityParser.Proofs.Production.Begin

/-!
# Operands are read

The rule for operands reads each operand that stands in the input, and the rule for what follows one
reads each thing that does. The rules for what is nested are taken to read what begins so close to
the end of the input that their depth suffices (`Inner.Complete`).
-/

namespace SolidityParser

open SolidityParser.Parser (Reads Rounds)
open Expression (wholeLevel)

/-- The rules for what is nested read every phrase of their levels that begins less than `depth`
tokens before the end of the input, the end being a token too. -/
structure Inner.Complete (inner : Inner) (depth : Nat) : Prop where
  /-- Expressions are whole. -/
  expression {scope : Scope} {i j : Nat} {e : Expression Extent} :
    scope.lexemes.size < i + depth → scope.lexemes.IsRead wholeLevel i e j →
      inner.expression.Reads scope i e j
  /-- So are assignments. -/
  assignment {scope : Scope} {i j : Nat} {e : Expression Extent} :
    scope.lexemes.size < i + depth → scope.lexemes.IsRead wholeLevel i e j →
      inner.assignment.Reads scope i e j
  /-- Powers are of level two. -/
  power {scope : Scope} {i j : Nat} {e : Expression Extent} :
    scope.lexemes.size < i + depth → scope.lexemes.IsRead 2 i e j →
      inner.power.Reads scope i e j
  /-- Operands with operators before them are of level one. -/
  unary {scope : Scope} {i j : Nat} {e : Expression Extent} :
    scope.lexemes.size < i + depth → scope.lexemes.IsRead 1 i e j →
      inner.unary.Reads scope i e j
  /-- Types end where no bracket makes an array of them. -/
  typeName {scope : Scope} {i j : Nat} {type : TypeName Extent} :
    scope.lexemes.size < i + depth → scope.lexemes.IsPhrase i (.typeName type) j →
      scope.lexemes.kindAt j ≠ .lbracket → inner.typeName.Reads scope i type j

/-- A token after a whole expression, and no brace. -/
theorem Lexemes.Stops.of_ends {lexemes : Lexemes} {level i : Nat} {kind : Kind}
    (hk : lexemes.kindAt i = kind) (h : kind.ends = true ∧ kind ≠ .lbrace) :
    lexemes.Stops level i :=
  .of_kind (by rw [hk]; exact .of_ends h.1) (by rw [hk]; exact h.2)

/-- A phrase does not begin with a token that ends one. -/
theorem Lexemes.IsPhrase.kindAt_ne {lexemes : Lexemes} {i j : Nat} {part : Part .parsed}
    {kind : Kind} (h : lexemes.IsPhrase i part j) (hk : kind.ends = true) :
    lexemes.kindAt i ≠ kind := by
  rintro rfl
  rw [h.begins] at hk
  cases hk

namespace Grammar

variable {inner : Inner} {scope : Scope} {i j k depth : Nat} {e object : Expression Extent}

/-! ### Operands without others in them -/

/-- A name is read. -/
theorem identifier_reads {name : String} (hk : scope.lexemes.kindAt i ≠ .eof)
    (hname : scope.lexemes.textAt i = name) :
    identifier.Reads scope i (.identifier (Extent.single i) name) (i + 1) := by
  subst hname
  exact .bind .position <| .bind .text <| .bind (.advance hk) .pure

/-- A number is read, without a unit where none follows. -/
theorem number_reads {raw : String} (hk : scope.lexemes.kindAt i ≠ .eof)
    (hraw : scope.lexemes.textAt i = raw) (hunit : ¬ scope.lexemes.Ahead (i + 1) .unit) :
    number.Reads scope i (.number ⟨i, i + 1⟩ (NumberValue.ofLiteral raw) raw none) (i + 1) := by
  subst hraw
  rw [Lexemes.ahead_unit] at hunit
  refine .bind .position <| .bind .text <| .bind (.advance hk) <| .bind (v := none) (j := i + 1)
    (.bind .text <| .bind .kind ?_) (.bind .extentFrom .pure)
  rw [if_neg hunit]
  exact .pure

/-- It is read with a unit where one does. -/
theorem number_reads_unit {raw unit : String} (hk : scope.lexemes.kindAt i ≠ .eof)
    (hraw : scope.lexemes.textAt i = raw) (hunit : scope.lexemes.Ahead (i + 1) .unit)
    (htext : scope.lexemes.textAt (i + 1) = unit) :
    number.Reads scope i (.number ⟨i, i + 2⟩ (NumberValue.ofLiteral raw) raw (some unit))
      (i + 2) := by
  subst hraw htext
  rw [Lexemes.ahead_unit] at hunit
  refine .bind .position <| .bind .text <| .bind (.advance hk) <|
    .bind (v := some (scope.lexemes.textAt (i + 1))) (j := i + 2)
      (.bind .text <| .bind .kind ?_) (.bind .extentFrom .pure)
  rw [if_pos hunit]
  exact .bind (.advance (by rw [hunit.1]; decide)) .pure

/-- Strings in a row are read as long as there are any. -/
theorem string_reads {first : Lexeme} {more : List Lexeme}
    (hall : ∀ lexeme ∈ first :: more, lexeme.kind.isString = true)
    (h : scope.lexemes.Spells i
      ((first :: more).map (fun lexeme => .word lexeme.kind lexeme.text) ++ [.no .string]) j) :
    string.Reads scope i (.string ⟨i, j⟩
      (more.foldl (fun value lexeme => value ++ Quoted.valueOf lexeme.text)
        (Quoted.valueOf first.text)) (Quoted.kindOf first.text)) j := by
  have hsize : i < j → j ≤ scope.lexemes.size := h.le_size
  obtain ⟨⟨hne, hk, htext⟩, hrest⟩ := h
  obtain ⟨hfirst, hall⟩ := List.forall_mem_cons.mp hall
  have rounds : ∀ (more : List Lexeme) (value : String) (k : Nat),
      (∀ lexeme ∈ more, lexeme.kind.isString = true) →
      scope.lexemes.Spells k
        (more.map (fun lexeme => .word lexeme.kind lexeme.text) ++ [.no .string]) j →
      Rounds scope (fun value => do
        if (← Parser.kind).isString then
          let more ← Parser.text
          Parser.advance
          return some (value ++ Quoted.valueOf more)
        return none) value k
        (more.foldl (fun value lexeme => value ++ Quoted.valueOf lexeme.text) value) j := by
    intro more
    induction more with
    | nil =>
      rintro value k - ⟨-, rfl⟩
      exact .refl _ _
    | cons lexeme more ih =>
      rintro value k hall ⟨⟨hne, hk, htext⟩, hrest⟩
      obtain ⟨hlexeme, hall⟩ := List.forall_mem_cons.mp hall
      refine .head (w := value ++ Quoted.valueOf lexeme.text) (.bind .kind ?_) (Nat.lt_succ_self k)
        (ih _ _ hall hrest)
      rw [if_pos (by rw [hk]; exact hlexeme), ← htext]
      exact .bind .text <| .bind (.advance (by rw [hk]; exact hne)) .pure
  have hlast : ¬ scope.lexemes.Ahead j .string := by
    obtain ⟨k, -, hno, rfl⟩ := Lexemes.spells_append.mp hrest
    exact hno
  rw [Lexemes.ahead_string] at hlast
  have hlt := hrest.inside.1
  rw [← htext]
  refine .bind .position <| .bind .text <| .bind (.advance (by rw [hk]; exact hne)) <|
    .bind (.iterate (rounds more _ _ hall hrest) (k := j) (.bind .kind ?_) ?_)
      (.bind .extentFrom .pure)
  · rw [if_neg hlast]
    exact .pure
  · exact hsize (by omega)

/-- A truth value is read. -/
theorem boolean_reads {value : Bool} (hk : scope.lexemes.kindAt i ≠ .eof) :
    (boolean value).Reads scope i (.boolean (Extent.single i) value) (i + 1) :=
  .bind .position <| .bind (.advance hk) .pure

/-! ### Operands around others -/

section Nested

variable (hi : inner.Complete depth) (hd : scope.lexemes.size ≤ i + depth)

include hi

/-- A whole expression is read up to a token that may follow one. -/
theorem nested_reads (h : scope.lexemes.IsPhrase i (.expression e) j) (hwhole : e.IsWhole)
    (hd : scope.lexemes.size < i + depth) {kind : Kind} (hk : scope.lexemes.kindAt j = kind)
    (hends : kind.ends = true ∧ kind ≠ .lbrace) : inner.expression.Reads scope i e j :=
  hi.expression hd ⟨h, hwhole, .of_ends hk hends⟩

include hd

/-- What is in parentheses is read, component by component. -/
theorem tuple_reads {components : List (Option (Expression Extent))}
    (h : scope.lexemes.IsPhrase i (.expression (.tuple ⟨i, j⟩ components false)) j)
    (hne : components ≠ [none]) (hspells : scope.lexemes.Spells i (.token .lparen ::
      Symbol.series .rparen (components.map fun e => Symbol.option (e.map (·.place)))) j) :
    (tuple inner false).Reads scope i (.tuple ⟨i, j⟩ components false) j := by
  obtain ⟨⟨-, hopen⟩, hseries⟩ := hspells
  have hslot {e n} (he : some e ∈ components) (hfirst : e.place.first = n) :
      scope.lexemes.IsPhrase n (.expression e) e.place.next :=
    h.right_below (List.mem_singleton_self _)
      (List.mem_map_of_mem (List.reduceOption_mem_iff.mpr he)) hfirst
  refine .bind .position <| .bind (.advance (by rw [hopen]; decide)) <|
    .bind (.series (by decide) hseries ?_ ?_) (.bind .extentFrom .pure)
  · -- of several slots, an empty one is first only before a comma
    intro hsome
    obtain ⟨slot, rest, rfl⟩ := List.exists_cons_of_ne_nil hsome
    obtain ⟨m, hfirst, hnext⟩ := hseries.series_cons
    cases slot with
    | none =>
      obtain rfl : i + 1 = m := hfirst
      rcases hnext with ⟨-, hcomma⟩ | ⟨hnil, -⟩
      · rw [hcomma]
        decide
      · exact absurd (congrArg _ (List.map_eq_nil_iff.mp hnil)) hne
    | some e => exact (hslot (by simp) hfirst.1.1).kindAt_ne rfl
  · intro slot hmem n m hn hslotSpells hend
    cases slot with
    | none =>
      obtain rfl : n = m := hslotSpells
      refine .bind .kind ?_
      rw [if_pos (by simpa using hend)]
      exact .pure
    | some e =>
      obtain ⟨⟨hfirst, -⟩, rfl⟩ := hslotSpells
      have hphrase := hslot hmem hfirst
      refine .bind .kind ?_
      rw [if_neg (by simpa using ⟨hphrase.kindAt_ne rfl, hphrase.kindAt_ne rfl⟩)]
      refine .bind ?_ .pure
      rcases hend with hk | hk <;>
        exact nested_reads hi hphrase (h.tight e hmem) (by omega) hk (by decide)

/-- So are values in brackets, of which none may be missing. -/
theorem array_reads {values : List (Expression Extent)}
    (h : scope.lexemes.IsPhrase i (.expression (.tuple ⟨i, j⟩ (values.map some) true)) j)
    (hspells : scope.lexemes.Spells i (.token .lbracket ::
      Symbol.series .rbracket (values.map fun e => [.part e.place])) j) :
    (tuple inner true).Reads scope i (.tuple ⟨i, j⟩ (values.map some) true) j := by
  obtain ⟨⟨-, hopen⟩, hseries⟩ := hspells
  have hvalue {e n} (he : e ∈ values) (hfirst : e.place.first = n) :
      scope.lexemes.IsPhrase n (.expression e) e.place.next :=
    h.right_below (List.mem_singleton_self _)
      (List.mem_map_of_mem (List.reduceOption_mem_iff.mpr (List.mem_map_of_mem he))) hfirst
  -- the components are the values, none left out
  have hcomponents : scope.lexemes.Spells (i + 1) (Symbol.series .rbracket
      ((values.map some).map fun e => Symbol.option (e.map (·.place)))) j := by
    simpa [Function.comp_def, Symbol.option] using hseries
  refine .bind .position <| .bind (.advance (by rw [hopen]; decide)) <|
    .bind (.series (by decide) hcomponents ?_ ?_) (.bind .extentFrom .pure)
  · intro hsome
    obtain ⟨e, rest, rfl⟩ := List.exists_cons_of_ne_nil (mt (congrArg (List.map some)) hsome)
    obtain ⟨m, hfirst, -⟩ := hseries.series_cons
    exact (hvalue (by simp) hfirst.1.1).kindAt_ne rfl
  · intro slot hmem n m hn hslotSpells hend
    obtain ⟨e, he, rfl⟩ := List.mem_map.mp hmem
    obtain ⟨⟨hfirst, -⟩, rfl⟩ := hslotSpells
    refine .bind .kind ?_
    rw [if_neg (by simp)]
    refine .bind ?_ .pure
    rcases hend with hk | hk <;>
      exact nested_reads hi (hvalue he hfirst) (h.tight e hmem) (by omega) hk (by decide)

/-- A type that is created is read up to where no bracket follows. -/
theorem newExpression_reads {type : TypeName Extent}
    (h : scope.lexemes.IsPhrase i (.expression (.new ⟨i, j⟩ type)) j)
    (hspells : scope.lexemes.Spells i
      [.token .kwNew, .part type.place, .no (.kinds [.lbracket])] j) :
    (newExpression inner).Reads scope i (.new ⟨i, j⟩ type) j := by
  obtain ⟨⟨-, hk⟩, ⟨hfirst, -⟩, hbracket, rfl⟩ := hspells
  have hphrase : scope.lexemes.IsPhrase (i + 1) (.typeName type) type.place.next :=
    h.right_below (List.mem_singleton_self _) (List.mem_singleton_self _) hfirst
  rw [Lexemes.ahead_kind (by decide)] at hbracket
  exact .bind .position <| .bind (.advance (by rw [hk]; decide)) <|
    .bind (.within (.finish (hi.typeName (by omega) hphrase hbracket))) (.bind .extentFrom .pure)

/-! ### What follows an operand -/

omit hi hd in
/-- A name that is a phrase is one identifier. -/
theorem identifier_of_isPhrase {name : Identifier Extent}
    (h : scope.lexemes.IsPhrase i (.identifier name) j) :
    scope.lexemes.kindAt i = .ident ∧ j = i + 1 ∧
      name = ⟨Extent.single i, scope.lexemes.textAt i⟩ := by
  obtain ⟨symbols, hphrased, hspells⟩ := h.written
  obtain ⟨place, text⟩ := name
  obtain rfl : place = ⟨i, j⟩ := h.place
  cases hphrased
  obtain ⟨⟨-, hk, rfl⟩, rfl⟩ := hspells
  exact ⟨hk, rfl, rfl⟩

omit hi hd in
/-- A member is read behind its object. -/
theorem member_reads {property : Identifier Extent}
    (h : scope.lexemes.IsPhrase i (.expression (.member ⟨i, j⟩ object property)) j)
    (hspells : scope.lexemes.Spells i
      [.part object.place, .token .dot, .part property.place] j) :
    (suffix? inner object).Reads scope object.place.next (some (.member ⟨i, j⟩ object property))
      j := by
  obtain ⟨⟨hobject, -⟩, ⟨-, hk⟩, ⟨hproperty, -⟩, hnext⟩ := hspells
  have hphrase : scope.lexemes.IsPhrase _ (.identifier property) _ :=
    h.right_below (List.mem_cons_of_mem _ (List.mem_cons_self ..)) (List.mem_cons_self ..) hproperty
  obtain ⟨hident, hend, hname⟩ := identifier_of_isPhrase hphrase
  obtain rfl : j = object.place.next + 1 + 1 := hnext.symm.trans hend
  have hread : (member object).Reads scope object.place.next
      (.member ⟨i, object.place.next + 1 + 1⟩ object property) (object.place.next + 1 + 1) := by
    refine .bind (.advance (by rw [hk]; decide)) <| .bind (.expectIdent hident) ?_
    rw [← hname, Extent.upTo, hobject, hnext]
    exact .pure
  refine .bind .kind ?_
  rw [hk]
  exact .bind hread .pure

omit hd in
/-- What may be left out in front of a token that begins no expression. -/
theorem bound?_reads {close : Kind} {bound : Option (Expression Extent)}
    (hclose : close.ends = true ∧ close ≠ .lbrace)
    (hspells : scope.lexemes.Spells i (Symbol.option (bound.map (·.place))) j)
    (hbound : ∀ e, bound = some e → e.IsWhole ∧
      (e.place.first = i → scope.lexemes.IsPhrase i (.expression e) e.place.next))
    (hd : scope.lexemes.size < i + depth) {kind : Kind} (hk : scope.lexemes.kindAt j = kind)
    (hends : kind.ends = true ∧ kind ≠ .lbrace) (hnone : bound = none → kind = close) :
    (bound? inner close).Reads scope i bound j := by
  cases bound with
  | none =>
    obtain rfl : i = j := hspells
    exact .kindIf (by rw [hk, hnone rfl]) .pure
  | some e =>
    obtain ⟨⟨hfirst, -⟩, rfl⟩ := hspells
    obtain ⟨hwhole, hphrase⟩ := hbound e rfl
    exact .kindElse ((hphrase hfirst).kindAt_ne hclose.1) <|
      .bind (nested_reads hi (hphrase hfirst) hwhole hd hk hends) .pure

/-- So is an index, with or without an expression in it. -/
theorem index_reads {bound : Option (Expression Extent)}
    (h : scope.lexemes.IsPhrase i (.expression (.index ⟨i, j⟩ object bound)) j)
    (hspells : scope.lexemes.Spells i (.part object.place :: .token .lbracket ::
      Symbol.option (bound.map (·.place)) ++ [.token .rbracket]) j) :
    (suffix? inner object).Reads scope object.place.next (some (.index ⟨i, j⟩ object bound))
      j := by
  obtain ⟨⟨hobject, hcovers⟩, ⟨-, hk⟩, hrest⟩ := hspells
  obtain ⟨m, hbound, ⟨-, hclose⟩, rfl⟩ := Lexemes.spells_append.mp hrest
  have hlt := hcovers.nonempty
  have hread : (subscript inner object).Reads scope object.place.next
      (.index ⟨i, m + 1⟩ object bound) (m + 1) := by
    unfold subscript
    rw [hobject]
    refine .bind (.advance (by rw [hk]; decide)) ?_
    cases bound with
    | none =>
      obtain rfl : object.place.next + 1 = m := hbound
      exact .eatIf (by decide) hclose <| .bind .extentFrom .pure
    | some e =>
      have hphrase (hfirst : e.place.first = object.place.next + 1) :
          scope.lexemes.IsPhrase (object.place.next + 1) (.expression e) e.place.next :=
        h.right_below (List.mem_cons_of_mem _ (List.mem_cons_self ..)) (List.mem_cons_self ..) hfirst
      refine .eatElse ((hphrase hbound.1.1).kindAt_ne rfl) <| .bind (v := some e) (j := m)
        (bound?_reads hi (by decide) hbound ?_ (by omega) hclose (by decide) (by simp)) <|
        .eatElse (by rw [hclose]; decide) <| .bind (.expect (by decide) hclose) <|
        .bind .extentFrom .pure
      rintro _ ⟨⟩
      exact ⟨h.tight.2 e rfl, hphrase⟩
  refine .bind .kind ?_
  rw [hk]
  exact .bind hread .pure

/-- So is a slice, with its bounds or without. -/
theorem slice_reads {first last : Option (Expression Extent)}
    (h : scope.lexemes.IsPhrase i (.expression (.slice ⟨i, j⟩ object first last)) j)
    (hspells : scope.lexemes.Spells i (.part object.place :: .token .lbracket ::
      Symbol.option (first.map (·.place)) ++ .token .colon ::
      Symbol.option (last.map (·.place)) ++ [.token .rbracket]) j) :
    (suffix? inner object).Reads scope object.place.next (some (.slice ⟨i, j⟩ object first last))
      j := by
  rw [List.append_assoc] at hspells
  obtain ⟨⟨hobject, hcovers⟩, ⟨-, hk⟩, hrest⟩ := hspells
  obtain ⟨m, hfirst, ⟨-, hcolon⟩, hrest⟩ := Lexemes.spells_append.mp hrest
  obtain ⟨n, hlast, ⟨-, hclose⟩, rfl⟩ := Lexemes.spells_append.mp hrest
  have hlt := hcovers.nonempty
  have hle := hfirst.inside.1
  have hread : (subscript inner object).Reads scope object.place.next
      (.slice ⟨i, n + 1⟩ object first last) (n + 1) := by
    unfold subscript
    rw [hobject]
    have hfrom {e n} (he : first = some e) (hn : e.place.first = n) :
        scope.lexemes.IsPhrase n (.expression e) e.place.next :=
      h.right_below (List.mem_cons_of_mem _ (List.mem_cons_self ..))
        (List.mem_map_of_mem (by rw [he]; exact List.mem_singleton_self _)) hn
    have hto {e n} (he : last = some e) (hn : e.place.first = n) :
        scope.lexemes.IsPhrase n (.expression e) e.place.next :=
      h.right_below (List.mem_cons_of_mem _ (List.mem_cons_of_mem _ (List.mem_cons_self ..)))
        (List.mem_map_of_mem (by rw [he]; exact List.mem_singleton_self _)) hn
    have hopen : scope.lexemes.kindAt (object.place.next + 1) ≠ .rbracket := by
      cases first with
      | none =>
        obtain rfl : object.place.next + 1 = m := hfirst
        rw [hcolon]
        decide
      | some e => exact (hfrom rfl hfirst.1.1).kindAt_ne rfl
    exact .bind (.advance (by rw [hk]; decide)) <| .eatElse hopen <|
      .bind (bound?_reads hi (by decide) hfirst
        (fun e he => ⟨h.tight.2.1 e he, hfrom he⟩) (by omega) hcolon (by decide)
        (fun _ => rfl)) <|
      .eatIf (by decide) hcolon <|
      .bind (bound?_reads hi (by decide) hlast
        (fun e he => ⟨h.tight.2.2 e he, hto he⟩) (by omega) hclose (by decide)
        (fun _ => rfl)) <|
      .bind (.expect (by decide) hclose) <| .bind .extentFrom .pure
  refine .bind .kind ?_
  rw [hk]
  exact .bind hread .pure

/-- Arguments by name, each of which stands where it is spelled. -/
theorem namedArguments_reads {values : List (NamedArgument Extent)}
    (hspells : scope.lexemes.Spells k
      (Symbol.series .rbrace (values.map fun a => [.part a.place])) j)
    (hk : i < k)
    (hvalues : ∀ a ∈ values, ∀ n, a.place.first = n →
      scope.lexemes.IsPhrase n (.namedArgument a) a.place.next) :
    (namedArguments inner).Reads scope k values j := by
  refine .series (by decide) hspells ?_ ?_
  · intro hsome
    obtain ⟨a, rest, rfl⟩ := List.exists_cons_of_ne_nil hsome
    obtain ⟨m, hfirst, -⟩ := hspells.series_cons
    exact (hvalues a (by simp) _ hfirst.1.1).kindAt_ne rfl
  · intro a ha n m hn hitem hend
    obtain ⟨⟨hfirst, -⟩, rfl⟩ := hitem
    have hphrase := hvalues a ha n hfirst
    obtain ⟨symbols, hphrased, hspells⟩ := hphrase.written
    cases hphrased with
    | @namedArgument place name value =>
      have hplace : place = ⟨n, place.next⟩ := hphrase.place
      obtain ⟨⟨-, hname, rfl⟩, ⟨-, hcolon⟩, ⟨hvalue, -⟩, hnext⟩ := hspells
      rw [← hnext] at hend ⊢
      have hread : inner.expression.Reads scope (n + 2) value value.place.next := by
        have hphrase' : scope.lexemes.IsPhrase (n + 2) (.expression value) value.place.next :=
          hphrase.right_below (List.mem_cons_self ..) (List.mem_cons_self ..) hvalue
        have hwhole : value.IsWhole :=
          hphrase.tight _ (List.mem_cons_self ..) _ (List.mem_cons_self ..)
        rcases hend with hk | hk <;>
          exact nested_reads hi hphrase' hwhole (by omega) hk (by decide)
      have hupTo : (Extent.single n).upTo value.place = place := by
        rw [hplace, Extent.upTo, hnext]
        rfl
      refine .bind (.expectIdent hname) <| .bind (.expect (by decide) hcolon) <| .bind hread ?_
      rw [hupTo]
      exact .pure

/-- So are arguments by position. -/
theorem call_reads {values : List (Expression Extent)}
    (h : scope.lexemes.IsPhrase i (.expression (.call ⟨i, j⟩ object (.positional values))) j)
    (hspells : scope.lexemes.Spells i (.part object.place :: .token .lparen ::
      Symbol.series .rparen (values.map fun e => [.part e.place])) j) :
    (suffix? inner object).Reads scope object.place.next
      (some (.call ⟨i, j⟩ object (.positional values))) j := by
  obtain ⟨⟨hobject, hcovers⟩, ⟨-, hk⟩, hseries⟩ := hspells
  have hlt := hcovers.nonempty
  have hvalue {e n} (he : e ∈ values) (hfirst : e.place.first = n) :
      scope.lexemes.IsPhrase n (.expression e) e.place.next :=
    h.right_below (List.mem_cons_of_mem _ (List.mem_cons_self ..)) (List.mem_map_of_mem he) hfirst
  have hopen (hsome : values ≠ []) : (scope.lexemes.kindAt (object.place.next + 1)).ends = false := by
    obtain ⟨e, rest, rfl⟩ := List.exists_cons_of_ne_nil hsome
    obtain ⟨m, hfirst, -⟩ := hseries.series_cons
    exact (hvalue (by simp) hfirst.1.1).begins
  have hnotNamed : scope.lexemes.kindAt (object.place.next + 1) ≠ .lbrace := by
    intro hbrace
    cases values with
    | nil =>
      rw [hseries.1.2] at hbrace
      cases hbrace
    | cons e rest =>
      have := hopen (by simp)
      rw [hbrace] at this
      cases this
  have hgiven : (arguments inner).Reads scope (object.place.next + 1) (.positional values) j := by
    refine .kindElse hnotNamed <| .bind (.within (.series (by decide) hseries ?_ ?_)) .pure
    · intro hsome hclose
      have := hopen hsome
      rw [hclose] at this
      cases this
    · intro e he n m hn hitem hend
      obtain ⟨⟨hfirst, -⟩, rfl⟩ := hitem
      rcases hend with hk | hk <;>
        exact nested_reads hi (hvalue he hfirst) (h.tight.2 e he) (by omega) hk (by decide)
  have hread : (call inner object).Reads scope object.place.next
      (.call ⟨i, j⟩ object (.positional values)) j := by
    unfold call
    rw [hobject]
    exact .bind (.advance (by rw [hk]; decide)) <| .bind hgiven <| .bind .extentFrom .pure
  refine .bind .kind ?_
  rw [hk]
  exact .bind hread .pure

/-- So are arguments by name. -/
theorem call_reads_named {values : List (NamedArgument Extent)}
    (h : scope.lexemes.IsPhrase i (.expression (.call ⟨i, j⟩ object (.named values))) j)
    (hspells : scope.lexemes.Spells i (.part object.place :: .token .lparen ::
      .token .lbrace :: Symbol.series .rbrace (values.map fun a => [.part a.place]) ++
        [.token .rparen]) j) :
    (suffix? inner object).Reads scope object.place.next
      (some (.call ⟨i, j⟩ object (.named values))) j := by
  obtain ⟨⟨hobject, hcovers⟩, ⟨-, hk⟩, ⟨-, hbrace⟩, hrest⟩ := hspells
  obtain ⟨m, hvalues, ⟨-, hclose⟩, rfl⟩ := Lexemes.spells_append.mp hrest
  have hlt := hcovers.nonempty
  have hnamed := namedArguments_reads hi hd hvalues (by omega) fun a ha n hn =>
    h.right_below (List.mem_cons_of_mem _ (List.mem_cons_self ..)) (List.mem_map_of_mem ha) hn
  have hgiven : (arguments inner).Reads scope (object.place.next + 1) (.named values) (m + 1) :=
    .kindIf hbrace <| .bind (.advance (by rw [hbrace]; decide)) <| .bind hnamed <|
      .bind (.expect (by decide) hclose) .pure
  have hread : (call inner object).Reads scope object.place.next
      (.call ⟨i, m + 1⟩ object (.named values)) (m + 1) := by
    unfold call
    rw [hobject]
    exact .bind (.advance (by rw [hk]; decide)) <| .bind hgiven <| .bind .extentFrom .pure
  refine .bind .kind ?_
  rw [hk]
  exact .bind hread .pure

/-- So are options, which are at least one. -/
theorem callOptions_reads {options : List (NamedArgument Extent)} (hne : options ≠ [])
    (h : scope.lexemes.IsPhrase i (.expression (.callOptions ⟨i, j⟩ object options)) j)
    (hspells : scope.lexemes.Spells i (.part object.place :: .token .lbrace ::
      Symbol.series .rbrace (options.map fun a => [.part a.place])) j) :
    (suffix? inner object).Reads scope object.place.next
      (some (.callOptions ⟨i, j⟩ object options)) j := by
  obtain ⟨⟨hobject, hcovers⟩, ⟨-, hk⟩, hseries⟩ := hspells
  have hlt := hcovers.nonempty
  have hoption {a n} (ha : a ∈ options) (hfirst : a.place.first = n) :
      scope.lexemes.IsPhrase n (.namedArgument a) a.place.next :=
    h.right_below (List.mem_cons_of_mem _ (List.mem_cons_self ..)) (List.mem_map_of_mem ha) hfirst
  have hread : (callOptions inner object).Reads scope object.place.next
      (.callOptions ⟨i, j⟩ object options) j := by
    unfold callOptions
    rw [hobject]
    exact .bind (.advance (by rw [hk]; decide)) <|
      .bind (namedArguments_reads hi hd hseries (by omega) fun a ha n => hoption ha) <|
      .bind .extentFrom .pure
  -- the first option begins with a name and a colon
  have hahead : scope.lexemes.kindAt (object.place.next + 1) = .ident ∧
      scope.lexemes.kindAt (object.place.next + 2) = .colon := by
    obtain ⟨a, rest, rfl⟩ := List.exists_cons_of_ne_nil hne
    obtain ⟨m, hfirst, -⟩ := hseries.series_cons
    obtain ⟨symbols, hphrased, hspells⟩ := (hoption (by simp) hfirst.1.1).written
    cases hphrased
    exact ⟨hspells.1.2.1, hspells.2.1.2⟩
  refine .bind .kind ?_
  rw [hk]
  refine .bind .kindAhead <| .bind .kindAhead ?_
  rw [if_pos hahead]
  exact .bind hread .pure

omit hi hd in
/-- So is an operator that stands behind its operand. -/
theorem trailingOperator_reads {operator : UnaryOp}
    (htrailing : UnaryOp.trailing? operator.kind = some operator)
    (hspells : scope.lexemes.Spells i [.part object.place, .token operator.kind] j) :
    (suffix? inner object).Reads scope object.place.next
      (some (.unary ⟨i, j⟩ operator false object)) j := by
  obtain ⟨⟨hobject, -⟩, ⟨hne, hk⟩, rfl⟩ := hspells
  have hread : (trailingOperator operator object).Reads scope object.place.next
      (.unary ⟨i, object.place.next + 1⟩ operator false object) (object.place.next + 1) := by
    unfold trailingOperator
    rw [hobject]
    exact .bind (.advance (by rw [hk]; exact hne)) <| .bind .extentFrom .pure
  refine .bind .kind ?_
  rw [hk]
  cases operator <;> cases htrailing <;> exact .bind hread .pure

end Nested

end Grammar

end SolidityParser
