import SolidityParser.Proofs.Complete.Block
import SolidityParser.Proofs.Sound.Statement

/-!
# Statements are read

The rules for statements read each that stands in the input and is the first way to read what it is
written as (`Grammar.statement_reads`). An alternative that comes before misses: a keyword or a word
because it is not there, and the attempt at a declaration because it would have given one, and none
stands there.
-/

namespace SolidityParser

open Lexemes (Lays IsStatement)
open SolidityParser.Parser (Reads Gathers)

namespace Rule

variable {α : Type} {scope : Scope} {i j : Nat} {v : α}

/-- The parser that is chosen for the current token reads. -/
theorem Reads.select {choose : Kind → Option (Parser α)} {p : Parser α}
    (hp : choose (scope.lexemes.kindAt i) = some p) (h : p.Reads scope i v j) :
    (Rule.select choose).Reads scope i v j := by
  intro trail
  unfold Rule.select
  simp only [hp]
  exact Rule.Reads.ofParser h trail

/-- No parser is chosen for the current token. -/
theorem Misses.select {choose : Kind → Option (Parser α)}
    (h : choose (scope.lexemes.kindAt i) = none) : (Rule.select choose).Misses scope i := by
  intro trail
  refine ⟨∅, i, ⟨i, trail⟩, ?_⟩
  unfold Rule.select
  simp only [h]

end Rule

namespace Grammar

variable {inner : Inner} {scope : Scope} {repairs : Repairs} {i j k depth : Nat}
  {s : Statement .parsed}

/-! ### Statements without others in them -/

/-- A statement of one keyword is read. -/
theorem bareKeyword_reads {keyword : Kind} {statement : Extent → Statement .parsed}
    (h : scope.lexemes.Spells i [.token keyword, .token .semicolon] j) :
    (bareKeyword statement).Reads scope i (statement ⟨i, j⟩) j := by
  obtain ⟨⟨hne, hk⟩, ⟨-, hsemi⟩, rfl⟩ := h
  exact .bind .position <| .bind (.advance (hk ▸ hne)) <| .bind (.expect (by decide) hsemi) <|
    .bind .extentFrom .pure

/-- A placeholder is. -/
theorem placeholder_reads
    (h : scope.lexemes.Spells i [.word .ident "_", .token .semicolon] j) :
    placeholder.Reads scope i (.placeholder ⟨i, j⟩) j := by
  obtain ⟨⟨hne, hk, hword⟩, ⟨hne', hsemi⟩, rfl⟩ := h
  refine .provided ?_ <| .taking (hk ▸ hne) <| .bind (.advance (hsemi ▸ hne')) <|
    .bind .extentFrom .pure
  simp [Lexemes.isWordAt, hk, hword, hsemi]

/-- The flags of an assembly block are read with the parentheses around them. -/
theorem flags_reads {flags : Option (List String)}
    (h : scope.lexemes.Spells i (Symbol.flags flags) j)
    (hnone : flags = none → scope.lexemes.kindAt i ≠ .lparen) :
    Reads scope i (do
      if ← Parser.eat .lparen then Parser.series .rparen expectString else pure [])
      ((flags.getD []).map Quoted.valueOf) j := by
  cases flags with
  | none =>
    obtain rfl : i = j := h
    exact .eatElse (hnone rfl) .pure
  | some flags =>
    obtain ⟨⟨-, hopen⟩, hseries⟩ := h
    refine .eatIf (by decide) hopen (.series_made Quoted.valueOf (by decide) hseries ?_ ?_)
    · intro hsome
      obtain ⟨flag, rest, rfl⟩ := List.exists_cons_of_ne_nil hsome
      obtain ⟨m, hfirst, -⟩ := hseries.series_cons
      rw [hfirst.1.2.1]
      decide
    · exact fun flag _ n m _ hflag _ => expectString_reads hflag

/-- Assembly is passed up to the brace that closes it. -/
theorem assemblyStatement_reads {place body : Extent} {language : Option String}
    {flags : Option (List String)} {kinds : List Kind} (hclose : Kind.Close 1 kinds)
    (hplace : place = ⟨i, j⟩)
    (h : scope.lexemes.Spells i
      (.token .kwAssembly :: language.toList.map (.word .string) ++ Symbol.flags flags ++
        .here body.first :: .token .lbrace :: kinds.map .token ++ [.here body.next]) j) :
    assemblyStatement.Reads scope i (.assembly place (language.map Quoted.valueOf)
      ((flags.getD []).map Quoted.valueOf) body) j := by
  subst hplace
  obtain ⟨m, hfront, hend, rfl⟩ := Lexemes.spells_append.mp h
  obtain ⟨l, hfront, hhere, ⟨hne, hopen⟩, hkinds⟩ := Lexemes.spells_append.mp hfront
  obtain ⟨k, ⟨⟨-, hk⟩, hlanguage⟩, hflags⟩ := Lexemes.spells_append.mp hfront
  obtain ⟨first, next⟩ := body
  obtain rfl : first = l := hhere
  obtain rfl : next = m := hend
  -- neither a string nor a parenthesis stands where one is left out
  have hflag : flags = none → scope.lexemes.kindAt k = .lbrace := by
    rintro rfl
    obtain rfl : k = first := hflags
    exact hopen
  have hread : Reads scope (i + 1)
      (do if (← Parser.kind) = .string then some <$> expectString else pure none)
      (language.map Quoted.valueOf) k := by
    cases language with
    | none =>
      obtain rfl : i + 1 = k := hlanguage
      refine .kindElse ?_ .pure
      cases flags with
      | none =>
        rw [hflag rfl]
        decide
      | some flags =>
        rw [hflags.1.2]
        decide
    | some language =>
      have hk : scope.lexemes.kindAt (i + 1) = .string := hlanguage.1.2.1
      exact .kindIf hk <| .map (expectString_reads hlanguage)
  have hread' := flags_reads hflags fun hnone => by
    rw [hflag hnone]
    decide
  have hsize := Lexemes.lt_size_of_kindAt (hopen ▸ hne)
  have hbraces := skipBraces_reads hsize hclose hkinds
  exact .bind .position <| .bind (.advance (by rw [hk]; decide)) <| .kindBind hread <|
    .eatBind hread' <| .bind .position <| .bind (.expect (by decide) hopen) <|
    .bind hbraces <| .bind .extentFrom <| .bind .extentFrom .pure

section Nested

variable (hi : inner.Complete depth) (hd : scope.lexemes.size ≤ i + depth)

include hi hd

/-! ### Statements with expressions in them -/

/-- What is tested in a statement is read with the parentheses around it. -/
theorem test_reads {e : Expression Extent} {l m : Nat}
    (h : scope.lexemes.Lays repairs l (.statement s) m)
    (hfield : [.expression e] ∈ (Part.statement s).fields)
    (hspells : scope.lexemes.Spells i [.token .lparen, .part e.place, .token .rparen] j) :
    (test inner).Reads scope i e j := by
  obtain ⟨⟨-, hopen⟩, ⟨hfirst, -⟩, ⟨-, hclose⟩, rfl⟩ := hspells
  have he : scope.lexemes.IsPhrase (i + 1) (.expression e) e.place.next :=
    (h.right_below hfield (List.mem_singleton_self _) hfirst).isPhrase trivial
  have hwhole : e.IsWhole := h.stands.here.tight _ hfield _ (List.mem_singleton_self _)
  exact .bind (.expect (by decide) hopen) <|
    .bind (expression_reads_phrase hi (by omega) ⟨he, hwhole, .of_ends hclose (by decide)⟩) <|
    .bind (.expect (by decide) hclose) .pure

/-- An expression is read that may be left out before a token of a kind. -/
theorem expressionUnless_reads {value : Option (Expression Extent)} {close : Kind}
    (h : scope.lexemes.Spells i (Symbol.option (value.map (·.place))) j)
    (hj : scope.lexemes.kindAt j = close) (hclose : close.ends = true ∧ close ≠ .lbrace)
    (hvalue : ∀ e ∈ value, e.IsWhole ∧
      ∀ n, e.place.first = n → scope.lexemes.IsPhrase n (.expression e) e.place.next) :
    (expressionUnless inner close).Reads scope i value j := by
  cases value with
  | none =>
    obtain rfl : i = j := h
    exact .kindIf hj .pure
  | some e =>
    obtain ⟨⟨hfirst, -⟩, rfl⟩ := h
    obtain ⟨hwhole, hphrase⟩ := hvalue e rfl
    have he := hphrase i hfirst
    exact .kindElse (he.kindAt_ne hclose.1) <|
      .map (expression_reads_phrase hi hd ⟨he, hwhole, .of_ends hj hclose⟩)

/-- An expression with a semicolon is read. -/
theorem expressionStatement_reads {place : Extent} {value : Expression Extent}
    (h : scope.lexemes.Lays repairs i (.statement (.expression place value)) j) :
    (expressionStatement inner).Reads scope i (.expression place value) j := by
  obtain ⟨symbols, hcomposed, -, hspells⟩ := h.composed id nofun
  obtain rfl : place = ⟨i, j⟩ := h.place
  cases hcomposed
  obtain ⟨⟨hfirst, -⟩, ⟨-, hsemi⟩, rfl⟩ := hspells
  have hvalue : scope.lexemes.IsPhrase i (.expression value) value.place.next :=
    (h.right_below (List.mem_singleton_self _) (List.mem_singleton_self _) hfirst).isPhrase trivial
  have hwhole : value.IsWhole := h.stands.here.tight _ (List.mem_singleton_self _) _
    (List.mem_singleton_self _)
  exact .bind .position <|
    .bind (expression_reads_phrase hi hd ⟨hvalue, hwhole, .of_ends hsemi (by decide)⟩) <|
    .bind (.expect (by decide) hsemi) <| .bind .extentFrom .pure

/-- So is one behind a word. -/
theorem prefixedExpression_reads {statement : Extent → Expression Extent → Statement .parsed}
    {value : Expression Extent} (hne : scope.lexemes.kindAt i ≠ .eof)
    (h : scope.lexemes.Spells (i + 1) [.part value.place, .token .semicolon] j)
    (hwhole : value.IsWhole)
    (hvalue : ∀ n, value.place.first = n →
      scope.lexemes.IsPhrase n (.expression value) value.place.next) :
    (prefixedExpression inner statement).Reads scope i (statement ⟨i, j⟩ value) j := by
  obtain ⟨⟨hfirst, -⟩, ⟨-, hsemi⟩, rfl⟩ := h
  exact .bind .position <| .bind (.advance hne) <|
    .bind (expression_reads_phrase hi (by omega)
      ⟨hvalue _ hfirst, hwhole, .of_ends hsemi (by decide)⟩) <|
    .bind (.expect (by decide) hsemi) <| .bind .extentFrom .pure

/-- A value to return is read, or none before a semicolon. -/
theorem returnStatement_reads {place : Extent} {argument : Option (Expression Extent)}
    (h : scope.lexemes.Lays repairs i (.statement (.returned place argument)) j) :
    (returnStatement inner).Reads scope i (.returned place argument) j := by
  obtain ⟨symbols, hcomposed, -, hspells⟩ := h.composed id nofun
  obtain rfl : place = ⟨i, j⟩ := h.place
  cases hcomposed
  obtain ⟨k, ⟨⟨-, hk⟩, hargument⟩, ⟨-, hsemi⟩, rfl⟩ := Lexemes.spells_append.mp hspells
  refine .bind .position <| .bind (.advance (by rw [hk]; decide)) <|
    .bind (expressionUnless_reads hi (by omega) hargument hsemi (by decide) fun e he => ⟨?_, ?_⟩) <|
    .bind (.expect (by decide) hsemi) <| .bind .extentFrom .pure
  · exact h.stands.here.tight _ (List.mem_singleton_self _) _
      (List.mem_map_of_mem (Option.mem_toList.mpr he))
  · intro n hfirst
    exact (h.right_below (List.mem_singleton_self _)
      (List.mem_map_of_mem (Option.mem_toList.mpr he)) hfirst).isPhrase trivial

omit hi hd in
/-- Where no declaration stands, the attempt at one misses. -/
theorem declarationAttempt_misses (hsound : inner.Sound) (hw : scope.lexemes.WellSpelled)
    (h : ¬ scope.lexemes.Declares i) : (declarationAttempt inner).Misses scope i := by
  refine .attempt fun s j hgives => h ?_
  obtain ⟨hphrase, place, slots, initial, rfl⟩ := declarationAttempt_isPhrase hsound hw hgives
  exact ⟨place, slots, initial, j, hphrase⟩

/-- A declaration is read where it is attempted. -/
theorem declarationAttempt_reads {place : Extent}
    {slots : List (Option (VariableDeclaration Extent))} {initial : Option (Expression Extent)}
    (h : scope.lexemes.IsPhrase i (.statement (.declaration place slots initial)) j) :
    (declarationAttempt inner).Reads scope i (.declaration place slots initial) j :=
  .attempt <| .ofParser <| declarationStatement_reads hi
    (show ({ scope with speculative := true } : Scope).lexemes.size ≤ i + depth from hd) h

/-- What a loop does first is read, with the semicolon after it. -/
theorem forInitial_reads (hsound : inner.Sound) (hw : scope.lexemes.WellSpelled)
    {initial : Option (Statement .parsed)}
    (h : scope.lexemes.Spells i (Symbol.initial (initial.map (·.place))) j)
    (hinitial : ∀ s ∈ initial, s.IsSimple ∧ scope.lexemes.Preferred s ∧
      ∀ n, s.place.first = n → scope.lexemes.Lays repairs n (.statement s) s.place.next) :
    (forInitial inner).Reads scope i initial j := by
  cases initial with
  | none =>
    obtain ⟨⟨-, hsemi⟩, rfl⟩ := h
    exact .eatIf (by decide) hsemi .pure
  | some s =>
    obtain ⟨⟨hfirst, -⟩, rfl⟩ := h
    obtain ⟨hsimple, hpreferred, hlays⟩ := hinitial s rfl
    replace hlays := hlays i hfirst
    cases s with
    | declaration place slots initial =>
      have hphrase := hlays.isPhrase trivial
      exact .eatElse (hphrase.kindAt_ne rfl) <| .map <| .finish <|
        .first (declarationAttempt_reads hi hd hphrase)
    | expression place value =>
      have hbegins := hlays.beginsStatement id
      have hmisses := declarationAttempt_misses (i := i) hsound hw (hfirst ▸ hpreferred)
      refine .eatElse ?_ <| .map <| .finish <| .later hmisses <|
        .first (.ofParser (expressionStatement_reads hi hd hlays))
      intro hk
      rw [hk] at hbegins
      cases hbegins
    | _ => exact hsimple.elim

omit hd in
/-- The rule for types reads every type that begins a token later than those nested in it may. -/
theorem typeName_coversTypes : (typeName inner).CoversTypes scope (depth + 1) :=
  fun hd h hbracket => typeName_reads_phrase hi (by omega) h hbracket

/-- Parameters are read, or none where no parenthesis opens. -/
theorem parametersIfOpen_reads {given : Option (List (Parameter Extent))}
    (h : scope.lexemes.Spells i (Symbol.given given) j)
    (hnone : given = none → scope.lexemes.kindAt i ≠ .lparen)
    (hgiven : ∀ p ∈ given.getD [], p.isIndexed = false ∧
      ∀ n, p.place.first = n → scope.lexemes.IsPhrase n (.parameter p) p.place.next) :
    (parametersIfOpen inner).Reads scope i given j := by
  cases given with
  | none =>
    obtain rfl : i = j := h
    exact .kindElse (hnone rfl) .pure
  | some parameters =>
    refine .kindIf h.1.2 <| .map <|
      parameters_reads (typeName_coversTypes hi) (by omega) h (fun p hp => (hgiven p hp).2) ?_
    intro p hp hindexed
    rw [(hgiven p hp).1] at hindexed
    cases hindexed

end Nested

/-! ### Statements with others in them -/

/-- No keyword for a statement begins an expression or a type. -/
theorem keywordStatement?_eq_none {kind : Kind}
    (h : kind.beginsExpression = true ∨ kind.beginsType = true) :
    keywordStatement? inner kind = none := by
  unfold keywordStatement?
  split <;> first
    | rfl
    | (rcases h with h | h <;> cases h)

section Others

variable (hi : inner.Complete depth) (hsound : inner.Sound) (hends : inner.statement.EndsAtMember)
  (hw : scope.lexemes.WellSpelled) (ha : scope.Admits repairs)
  (hs : inner.statement.TakesStatements scope repairs (i + 1))
  (hd : scope.lexemes.size ≤ i + depth)

include hi hs hd in
/-- A choice is read with its `else`, since the production says that no other `else` follows. -/
theorem ifStatement_reads {place : Extent} {e : Expression Extent}
    {consequent : Statement .parsed} {alternate : Option (Statement .parsed)}
    (h : scope.lexemes.Lays repairs i (.statement (.ifElse place e consequent alternate)) j) :
    (ifStatement inner).Reads scope i (.ifElse place e consequent alternate) j := by
  obtain ⟨symbols, hcomposed, hdecided, hspells⟩ := h.composed id nofun
  obtain rfl : place = ⟨i, j⟩ := h.place
  cases hcomposed
  obtain ⟨⟨-, hk⟩, ⟨hne, hopen⟩, ⟨htest, hcovers⟩, ⟨hne', hclose⟩, ⟨hconsequent, hcovers'⟩, hrest⟩ :=
    hspells
  have hlt := hcovers.nonempty
  have hlt' := hcovers'.nonempty
  have hread := test_reads hi (by omega) h (List.mem_cons_self ..)
    ⟨⟨hne, hopen⟩, ⟨htest, hcovers⟩, ⟨hne', hclose⟩, rfl⟩
  have hbranch : scope.lexemes.IsStatement repairs (e.place.next + 1) consequent
      consequent.place.next :=
    ⟨h.right_below (List.mem_cons_of_mem _ (List.mem_cons_self ..)) (List.mem_singleton_self _)
      hconsequent, hdecided.chosen _ (List.mem_cons_self ..)⟩
  refine .bind .position <| .bind (.advance (by rw [hk]; decide)) <| .bind hread <|
    .bind (.finish (hs (by omega) hbranch)) <| .eatBind ?_ <| .bind .extentFrom .pure
  cases alternate with
  | none =>
    obtain ⟨hno, rfl⟩ := hrest
    rw [Lexemes.ahead_kind (by decide)] at hno
    exact .eatElse hno .pure
  | some alternate =>
    obtain ⟨⟨-, helse⟩, ⟨halternate, -⟩, rfl⟩ := hrest
    have hbranch' : scope.lexemes.IsStatement repairs (consequent.place.next + 1) alternate
        alternate.place.next :=
      ⟨h.right_below (List.mem_cons_of_mem _ (List.mem_cons_of_mem _ (List.mem_cons_self ..)))
        (List.mem_singleton_self _) halternate,
        hdecided.chosen _ (List.mem_cons_of_mem _ (List.mem_singleton_self _))⟩
    exact .eatIf (by decide) helse <| .map <| .finish (hs (by omega) hbranch')

include hi hs hd in
/-- A loop is read. -/
theorem whileStatement_reads {place : Extent} {e : Expression Extent} {body : Statement .parsed}
    (h : scope.lexemes.Lays repairs i (.statement (.whileLoop place e body)) j) :
    (whileStatement inner).Reads scope i (.whileLoop place e body) j := by
  obtain ⟨symbols, hcomposed, hdecided, hspells⟩ := h.composed id nofun
  obtain rfl : place = ⟨i, j⟩ := h.place
  cases hcomposed
  obtain ⟨⟨-, hk⟩, ⟨hne, hopen⟩, ⟨htest, hcovers⟩, ⟨hne', hclose⟩, ⟨hbody, -⟩, rfl⟩ := hspells
  have hlt := hcovers.nonempty
  have hread := test_reads hi (by omega) h (List.mem_cons_self ..)
    ⟨⟨hne, hopen⟩, ⟨htest, hcovers⟩, ⟨hne', hclose⟩, rfl⟩
  have hbranch : scope.lexemes.IsStatement repairs (e.place.next + 1) body body.place.next :=
    ⟨h.right_below (List.mem_cons_of_mem _ (List.mem_cons_self ..)) (List.mem_singleton_self _)
      hbody, hdecided.chosen _ (List.mem_cons_self ..)⟩
  exact .bind .position <| .bind (.advance (by rw [hk]; decide)) <| .bind hread <|
    .bind (.finish (hs (by omega) hbranch)) <| .bind .extentFrom .pure

include hi hs hd in
/-- So is one with its test at the end. -/
theorem doWhileStatement_reads {place : Extent} {e : Expression Extent} {body : Statement .parsed}
    (h : scope.lexemes.Lays repairs i (.statement (.doWhile place body e)) j) :
    (doWhileStatement inner).Reads scope i (.doWhile place body e) j := by
  obtain ⟨symbols, hcomposed, hdecided, hspells⟩ := h.composed id nofun
  obtain rfl : place = ⟨i, j⟩ := h.place
  cases hcomposed
  obtain ⟨⟨-, hk⟩, ⟨hbody, hcovers⟩, ⟨-, hwhile⟩, ⟨hne, hopen⟩, ⟨htest, hcovers'⟩, ⟨hne', hclose⟩,
    ⟨-, hsemi⟩, rfl⟩ := hspells
  have hlt := hcovers.nonempty
  have hread := test_reads hi (by omega) h (List.mem_cons_of_mem _ (List.mem_cons_self ..))
    ⟨⟨hne, hopen⟩, ⟨htest, hcovers'⟩, ⟨hne', hclose⟩, rfl⟩
  have hbranch : scope.lexemes.IsStatement repairs (i + 1) body body.place.next :=
    ⟨h.right_below (List.mem_cons_self ..) (List.mem_singleton_self _) hbody,
      hdecided.chosen _ (List.mem_cons_self ..)⟩
  exact .bind .position <| .bind (.advance (by rw [hk]; decide)) <|
    .bind (.finish (hs (Nat.le_refl _) hbranch)) <| .bind (.expect (by decide) hwhile) <|
    .bind hread <| .bind (.expect (by decide) hsemi) <| .bind .extentFrom .pure

include hi hsound hw hs hd in
/-- So is one with a head, whose parts may be missing. -/
theorem forStatement_reads {place : Extent} {initial : Option (Statement .parsed)}
    {condition update : Option (Expression Extent)} {body : Statement .parsed}
    (h : scope.lexemes.Lays repairs i
      (.statement (.forLoop place initial condition update body)) j) :
    (forStatement inner).Reads scope i (.forLoop place initial condition update body) j := by
  obtain ⟨symbols, hcomposed, hdecided, hspells⟩ := h.composed id nofun
  obtain rfl : place = ⟨i, j⟩ := h.place
  cases hcomposed with
  | @forLoop _ _ _ _ _ hsimple =>
  simp only [List.append_assoc, List.cons_append] at hspells
  obtain ⟨⟨-, hk⟩, ⟨-, hopen⟩, hspells⟩ := hspells
  obtain ⟨k, hinitial, hspells⟩ := Lexemes.spells_append.mp hspells
  obtain ⟨l, hcondition, ⟨-, hsemi⟩, hspells⟩ := Lexemes.spells_append.mp hspells
  obtain ⟨m, hupdate, ⟨-, hclose⟩, ⟨hbody, -⟩, rfl⟩ := Lexemes.spells_append.mp hspells
  have hle := hinitial.inside.1
  have hle' := hcondition.inside.1
  have hle'' := hupdate.inside.1
  have hvalue {field : List (Part .parsed)} {value : Option (Expression Extent)}
      (hfield : field ∈ (Part.statement (.forLoop ⟨i, body.place.next⟩ initial condition update
        body) : Part .parsed).fields)
      (hvalues : field = value.toList.map (.expression (F := .parsed))) (e) (he : e ∈ value) :
      e.IsWhole ∧ ∀ n, e.place.first = n →
        scope.lexemes.IsPhrase n (.expression e) e.place.next := by
    have hmem : Part.expression e ∈ field := by
      rw [hvalues]
      exact List.mem_map_of_mem (Option.mem_toList.mpr he)
    exact ⟨h.stands.here.tight _ hfield _ hmem,
      fun n hfirst => (h.right_below hfield hmem hfirst).isPhrase trivial⟩
  have hread := forInitial_reads hi (by omega) hsound hw hinitial
    fun s hs => ⟨hsimple s hs, hdecided.initial s hs, fun n hfirst =>
      h.right_below (List.mem_cons_self ..) (List.mem_map_of_mem (Option.mem_toList.mpr hs))
        hfirst⟩
  have hread' := expressionUnless_reads hi (by omega) hcondition hsemi (by decide)
    (hvalue (List.mem_cons_of_mem _ (List.mem_cons_self ..)) rfl)
  have hread'' := expressionUnless_reads hi (by omega) hupdate hclose (by decide)
    (hvalue (List.mem_cons_of_mem _ (List.mem_cons_of_mem _ (List.mem_cons_self ..))) rfl)
  have hbranch : scope.lexemes.IsStatement repairs (m + 1) body body.place.next :=
    ⟨h.right_below (List.mem_cons_of_mem _ (List.mem_cons_of_mem _ (List.mem_cons_of_mem _
      (List.mem_cons_self ..)))) (List.mem_singleton_self _) hbody,
      hdecided.chosen _ (List.mem_cons_self ..)⟩
  exact .bind .position <| .bind (.advance (by rw [hk]; decide)) <|
    .bind (.expect (by decide) hopen) <| .bind hread <| .bind hread' <|
    .bind (.expect (by decide) hsemi) <| .bind hread'' <| .bind (.expect (by decide) hclose) <|
    .bind (.finish (hs (by omega) hbranch)) <| .bind .extentFrom .pure

include hends ha hs in
/-- So is an unchecked block. -/
theorem uncheckedStatement_reads {place : Extent} {body : Block .parsed}
    (h : scope.lexemes.Lays repairs i (.statement (.unchecked place body)) j) :
    (uncheckedStatement inner).Reads scope i (.unchecked place body) j := by
  obtain ⟨symbols, hcomposed, -, hspells⟩ := h.composed id nofun
  obtain rfl : place = ⟨i, j⟩ := h.place
  cases hcomposed
  obtain ⟨⟨-, hk⟩, ⟨hfirst, -⟩, rfl⟩ := hspells
  have hblock : scope.lexemes.Lays repairs (i + 1) (.block body) body.place.next :=
    h.right_below (List.mem_cons_self ..) (List.mem_singleton_self _) hfirst
  exact .bind .position <| .bind (.advance (by rw [hk]; decide)) <|
    .bind (block_reads (hs.mono (by omega)) hends ha hblock) <| .bind .extentFrom .pure

include hi hends ha hs hd

/-- A clause is read, whatever it catches. -/
theorem catchClause_reads {clause : CatchClause .parsed} (hk : i ≤ k)
    (h : scope.lexemes.Lays repairs k (.clause clause) j) :
    (catchClause inner).Reads scope k clause j := by
  obtain ⟨place, kind, given, body⟩ := clause
  obtain ⟨symbols, hcomposed, -, hspells⟩ := h.composed id nofun
  obtain rfl : place = ⟨k, j⟩ := h.place
  cases hcomposed with
  | @clause _ _ _ _ hindexed =>
  obtain ⟨m, hfront, ⟨hbody, -⟩, rfl⟩ := Lexemes.spells_append.mp hspells
  obtain ⟨l, ⟨⟨-, hcatch⟩, hkind⟩, hgiven⟩ := Lexemes.spells_append.mp hfront
  have hle := hkind.inside.1
  have hle' := hgiven.inside.1
  have hblock := h.right_below (List.mem_cons_of_mem _ (List.mem_cons_self ..))
    (List.mem_singleton_self _) hbody
  -- before the body, nothing is left out that stands there
  have hopen := hblock.block_begins
  have hread : Parser.eatIdent.Reads scope (k + 1) kind l := by
    refine eatIdent_reads hkind ?_
    rintro rfl
    obtain rfl : k + 1 = l := hkind
    cases given with
    | none =>
      obtain rfl : k + 1 = m := hgiven
      rw [hopen]
      decide
    | some parameters =>
      rw [hgiven.1.2]
      decide
  have hread' : (parametersIfOpen inner).Reads scope l given m := by
    refine parametersIfOpen_reads hi (by omega) hgiven ?_ fun p hp => ⟨hindexed p hp, ?_⟩
    · rintro rfl
      obtain rfl : l = m := hgiven
      rw [hopen]
      decide
    · intro n hfirst
      exact (h.right_below (List.mem_cons_self ..) (List.mem_map_of_mem hp) hfirst).isPhrase trivial
  exact .bind .position <| .bind (.expect (by decide) hcatch) <| .bind hread <| .bind hread' <|
    .bind (block_reads (hs.mono (by omega)) hends ha hblock) <| .bind .extentFrom .pure

/-- The clauses of `try` are read one after the other, as long as there are any. -/
theorem moreClauses_gathers {clauses : List (CatchClause .parsed)} (hk : i ≤ k)
    (hspells : scope.lexemes.Spells k
      (Symbol.row (clauses.map (·.place)) ++ [.no (.kinds [.kwCatch])]) j)
    (hclauses : ∀ c ∈ clauses, ∀ n, c.place.first = n →
      scope.lexemes.Lays repairs n (.clause c) c.place.next) :
    Gathers scope (do
      if (← Parser.kind) = .kwCatch then some <$> catchClause inner else return none)
      k clauses j := by
  induction clauses generalizing k with
  | nil =>
    obtain ⟨hno, rfl⟩ := hspells
    rw [Lexemes.ahead_kind (by decide)] at hno
    exact .nil (.kindElse hno .pure)
  | cons clause clauses ih =>
    obtain ⟨⟨hfirst, hcovers⟩, hrest⟩ := hspells
    have hlays := hclauses clause (List.mem_cons_self ..) k hfirst
    have hlt := hlays.lt
    have hcatch : scope.lexemes.kindAt k = .kwCatch := by
      obtain ⟨symbols, hcomposed, -, hspells⟩ := hlays.composed id nofun
      cases hcomposed
      exact hspells.1.2
    have hsize := (hlays.stands.here.covers).inside (clause.place.next - 1) (by
      show clause.place.first ≤ _
      dsimp only at hfirst
      omega) (by
      show _ < clause.place.next
      omega)
    refine .cons (.kindIf hcatch (.map (catchClause_reads hi hends ha hs hd hk hlays))) hlt
      (ih (k := clause.place.next) (by omega) hrest fun c hc =>
        hclauses c (List.mem_cons_of_mem _ hc)) ?_
    have := Lexemes.lt_size_of_kindAt hsize
    omega

/-- A call that is tried is read with all its clauses. -/
theorem tryStatement_reads {place : Extent} {call : Expression Extent}
    {returns : Option (List (Parameter Extent))} {body : Block .parsed}
    {clauses : List (CatchClause .parsed)}
    (h : scope.lexemes.Lays repairs i (.statement (.tryCatch place call returns body clauses)) j) :
    (tryStatement inner).Reads scope i (.tryCatch place call returns body clauses) j := by
  obtain ⟨symbols, hcomposed, -, hspells⟩ := h.composed id nofun
  obtain rfl : place = ⟨i, j⟩ := h.place
  cases hcomposed with
  | @tryCatch _ _ _ _ _ hindexed hne =>
  simp only [List.append_assoc, List.cons_append] at hspells
  obtain ⟨⟨-, hk⟩, ⟨hcall, hcovers⟩, hoptions, hspells⟩ := hspells
  obtain ⟨m, hreturns, ⟨hbody, hcovers'⟩, hclauses⟩ := Lexemes.spells_append.mp hspells
  have hlt := hcovers.nonempty
  have hle := hreturns.inside.1
  have hlt' := hcovers'.nonempty
  have hphrase : scope.lexemes.IsPhrase (i + 1) (.expression call) call.place.next :=
    (h.right_below (List.mem_cons_self ..) (List.mem_singleton_self _) hcall).isPhrase trivial
  have hwhole : call.IsWhole := h.stands.here.tight _ (List.mem_cons_self ..) _
    (List.mem_singleton_self _)
  have hblock := h.right_below (List.mem_cons_of_mem _ (List.mem_cons_of_mem _
    (List.mem_cons_self ..))) (List.mem_singleton_self _) hbody
  have hclause (c) (hc : c ∈ clauses) (n) (hfirst : c.place.first = n) :=
    h.right_below (List.mem_cons_of_mem _ (List.mem_cons_of_mem _ (List.mem_cons_of_mem _
      (List.mem_cons_self ..)))) (List.mem_map_of_mem hc) hfirst
  -- after the call comes `returns` or the body, and neither goes on with it
  have hstops : scope.lexemes.Stops Expression.wholeLevel call.place.next := by
    refine ⟨?_, hoptions⟩
    cases returns with
    | none =>
      obtain ⟨-, rfl⟩ := hreturns
      rw [hblock.block_begins]
      exact .of_ends rfl
    | some parameters =>
      rw [hreturns.1.2]
      exact .of_ends rfl
  have hread := expression_reads_phrase hi (by omega) ⟨hphrase, hwhole, hstops⟩
  have hread' : (returns? (typeName inner)).Reads scope call.place.next returns m := by
    refine returns?_reads (typeName_coversTypes hi) (by omega) hreturns (fun p hp n hfirst => ?_)
      hindexed
    exact (h.right_below (List.mem_cons_of_mem _ (List.mem_cons_self ..)) (List.mem_map_of_mem hp)
      hfirst).isPhrase trivial
  have hread'' : (catchClauses inner).Reads scope body.place.next clauses j := by
    obtain ⟨first, others, rfl⟩ := List.exists_cons_of_ne_nil hne
    obtain ⟨⟨hfirst, hcovers⟩, hothers⟩ := hclauses
    have hlays := hclause first (List.mem_cons_self ..) _ hfirst
    have hlt : body.place.next < first.place.next := hlays.lt
    exact .bind (catchClause_reads hi hends ha hs hd (by omega) hlays) <|
      .bind (.collect (moreClauses_gathers hi hends ha hs hd (k := first.place.next) (by omega)
        hothers fun c hc => hclause c (List.mem_cons_of_mem _ hc))) .pure
  exact .bind .position <| .bind (.advance (by rw [hk]; decide)) <| .bind hread <|
    .bind hread' <| .bind (block_reads (hs.mono (by omega)) hends ha hblock) <|
    .bind hread'' <| .bind .extentFrom .pure

include hsound hw

/-- A statement that a keyword or a brace begins is read by the parser for it. -/
theorem keywordStatement_reads (h : scope.lexemes.IsStatement repairs i s j)
    (hk : (keywordStatement? inner (scope.lexemes.kindAt i)).isSome = true) :
    (keywordStatement inner).Reads scope i s j := by
  have hcomplete := ha.complete h.lays
  have hphrasal : ¬ (Part.statement s).IsPhrasal := by
    intro hs
    cases s with
    | declaration place slots initial =>
      rcases (h.lays.isPhrase hs).beginsDeclaration with htype | hparen
      · rw [keywordStatement?_eq_none (.inr htype)] at hk
        cases hk
      · rw [hparen] at hk
        cases hk
    | _ => exact hs
  obtain ⟨symbols, hcomposed, hdecided, hspells⟩ := h.lays.composed hphrasal
    fun hrecovered => by cases hrecovered; exact hcomplete trivial
  rw [keywordStatement_eq]
  cases hcomposed with
  | @blockStatement body =>
    obtain ⟨⟨hfirst, -⟩, rfl⟩ := hspells
    have hblock := h.lays.right_below (List.mem_cons_self ..) (List.mem_singleton_self _) hfirst
    exact .select (by rw [hblock.block_begins]; rfl) <| .within <| .map <|
      block_reads hs hends ha hblock
  | ifElse =>
    exact .select (by rw [hspells.1.2]; rfl) <| .within <| ifStatement_reads hi hs hd h.lays
  | forLoop =>
    exact .select (by rw [hspells.1.2]; rfl) <| .within <|
      forStatement_reads hi hsound hw hs hd h.lays
  | whileLoop =>
    exact .select (by rw [hspells.1.2]; rfl) <| .within <| whileStatement_reads hi hs hd h.lays
  | doWhile =>
    exact .select (by rw [hspells.1.2]; rfl) <| .within <| doWhileStatement_reads hi hs hd h.lays
  | tryCatch =>
    exact .select (by rw [hspells.1.2]; rfl) <| .within <|
      tryStatement_reads hi hends ha hs hd h.lays
  | returned =>
    exact .select (by rw [hspells.1.2]; rfl) <| returnStatement_reads hi hd h.lays
  | @emit place event =>
    obtain rfl : place = ⟨i, j⟩ := h.lays.place
    obtain ⟨⟨hne, hk⟩, hspells⟩ := hspells
    refine .select (by rw [hk]; rfl) <| prefixedExpression_reads hi hd (hk ▸ hne) hspells ?_ ?_
    · exact h.lays.stands.here.tight _ (List.mem_cons_self ..) _ (List.mem_singleton_self _)
    · intro n hfirst
      exact (h.lays.right_below (List.mem_cons_self ..) (List.mem_singleton_self _)
        hfirst).isPhrase trivial
  | @breakLoop place =>
    obtain rfl : place = ⟨i, j⟩ := h.lays.place
    exact .select (by rw [hspells.1.2]; rfl) (bareKeyword_reads hspells)
  | @continueLoop place =>
    obtain rfl : place = ⟨i, j⟩ := h.lays.place
    exact .select (by rw [hspells.1.2]; rfl) (bareKeyword_reads hspells)
  | unchecked =>
    exact .select (by rw [hspells.1.2]; rfl) <| uncheckedStatement_reads hends ha hs h.lays
  | assembly hclose =>
    exact .select (by rw [hspells.1.2]; rfl) <| .within <|
      assemblyStatement_reads hclose h.lays.place hspells
  | @expression _ value =>
    have hvalue := h.lays.right_below (List.mem_cons_self ..) (List.mem_singleton_self _)
      hspells.1.1
    rw [keywordStatement?_eq_none (.inl (hvalue.isPhrase trivial).beginsExpression)] at hk
    cases hk
  | revert | placeholder =>
    rw [hspells.1.2.1] at hk
    cases hk
  | _ =>
    rename_i place
    obtain rfl : place = ⟨i, j⟩ := h.lays.place
    exact .select (by rw [hspells.1.2]; rfl) (bareKeyword_reads hspells)

/-- A statement is read if it is the first way to read what it is written as. -/
theorem statement_reads (h : scope.lexemes.IsStatement repairs i s j) :
    (statement inner).Reads scope i s j := by
  have hcomplete := ha.complete h.lays
  cases hk : keywordStatement? inner (scope.lexemes.kindAt i) with
  | some parser =>
    exact .named <| .first <|
      keywordStatement_reads hi hsound hends hw ha hs hd h (by rw [hk]; rfl)
  | none =>
  have hkeyword : (keywordStatement inner).Misses scope i := by
    rw [keywordStatement_eq]
    exact .select hk
  -- neither of the words that are tried first stands here
  have words (hword : scope.lexemes.NoWord i) {rs : List (Rule (Statement .parsed))}
      (hrs : (Rule.firstOf rs).Reads scope i s j) :
      (Rule.firstOf (keywordStatement inner :: placeholder :: revertStatement inner :: rs)).Reads
        scope i s j := by
    refine .later hkeyword <| .later (.provided ?_) <| .later (.provided ?_) hrs
    · simpa using hword.1
    · simpa using hword.2
  obtain ⟨hpreferred, hchosen⟩ := h.chosen
  cases h.lays.stands.here with
  | phrase holds =>
    obtain ⟨-, symbols, hphrased, -⟩ := holds
    have hphrase := h.lays.isPhrase hphrased.isPhrasal
    have hfirst : s.place.first = i := congrArg Extent.first h.lays.place
    cases hphrased <;>
      exact .named <| words (hfirst ▸ hchosen) <| .first (declarationAttempt_reads hi hd hphrase)
  | composed _ _ composed spells =>
    rw [h.lays.place] at spells
    cases composed with
    | @expression place value =>
      obtain rfl : place = ⟨i, j⟩ := h.lays.place
      exact .named <| words hchosen <|
        .later (declarationAttempt_misses hsound hw hpreferred) <|
        .first (.ofParser (expressionStatement_reads hi hd h.lays))
    | @placeholder place =>
      obtain rfl : place = ⟨i, j⟩ := h.lays.place
      exact .named <| .later hkeyword <| .first (placeholder_reads spells)
    | @revert place error =>
      obtain rfl : place = ⟨i, j⟩ := h.lays.place
      obtain ⟨⟨hne, hident, hword⟩, hspells⟩ := spells
      have hnext : scope.lexemes.kindAt (i + 1) = .ident := hchosen
      refine .named <| .later hkeyword <| .later (.provided ?_) <| .first <| .provided ?_ <|
        .ofParser <| prefixedExpression_reads hi hd (hident ▸ hne) hspells ?_ ?_
      · simp [Lexemes.isWordAt, hident, hword]
      · simp [Lexemes.isWordAt, hident, hword, hnext]
      · exact h.lays.stands.here.tight _ (List.mem_cons_self ..) _ (List.mem_singleton_self _)
      · intro n hfirst
        exact (h.lays.right_below (List.mem_cons_self ..) (List.mem_singleton_self _)
          hfirst).isPhrase trivial
    | @blockStatement body =>
      have hblock := h.lays.right_below (List.mem_cons_self ..) (List.mem_singleton_self _)
        spells.1.1
      rw [hblock.block_begins] at hk
      cases hk
    | _ =>
      rw [spells.1.2] at hk
      cases hk
  | recovered recovered =>
    cases recovered
    exact absurd trivial hcomplete

end Others

end Grammar

/-! ### Every depth -/

/-- The rule for statements nested at most so deeply reads each that is that close to the end of the
input. -/
theorem Inner.takesStatements_upTo {scope : Scope} {repairs : Repairs}
    (hw : scope.lexemes.WellSpelled) (ha : scope.Admits repairs) {depth lo : Nat}
    (hd : scope.lexemes.size < lo + depth) :
    (upTo depth).statement.TakesStatements scope repairs lo := by
  induction depth generalizing lo with
  | zero =>
    intro i s j hlo h
    have hcovers := h.lays.covers
    rw [h.lays.place] at hcovers
    have := Lexemes.lt_size_of_kindAt (hcovers.inside i (Nat.le_refl _) h.lays.lt)
    omega
  | succ depth ih =>
    intro i s j hlo h
    exact Grammar.statement_reads (complete_upTo depth) (sound_upTo depth) (built_upTo depth).ends
      hw ha (ih (by omega)) (by omega) h

end SolidityParser
