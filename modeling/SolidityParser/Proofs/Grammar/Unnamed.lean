import SolidityParser.Proofs.Grammar.Overlap

/-!
# Lists of variables read as tuples

A list of variables with a value and an assignment to a tuple both begin with a parenthesis. Where a
variable is declared its type comes first, and no component of a tuple ends after it
(`expression_ends_at_type`); so where both can be read, commas alone stand between the parentheses
and an equals sign comes after them. `Lexemes.Unnamed` says that, and `unnamed_of_gives` that a
declaration and an expression statement begin at one place in no other case.

At such a list either statement is there just if an expression and a semicolon come after the equals
sign (`declarationStatement_gives_iff`, `expressionStatement_gives_iff`).
-/

namespace SolidityParser

open SolidityParser.Parser (Reads)

/-- Up to an index commas alone stand between parentheses, and an equals sign comes next. -/
structure Lexemes.Unnamed (lexemes : Lexemes) (i close : Nat) : Prop where
  /-- There are two parentheses. -/
  lt : i < close
  /-- The first opens. -/
  opening : lexemes.kindAt i = .lparen
  /-- Between them are commas. -/
  commas : ∀ n, i < n → n < close → lexemes.kindAt n = .comma
  /-- The second closes. -/
  closing : lexemes.kindAt close = .rparen
  /-- The equals sign. -/
  equals : lexemes.kindAt (close + 1) = .eq

/-- What comes after the equals sign is in the input. -/
theorem Lexemes.Unnamed.le_size {lexemes : Lexemes} {i close : Nat}
    (h : lexemes.Unnamed i close) : close + 2 ≤ lexemes.size := by
  have hne : lexemes.kindAt (close + 1) ≠ .eof := by rw [h.equals]; decide
  exact lt_size_of_kindAt hne

variable {scope : Scope} {i j k n m depth : Nat}

/-- After the first of several items comes a comma, or they end. -/
theorem Separated.first {α : Type} {item : Parser α} {vs : List α}
    (h : Separated scope item i vs j) :
    ∃ v n, item.Gives scope i v n ∧ (scope.lexemes.kindAt n = .comma ∨ n = j) := by
  cases h with
  | last only => exact ⟨_, _, only, .inr rfl⟩
  | more first comma => exact ⟨_, _, first, .inl comma⟩

namespace Grammar

/-! ### What is given -/

/-- A data location, or a name after none. -/
theorem location?_ends {location : Option StorageLocation}
    (h : location?.Gives scope i location j) (hj : scope.lexemes.kindAt j = .ident) :
    followsType (scope.lexemes.kindAt i) = true := by
  rcases h.eatIf (by decide) with ⟨hi, -⟩ | ⟨-, h⟩
  · rw [hi]
    rfl
  rcases h.eatIf (by decide) with ⟨hi, -⟩ | ⟨-, h⟩
  · rw [hi]
    rfl
  rcases h.eatIf (by decide) with ⟨hi, -⟩ | ⟨-, h⟩
  · rw [hi]
    rfl
  obtain rfl := h.pure.2
  rw [hj]
  rfl

/-- A declared variable begins with a type, and goes on. -/
theorem variableDeclaration_gives {inner : Inner} {declared : VariableDeclaration Extent}
    (h : (variableDeclaration inner).Gives scope i declared j) :
    ∃ type n, (typeName inner).Gives scope i type n ∧
      followsType (scope.lexemes.kindAt n) = true := by
  obtain ⟨type, n, htype, h⟩ := h.position.bind
  obtain ⟨location, m, hlocation, h⟩ := h.bind
  exact ⟨type, n, htype.finish, location?_ends hlocation h.expectIdent.1⟩

/-- An expression that begins with no operator begins with an operand. -/
theorem operand_of_expression {inner : Inner} {v : Expression Extent}
    (h : (expression inner).Gives scope i v j)
    (hi : UnaryOp.leading? (scope.lexemes.kindAt i) = none) :
    ∃ w n, (operand inner).Gives scope i w n := by
  have hpower {w : Expression Extent} {n : Nat} (hpower : (power inner).Gives scope i w n) :
      ∃ w n, (operand inner).Gives scope i w n := by
    obtain ⟨base, m, hbase, -⟩ := hpower.bind
    replace hbase := hbase.kind
    rw [hi] at hbase
    obtain ⟨w, n, hoperand, -⟩ := hbase.bind
    exact ⟨w, n, hoperand⟩
  have hbinary : ∀ level {w : Expression Extent} {n : Nat},
      (binary inner level).Gives scope i w n → ∃ w n, (operand inner).Gives scope i w n := by
    intro level
    induction level with
    | zero => exact hpower
    | succ level ih =>
      intro w n h
      obtain ⟨first, m, hfirst, -⟩ := h.bind
      exact ih hfirst
  obtain ⟨left, n, hleft, -⟩ := h.named.bind
  obtain ⟨test, m, htest, -⟩ := hleft.bind
  exact hbinary _ htest

/-- An expression that begins with a parenthesis begins with a tuple. -/
theorem tuple_of_expression {inner : Inner} {v : Expression Extent}
    (h : (expression inner).Gives scope i v j) (hi : scope.lexemes.kindAt i = .lparen) :
    scope.lexemes.kindAt (i + 1) = .rparen ∨ ∃ components n,
      Separated scope (component inner false) (i + 1) components n ∧
        scope.lexemes.kindAt n = .rparen := by
  obtain ⟨w, n, hoperand⟩ := operand_of_expression h (by rw [hi]; rfl)
  replace hoperand := hoperand.kind
  rw [hi] at hoperand
  obtain ⟨components, m, hseries, -⟩ := (hoperand.position.advance (by rw [hi]; decide)).bind
  rcases hseries.series (by decide) with ⟨hclose, -⟩ | ⟨-, m, hcomponents, hclose, -⟩
  · exact .inl hclose
  · exact .inr ⟨components, m, hcomponents, hclose⟩

/-- A variable of a list is missing before a comma or a parenthesis, and only there. -/
theorem variableSlot_gives {inner : Inner} {slot : Option (VariableDeclaration Extent)}
    (h : (variableSlot inner).Gives scope i slot j) :
    (scope.lexemes.kindAt i = .comma ∨ scope.lexemes.kindAt i = .rparen) ∧ j = i ∨
      ¬ (scope.lexemes.kindAt i = .comma ∨ scope.lexemes.kindAt i = .rparen) ∧
        ∃ declared, (variableDeclaration inner).Gives scope i declared j := by
  replace h := h.kind
  split at h
  · next hempty => exact .inl ⟨hempty, h.pure.2⟩
  · next hsome =>
    obtain ⟨declared, n, hdeclared, h⟩ := h.bind
    obtain rfl := h.pure.2
    exact .inr ⟨hsome, declared, hdeclared⟩

/-- So is a component of a tuple. -/
theorem component_gives {inner : Inner} {slot : Option (Expression Extent)}
    (h : (component inner false).Gives scope i slot j) :
    (scope.lexemes.kindAt i = .comma ∨ scope.lexemes.kindAt i = .rparen) ∧ j = i ∨
      ¬ (scope.lexemes.kindAt i = .comma ∨ scope.lexemes.kindAt i = .rparen) ∧
        ∃ value, inner.expression.Gives scope i value j := by
  replace h := h.kind
  simp only [Bool.not_false, true_and] at h
  split at h
  · next hempty => exact .inl ⟨hempty, h.pure.2⟩
  · next hsome =>
    obtain ⟨value, n, hvalue, h⟩ := h.bind
    obtain rfl := h.pure.2
    exact .inr ⟨hsome, value, hvalue⟩

/-! ### Lists of variables read as tuples -/

/-- No component of a tuple begins where a variable is declared. -/
theorem component_not_declared {declared : VariableDeclaration Extent}
    {components : List (Option (Expression Extent))} (hd : scope.lexemes.size ≤ i + depth)
    (hsome : ¬ (scope.lexemes.kindAt i = .comma ∨ scope.lexemes.kindAt i = .rparen))
    (hdeclared : (variableDeclaration (.upTo (depth + 1))).Gives scope i declared j)
    (h : Separated scope (component (.upTo (depth + 1)) false) i components n)
    (hn : scope.lexemes.kindAt n = .rparen) : False := by
  obtain ⟨type, m, htype, hfollows⟩ := variableDeclaration_gives hdeclared
  obtain ⟨slot, k, hslot, hk⟩ := h.first
  rcases component_gives hslot with ⟨hempty, -⟩ | ⟨-, value, hvalue⟩
  · exact hsome hempty
  · have hends := expression_ends_at_type (by omega) hd htype hfollows hvalue
    rcases hk with hcomma | rfl
    · rw [hcomma] at hends
      cases hends
    · rw [hn] at hends
      cases hends

/-- Where a list of variables is a tuple as well, no variable is declared. -/
theorem commas_of_separated {slots : List (Option (VariableDeclaration Extent))}
    {components : List (Option (Expression Extent))} (hd : scope.lexemes.size ≤ i + depth)
    (h : Separated scope (variableSlot (.upTo (depth + 1))) i slots j)
    (h' : Separated scope (component (.upTo (depth + 1)) false) i components k)
    (hk : scope.lexemes.kindAt k = .rparen) :
    i ≤ j ∧ ∀ n, i ≤ n → n < j → scope.lexemes.kindAt n = .comma := by
  induction h generalizing components with
  | last only =>
    rcases variableSlot_gives only with ⟨-, rfl⟩ | ⟨hsome, declared, hdeclared⟩
    · exact ⟨Nat.le_refl _, fun n hle hlt => by omega⟩
    · exact (component_not_declared hd hsome hdeclared h' hk).elim
  | more first comma rest ih =>
    rcases variableSlot_gives first with ⟨-, rfl⟩ | ⟨hsome, declared, hdeclared⟩
    · cases h' with
      | last only noComma =>
        rcases component_gives only with ⟨-, rfl⟩ | ⟨hsome, -⟩
        · exact (noComma comma).elim
        · exact (hsome (.inl comma)).elim
      | more first' comma' rest' =>
        rcases component_gives first' with ⟨-, rfl⟩ | ⟨hsome, -⟩
        · obtain ⟨hle, hcommas⟩ := ih (by omega) rest'
          refine ⟨by omega, fun n hn hlt => ?_⟩
          rcases Nat.eq_or_lt_of_le hn with rfl | hlater
          · exact comma
          · exact hcommas n hlater hlt
        · exact (hsome (.inl comma)).elim
    · exact (component_not_declared hd hsome hdeclared h' hk).elim

/-- Before a parenthesis there is one variable, which is missing. -/
theorem eq_of_separated {inner : Inner} {slots : List (Option (VariableDeclaration Extent))}
    (h : Separated scope (variableSlot inner) i slots j) (hi : scope.lexemes.kindAt i = .rparen) :
    j = i := by
  cases h with
  | last only =>
    rcases variableSlot_gives only with ⟨-, heq⟩ | ⟨hsome, -⟩
    · exact heq
    · exact (hsome (.inr hi)).elim
  | more first comma =>
    rcases variableSlot_gives first with ⟨-, rfl⟩ | ⟨hsome, -⟩
    · rw [hi] at comma
      cases comma
    · exact (hsome (.inr hi)).elim

/-- Where a declaration and an expression statement begin, no variable is declared. -/
theorem unnamed_of_gives {s t : Statement .parsed} (hd : scope.lexemes.size ≤ i + depth)
    (h : (declarationStatement (.upTo depth)).Gives scope i s j)
    (h' : (expressionStatement (.upTo depth)).Gives scope i t k) :
    ∃ close, scope.lexemes.Unnamed i close := by
  obtain ⟨value, m, hvalue, h'⟩ := h'.position.bind
  have hm := (h'.expect (by decide)).1
  rcases h.position.eatIf (by decide) with ⟨hopen, h⟩ | ⟨-, h⟩
  · obtain ⟨slots, close, hslots, h⟩ := h.bind
    obtain ⟨hclose, h⟩ := h.expect (by decide)
    obtain ⟨heq, -⟩ := h.expect (by decide)
    have hcommas : i + 1 ≤ close ∧
        ∀ n, i + 1 ≤ n → n < close → scope.lexemes.kindAt n = .comma := by
      rcases tuple_of_expression hvalue hopen with hempty | ⟨components, n, hcomponents, hn⟩
      · obtain rfl := eq_of_separated hslots.separated hempty
        exact ⟨Nat.le_refl _, fun n hle hlt => by omega⟩
      · have hne : scope.lexemes.kindAt i ≠ .eof := by rw [hopen]; decide
        have hsize := Lexemes.lt_size_of_kindAt hne
        cases depth with
        | zero => omega
        | succ depth => exact commas_of_separated (by omega) hslots.separated hcomponents hn
    exact ⟨close, ⟨hcommas.1, hopen, hcommas.2, hclose, heq⟩⟩
  · obtain ⟨declared, n, hdeclared, -⟩ := h.bind
    obtain ⟨type, n, htype, hfollows⟩ := variableDeclaration_gives hdeclared
    have hends := expression_ends_at_type hd hd htype hfollows hvalue
    rw [hm] at hends
    cases hends

/-! ### Lists without variables -/

/-- Items that are missing between commas. -/
theorem separated_reads_commas {α : Type} {item : Parser (Option α)} (hle : i ≤ j)
    (hcommas : ∀ n, i ≤ n → n < j → scope.lexemes.kindAt n = .comma)
    (hj : scope.lexemes.kindAt j = .rparen)
    (hitem : ∀ n, scope.lexemes.kindAt n = .comma ∨ scope.lexemes.kindAt n = .rparen →
      item.Reads scope n none n) :
    ∃ vs, (Parser.separated item).Reads scope i vs j := by
  have hspells : ∀ count i, i + count = j → (∀ n, i ≤ n → n < j → scope.lexemes.kindAt n = .comma) →
      scope.lexemes.Spells i (Symbol.separated ((List.replicate (count + 1) (none : Option α)).map
        fun _ => [])) j := by
    intro count
    induction count with
    | zero => exact fun i hcount _ => hcount
    | succ count ih =>
      intro i hcount hcommas
      exact ⟨⟨by decide, hcommas i (Nat.le_refl i) (by omega)⟩,
        ih (i + 1) (by omega) fun n hn hlt => hcommas n (by omega) hlt⟩
  refine ⟨_, .separated (by simp) (hspells (j - i) i (by omega) hcommas) (by rw [hj]; decide) ?_⟩
  rintro v hv n m - rfl hm
  obtain rfl := List.eq_of_mem_replicate hv
  refine hitem n (hm.imp_right ?_)
  rintro rfl
  exact hj

section Unnamed

variable {close : Nat} (h : scope.lexemes.Unnamed i close)

include h

/-- The list is read as variables that are missing. -/
theorem slots_read_unnamed (inner : Inner) :
    ∃ slots, (Parser.separated (variableSlot inner)).Reads scope (i + 1) slots close :=
  separated_reads_commas h.lt (fun n hle hlt => h.commas n hle hlt) h.closing fun n hn =>
    .bind .kind <| by
      rw [if_pos hn]
      exact .pure

/-- The list is read as a tuple without components. -/
theorem operand_reads_unnamed (inner : Inner) :
    ∃ value, (operand inner).Reads scope i value (close + 1) := by
  have hopen : scope.lexemes.kindAt i ≠ .eof := by rw [h.opening]; decide
  obtain ⟨components, hcomponents⟩ :
      ∃ components, (Parser.series .rparen (component inner false)).Reads scope (i + 1) components
        (close + 1) := by
    rcases Nat.eq_or_lt_of_le h.lt with rfl | hlt
    · exact ⟨[], .eatIf (by decide) h.closing .pure⟩
    · have hmissing (n : Nat) (hn : scope.lexemes.kindAt n = .comma ∨
          scope.lexemes.kindAt n = .rparen) : (component inner false).Reads scope n none n :=
        .bind .kind <| by
          rw [if_pos ⟨rfl, hn⟩]
          exact .pure
      obtain ⟨components, hcomponents⟩ := separated_reads_commas h.lt
        (fun n hle hlt => h.commas n hle hlt) h.closing hmissing
      have hcomma := h.commas (i + 1) (Nat.lt_succ_self i) hlt
      exact ⟨components, .eatElse (by rw [hcomma]; decide) <| .bind hcomponents <|
        .bind (.expect (by decide) h.closing) .pure⟩
  refine ⟨.tuple ⟨i, close + 1⟩ components false, .bind .kind ?_⟩
  rw [h.opening]
  exact .bind .position <| .bind (.advance hopen) <| .bind hcomponents <| .bind .extentFrom .pure

/-- Up to the equals sign, the list is an expression. -/
theorem conditional_reads_unnamed (inner : Inner) :
    ∃ value, (conditional inner).Reads scope i value (close + 1) := by
  obtain ⟨value, hoperand⟩ := operand_reads_unnamed h inner
  have hsuffix : (suffix? inner value).Reads scope (close + 1) none (close + 1) := by
    refine .bind .kind ?_
    rw [h.equals]
    exact .pure
  refine ⟨value, conditional_reads_postfixed inner (by rw [h.opening]; rfl)
    (.bind hoperand (.iterate_none hsuffix)) ?_ ?_ ?_⟩ <;> rw [h.equals]
  · decide
  · exact ofKind?_eq_none fun op => by cases op <;> decide
  · decide

variable (hd : scope.lexemes.size ≤ i + depth)

include hd

/-- A declaration without variables is one where an expression comes after the equals sign. -/
theorem declarationStatement_gives_iff :
    (∃ v, (declarationStatement (.upTo depth)).Gives scope i v j) ↔
      ∃ value n, (Inner.upTo depth).assignment.Gives scope (close + 2) value n ∧
        scope.lexemes.kindAt n = .semicolon ∧ j = n + 1 := by
  have hlt := h.lt
  have hsize := h.le_size
  obtain ⟨slots, hslots⟩ := slots_read_unnamed h (.upTo depth)
  constructor
  · rintro ⟨v, hgives⟩
    rcases hgives.position.eatIf (by decide) with ⟨-, hgives⟩ | ⟨hopen, -⟩
    · obtain ⟨slots', m, hslots', hgives⟩ := hgives.bind
      obtain ⟨rfl, rfl⟩ := hslots'.eq_of_reads hslots
      obtain ⟨value, n, hvalue, hgives⟩ := ((hgives.expect (by decide)).2.expect (by decide)).2.bind
      obtain ⟨hend, hgives⟩ := hgives.expect (by decide)
      exact ⟨value, n, (Inner.expression_gives_iff (by omega) hsize).mp hvalue, hend,
        hgives.extentFrom.pure.2⟩
    · exact absurd h.opening hopen
  · rintro ⟨value, n, hvalue, hend, rfl⟩
    have hsteady := (expression_built (Inner.built_upTo depth)).steady
    have hread := ((Inner.expression_gives_iff (by omega) hsize).mpr hvalue).reads hsteady
    have hstatement : (declarationStatement (.upTo depth)).Reads scope i _ (n + 1) :=
      .bind .position <| .eatIf (by decide) h.opening <| .bind hslots <|
        .bind (.expect (by decide) h.closing) <| .bind (.expect (by decide) h.equals) <|
        .bind hread <| .bind (.expect (by decide) hend) <| .bind .extentFrom .pure
    exact ⟨_, .of_reads hstatement⟩

omit hd in
/-- So is an expression statement. -/
theorem expressionStatement_gives_iff :
    (∃ v, (expressionStatement (.upTo depth)).Gives scope i v j) ↔
      ∃ value n, (Inner.upTo depth).assignment.Gives scope (close + 2) value n ∧
        scope.lexemes.kindAt n = .semicolon ∧ j = n + 1 := by
  obtain ⟨left, hleft⟩ := conditional_reads_unnamed h (.upTo depth)
  have hequals : scope.lexemes.kindAt (close + 1) ≠ .eof := by rw [h.equals]; decide
  constructor
  · rintro ⟨v, hgives⟩
    obtain ⟨whole, m, hwhole, hgives⟩ := hgives.position.bind
    obtain ⟨hend, hgives⟩ := hgives.expect (by decide)
    obtain ⟨left', n, hleft', hwhole⟩ := hwhole.named.bind
    obtain ⟨rfl, rfl⟩ := hleft'.eq_of_reads hleft
    replace hwhole := hwhole.kind
    rw [h.equals] at hwhole
    obtain ⟨value, n, hvalue, hwhole⟩ := (hwhole.advance hequals).bind
    obtain rfl := hwhole.pure.2
    exact ⟨value, _, hvalue, hend, hgives.extentFrom.pure.2⟩
  · rintro ⟨value, n, hvalue, hend, rfl⟩
    have hread := hvalue.reads ((Inner.built_upTo depth).assignment {}).steady
    have hwhole : (expression (.upTo depth)).Reads scope i
        (.assignment (left.place.upTo value.place) .assign left value) n := by
      refine .named <| .bind hleft <| .bind .kind ?_
      rw [h.equals]
      exact .bind (.advance hequals) <| .bind hread .pure
    have hstatement : (expressionStatement (.upTo depth)).Reads scope i _ (n + 1) :=
      .bind .position <| .bind hwhole <| .bind (.expect (by decide) hend) <|
        .bind .extentFrom .pure
    exact ⟨_, .of_reads hstatement⟩

end Unnamed

end Grammar

end SolidityParser
