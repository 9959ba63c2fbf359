import SolidityParser.Proofs.Parser.Built
import SolidityParser.Proofs.Parser.Reads

/-!
# No statement begins where a member does

`statement_endsAtMember`: the rule for statements fails wherever `atMember` holds, whatever the
rules for what is nested are. Most kinds that begin a member begin neither a type nor an expression.
`error`, `receive` and `fallback` do, as names; there the tokens that tell a member apart are none
after which a declaration or an expression could end with a semicolon.
-/

namespace SolidityParser.Grammar

open SolidityParser.Parser (Reads Fails)

variable {scope : Scope} {i j : Nat} (inner : Inner)

/-! ### Tokens that begin neither a type nor an expression -/

/-- A type begins with a name, with `mapping`, or with `function` and a parenthesis. -/
theorem typeName_fails (hi : scope.lexemes.kindAt i ≠ .ident)
    (hm : scope.lexemes.kindAt i ≠ .kwMapping)
    (hf : scope.lexemes.kindAt i = .kwFunction → scope.lexemes.kindAt (i + 1) ≠ .lparen) :
    (typeName inner).Fails scope i := by
  refine .named <| .followedBy <|
    .orElse (Rule.Misses.opening hi).fails <| .orElse (Rule.Misses.opening hm).fails <|
    .orElse (.opening fun hk => .taking ?_ <| .bind <| .bind <| .expect (hf hk)) .none
  rw [hk]
  decide

/-- The kinds that may begin an operand; `payable` and `type` do if they are called. -/
def beginsOperand (kind : Kind) : Bool :=
  kind matches .ident | .number | .hexNumber | .string | .hexString | .unicodeString | .kwTrue
    | .kwFalse | .lparen | .lbracket | .kwNew | .kwPayable | .kwType

/-- No operand begins with a token that may not begin one. -/
theorem operand_fails (h : beginsOperand (scope.lexemes.kindAt i) = false) :
    (operand inner).Fails scope i := by
  refine .after .kind ?_
  generalize scope.lexemes.kindAt i = k at h
  split
  case h_12 =>
    have hk : ¬ (k = .kwPayable ∨ k = .kwType) := by
      rintro (rfl | rfl) <;> cases h
    refine .after .kindAhead ?_
    rw [if_neg fun hand => hk hand.1]
    exact .after (fun trail => ⟨_, rfl⟩) (.within .fail)
  all_goals cases h

/-- Nor does an expression, if the token is no operator either. -/
theorem expression_fails (h : beginsOperand (scope.lexemes.kindAt i) = false)
    (hl : UnaryOp.leading? (scope.lexemes.kindAt i) = none) :
    (expression inner).Fails scope i := by
  have hpower : (power inner).Fails scope i := by
    refine .bind <| .after .kind ?_
    rw [hl]
    exact .bind (operand_fails inner h)
  have hbinary : ∀ level, (binary inner level).Fails scope i := by
    intro level
    induction level with
    | zero => exact hpower
    | succ level ih => exact .bind ih
  exact .named <| .bind <| .bind (hbinary _)

/-! ### Alternatives of a statement -/

/-- Where no keyword begins a statement, the choice stays open. -/
theorem keywordStatement_misses (hk : keywordStatement? inner (scope.lexemes.kindAt i) = none) :
    (keywordStatement inner).Misses scope i :=
  fun trail => ⟨∅, i, ⟨i, trail⟩, by simp only [keywordStatement, hk]⟩

/-- A statement fails where all of its alternatives do. -/
theorem statement_fails (hk : keywordStatement? inner (scope.lexemes.kindAt i) = none)
    (hp : (scope.lexemes.isWordAt i "_" && scope.lexemes.kindAt (i + 1) == .semicolon) = false)
    (hr : (scope.lexemes.isWordAt i "revert" && scope.lexemes.kindAt (i + 1) == .ident) = false)
    (hd : (declarationStatement inner).Fails { scope with speculative := true } i)
    (he : (expressionStatement inner).Fails scope i) : (statement inner).Fails scope i :=
  .named <| .orElse (keywordStatement_misses inner hk).fails <|
    .orElse (Rule.Misses.provided hp).fails <| .orElse (Rule.Misses.provided hr).fails <|
    .orElse (.attempt (.ofParser hd)) <| .orElse (.ofParser he) .none

/-- No word stands at a token that is no identifier. -/
theorem isWordAt_eq_false {lexemes : Lexemes} (h : lexemes.kindAt i ≠ .ident) (word : String) :
    lexemes.isWordAt i word = false := by
  unfold Lexemes.isWordAt
  rw [beq_false_of_ne h, Bool.false_and]

/-- Without a parenthesis, a declaration begins with a type. -/
theorem declarationStatement_fails (hl : scope.lexemes.kindAt i ≠ .lparen)
    (h : (variableDeclaration inner).Fails scope i) :
    (declarationStatement inner).Fails scope i :=
  .after .position <| .eatElse hl <| .bind h

/-- No statement begins at a token that begins neither a type nor an expression. -/
theorem statement_fails_of_kind (hk : keywordStatement? inner (scope.lexemes.kindAt i) = none)
    (ho : beginsOperand (scope.lexemes.kindAt i) = false)
    (hm : scope.lexemes.kindAt i ≠ .kwMapping)
    (hf : scope.lexemes.kindAt i = .kwFunction → scope.lexemes.kindAt (i + 1) ≠ .lparen)
    (hl : UnaryOp.leading? (scope.lexemes.kindAt i) = none) :
    (statement inner).Fails scope i := by
  have hi : scope.lexemes.kindAt i ≠ .ident := fun h => by rw [h] at ho; cases ho
  have hp : scope.lexemes.kindAt i ≠ .lparen := fun h => by rw [h] at ho; cases ho
  refine statement_fails inner hk ?_ ?_ (declarationStatement_fails inner hp ?_) ?_
  · rw [isWordAt_eq_false hi, Bool.false_and]
  · rw [isWordAt_eq_false hi, Bool.false_and]
  · exact .after .position <| .bind <| .finish <| typeName_fails inner hi hm hf
  · exact .after .position <| .bind <| expression_fails inner ho hl

/-- The keywords that begin a member, but for `function`, begin no statement. -/
theorem statement_fails_of_beginsMember (h : beginsMember (scope.lexemes.kindAt i) = true) :
    (statement inner).Fails scope i := by
  have key : ∀ k, beginsMember k = true → keywordStatement? inner k = none ∧
      beginsOperand k = false ∧ k ≠ .kwMapping ∧ k ≠ .kwFunction ∧
      UnaryOp.leading? k = none := by
    intro k hk
    unfold beginsMember at hk
    split at hk <;> first | exact ⟨rfl, rfl, by decide, by decide, rfl⟩ | cases hk
  obtain ⟨hk, ho, hm, hf, hl⟩ := key _ h
  exact statement_fails_of_kind inner hk ho hm (fun h => absurd h hf) hl

/-- A function with a name begins no statement. -/
theorem statement_fails_of_function (h : scope.lexemes.kindAt i = .kwFunction)
    (h' : scope.lexemes.kindAt (i + 1) = .ident) : (statement inner).Fails scope i := by
  refine statement_fails_of_kind inner ?_ ?_ ?_ ?_ ?_ <;> rw [h]
  · rfl
  · rfl
  · decide
  · rw [h']; decide
  · rfl

/-! ### Names that begin members -/

/-- A name that a type cannot go on after is read as one. -/
theorem typeName_reads (hi : scope.lexemes.kindAt i = .ident)
    (he : isElementary (scope.lexemes.textAt i) = false)
    (hd : scope.lexemes.kindAt (i + 1) ≠ .dot)
    (hb : scope.lexemes.kindAt (i + 1) ≠ .lbracket) :
    ∃ v, (typeName inner).Reads scope i v (i + 1) := by
  have hpath : (pathTail (scope.lexemes.textAt i)).Reads scope (i + 1) _ (i + 1) :=
    .iterate_none <| .bind .kind <| .bind .kindAhead <| by
      rw [if_neg fun hand => hd hand.1]
      exact .pure
  have hnamed : namedType.Reads scope i _ (i + 1) :=
    .opening hi <| .taking (by rw [hi]; decide) <| by
      rw [if_neg (by rw [he]; exact Bool.false_ne_true)]
      exact .bind hpath <| .bind .extentFrom .pure
  exact ⟨_, .named <| .followedBy (.first hnamed) <| .decided <| .iterate_none <|
    .kindElse hb .pure⟩

/-- After a name, a declaration needs another name. -/
theorem variableDeclaration_fails (hi : scope.lexemes.kindAt i = .ident)
    (he : isElementary (scope.lexemes.textAt i) = false)
    (hp : scope.lexemes.kindAt (i + 1) = .lparen) :
    (variableDeclaration inner).Fails scope i := by
  obtain ⟨v, htype⟩ := typeName_reads inner hi he (by rw [hp]; decide) (by rw [hp]; decide)
  have hlocation : location?.Reads scope (i + 1) none (i + 1) :=
    .eatElse (by rw [hp]; decide) <| .eatElse (by rw [hp]; decide) <|
      .eatElse (by rw [hp]; decide) .pure
  exact .after .position <| .after (.finish htype) <| .after hlocation <| .bind <|
    .expectIdent (by rw [hp]; decide)

/-- A kind that goes on with no expression. -/
structure EndsExpression (k : Kind) : Prop where
  /-- It is neither a point nor a bracket. -/
  noSuffix : k ≠ .dot ∧ k ≠ .lbracket ∧ k ≠ .lparen ∧ k ≠ .lbrace
  /-- It is no operator after an operand. -/
  trailing : UnaryOp.trailing? k = none
  /-- It is no `**`. -/
  power : k ≠ .starStar
  /-- It is no other operator between operands. -/
  binary : ∀ level, BinaryOp.ofKind? level k = none
  /-- It is no question mark. -/
  question : k ≠ .question
  /-- It is no assignment. -/
  assign : AssignOp.ofKind? k = none

/-- A kind that no binary operator is written as is none of any level. -/
theorem ofKind?_eq_none {k : Kind} (h : ∀ op : BinaryOp, op.kind ≠ k) (level : Nat) :
    BinaryOp.ofKind? level k = none := by
  refine List.find?_eq_none.mpr fun op _ hk => ?_
  rw [Bool.and_eq_true, beq_iff_eq] at hk
  exact h op hk.1

/-- Names and the attributes of functions go on with no expression. -/
theorem endsExpression {k : Kind} (h : k = .ident ∨ isAttribute k = true) : EndsExpression k := by
  rcases h with rfl | h
  · exact ⟨by decide, rfl, by decide, ofKind?_eq_none fun op => by cases op <;> decide,
      by decide, rfl⟩
  · unfold isAttribute at h
    split at h <;> first
      | exact ⟨by decide, rfl, by decide, ofKind?_eq_none fun op => by cases op <;> decide,
          by decide, rfl⟩
      | cases h

/-- Nothing follows an operand where the expression ends. -/
theorem suffix?_reads_none {object : Expression Extent}
    (h : EndsExpression (scope.lexemes.kindAt i)) :
    (suffix? inner object).Reads scope i none i := by
  refine .bind .kind ?_
  generalize scope.lexemes.kindAt i = k at h
  obtain ⟨⟨hd, hb, hp, hc⟩, ht, -⟩ := h
  split
  · exact absurd rfl hd
  · exact absurd rfl hb
  · exact absurd rfl hp
  · exact absurd rfl hc
  · rw [ht]
    exact .pure

/-- An operand before a token that is no operator between operands is a choice by itself. -/
theorem conditional_reads_postfixed {v : Expression Extent}
    (hl : UnaryOp.leading? (scope.lexemes.kindAt i) = none)
    (h : (postfixed inner).Reads scope i v j) (hpower : scope.lexemes.kindAt j ≠ .starStar)
    (hbinary : ∀ level, BinaryOp.ofKind? level (scope.lexemes.kindAt j) = none)
    (hquestion : scope.lexemes.kindAt j ≠ .question) : (conditional inner).Reads scope i v j := by
  have hunary : (unary inner).Reads scope i v j := by
    refine .bind .kind ?_
    rw [hl]
    exact h
  have hread : ∀ level, (binary inner level).Reads scope i v j := by
    intro level
    induction level with
    | zero => exact .bind hunary (.kindElse hpower .pure)
    | succ level ih =>
      refine .bind ih <| .iterate_none <| .bind .kind ?_
      rw [hbinary]
      exact .pure
  exact .bind (hread _) (.kindElse hquestion .pure)

/-- An operand before a token that goes on with no expression is the whole of one. -/
theorem expression_reads {v : Expression Extent}
    (hl : UnaryOp.leading? (scope.lexemes.kindAt i) = none)
    (h : (postfixed inner).Reads scope i v j) (he : EndsExpression (scope.lexemes.kindAt j)) :
    (expression inner).Reads scope i v j := by
  have hconditional := conditional_reads_postfixed inner hl h he.power he.binary he.question
  refine .named <| .bind hconditional <| .bind .kind ?_
  rw [he.assign]
  exact .pure

/-- No statement begins at a name that is neither a type nor the whole of an expression
statement. -/
theorem statement_fails_of_name {word : String} (hi : scope.lexemes.kindAt i = .ident)
    (hw : scope.lexemes.textAt i = word) (hu : word ≠ "_") (hr : word ≠ "revert")
    (hd : (declarationStatement inner).Fails { scope with speculative := true } i)
    {v : Expression Extent} (hp : (postfixed inner).Reads scope i v j)
    (he : EndsExpression (scope.lexemes.kindAt j)) (hs : scope.lexemes.kindAt j ≠ .semicolon) :
    (statement inner).Fails scope i := by
  have hword : ∀ other, word ≠ other → scope.lexemes.isWordAt i other = false := by
    intro other hne
    unfold Lexemes.isWordAt
    rw [hw, beq_false_of_ne hne, Bool.and_false]
  refine statement_fails inner (by rw [hi]; rfl) ?_ ?_ ?_ ?_
  · rw [hword _ hu, Bool.false_and]
  · rw [hword _ hr, Bool.false_and]
  · exact hd
  · exact .after .position <| .after (expression_reads inner (by rw [hi]; rfl) hp he) <| .bind <|
      .expect hs

/-- A name is an operand. -/
theorem operand_reads_name (hi : scope.lexemes.kindAt i = .ident) :
    (operand inner).Reads scope i
      (.identifier (Extent.single i) (scope.lexemes.textAt i)) (i + 1) := by
  refine .bind .kind ?_
  rw [hi]
  exact .bind .position <| .bind .text <| .bind (.advance (by rw [hi]; decide)) .pure

/-! ### Words that begin members -/

/-- After two names no declaration goes on with a parenthesis. -/
theorem declarationStatement_fails_of_names (hi : scope.lexemes.kindAt i = .ident)
    (he : isElementary (scope.lexemes.textAt i) = false)
    (hn : scope.lexemes.kindAt (i + 1) = .ident)
    (hp : scope.lexemes.kindAt (i + 2) = .lparen) :
    (declarationStatement inner).Fails scope i := by
  have hlocation : location?.Reads scope (i + 1) none (i + 1) :=
    .eatElse (by rw [hn]; decide) <| .eatElse (by rw [hn]; decide) <|
      .eatElse (by rw [hn]; decide) .pure
  obtain ⟨type, htype⟩ := typeName_reads inner hi he (by rw [hn]; decide) (by rw [hn]; decide)
  have hvariable : (variableDeclaration inner).Reads scope i _ (i + 2) :=
    .bind .position <| .bind (.finish htype) <| .bind hlocation <| .bind (.expectIdent hn) <|
      .bind .extentFrom .pure
  exact .after .position <| .eatElse (by rw [hi]; decide) <| .after hvariable <|
    .eatElse (by rw [hp]; decide) <| .after .pure <| .bind <| .expect (by rw [hp]; decide)

/-- `error`, a name and a parenthesis begin no statement. -/
theorem statement_fails_of_error (hw : scope.lexemes.textAt i = "error")
    (hi : scope.lexemes.kindAt i = .ident) (hn : scope.lexemes.kindAt (i + 1) = .ident)
    (hp : scope.lexemes.kindAt (i + 2) = .lparen) : (statement inner).Fails scope i := by
  have hends : EndsExpression (scope.lexemes.kindAt (i + 1)) := by
    rw [hn]
    exact endsExpression (.inl rfl)
  have hname := operand_reads_name inner hi
  exact statement_fails_of_name inner hi hw (by decide) (by decide)
    (declarationStatement_fails_of_names inner hi (by rw [hw]; decide +kernel) hn hp)
    (.bind hname (.iterate_none (suffix?_reads_none inner hends))) hends (by rw [hn]; decide)

/-- `receive` or `fallback` without arguments, and the attribute of a function, begin no
statement. -/
theorem statement_fails_of_call {word : String} (hw : scope.lexemes.textAt i = word)
    (hword : word ≠ "_" ∧ word ≠ "revert" ∧ isElementary word = false)
    (hi : scope.lexemes.kindAt i = .ident) (ho : scope.lexemes.kindAt (i + 1) = .lparen)
    (hc : scope.lexemes.kindAt (i + 2) = .rparen)
    (ha : isAttribute (scope.lexemes.kindAt (i + 3)) = true) :
    (statement inner).Fails scope i := by
  have hends := endsExpression (.inr ha)
  have hname := operand_reads_name inner hi
  obtain ⟨v, hcall⟩ : ∃ v, (call inner (.identifier (Extent.single i)
      (scope.lexemes.textAt i))).Reads scope (i + 1) v (i + 3) :=
    ⟨_, .bind (.advance (by rw [ho]; decide)) <| .bind
      (.kindElse (by rw [hc]; decide) <| .bind
        (.within (.eatIf (by decide) hc .pure)) .pure) <| .bind .extentFrom .pure⟩
  have hsuffix : (suffix? inner (.identifier (Extent.single i)
      (scope.lexemes.textAt i))).Reads scope (i + 1) (some v) (i + 3) := by
    refine .bind .kind ?_
    rw [ho]
    exact .bind hcall .pure
  have hdeclaration : (declarationStatement inner).Fails { scope with speculative := true } i :=
    declarationStatement_fails inner (by rw [hi]; decide) <|
      variableDeclaration_fails inner hi (by rw [hw]; exact hword.2.2) ho
  refine statement_fails_of_name inner hi hw hword.1 hword.2.1 hdeclaration
    (.bind hname (.iterate_some hsuffix (suffix?_reads_none inner hends) (by rw [ho]; decide)))
    hends fun hs => ?_
  rw [hs] at ha
  cases ha

/-- No statement begins where a member does. -/
theorem statement_endsAtMember : (statement inner).EndsAtMember := by
  intro scope s hmember
  suffices h : (statement inner).Fails scope s.position from h s.trail
  unfold atMember at hmember
  dsimp only [Nat.add_zero] at hmember
  split at hmember
  · rename_i hk
    exact statement_fails_of_function inner hk (eq_of_beq hmember)
  · rename_i hk
    split at hmember
    · rename_i hw
      simp only [Bool.and_eq_true, beq_iff_eq] at hmember
      exact statement_fails_of_call inner hw ⟨by decide, by decide, by decide +kernel⟩ hk
        hmember.1.1 hmember.1.2 hmember.2
    · rename_i hw
      simp only [Bool.and_eq_true, beq_iff_eq] at hmember
      exact statement_fails_of_call inner hw ⟨by decide, by decide, by decide +kernel⟩ hk
        hmember.1.1 hmember.1.2 hmember.2
    · rename_i hw
      simp only [Bool.and_eq_true, beq_iff_eq] at hmember
      exact statement_fails_of_error inner hw hk hmember.1 hmember.2
    · cases hmember
  · exact statement_fails_of_beginsMember inner hmember

end SolidityParser.Grammar
