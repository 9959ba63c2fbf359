import SolidityParser.Proofs.Accounts.Member

/-!
# Whole inputs account for what they read

Accounts of the rules of `Grammar/Unit`, and of the entry rules. Every level of nesting costs a
token, so levels that are stacked are enough from the tokens on that come after as many as are
missing, whatever is below them (`Inner.accounts_above`); that holds of either input with its own
number of levels.
-/

namespace SolidityParser.Grammar

open SolidityParser.Parser (Accounts Onward)

variable {w : Alike} {due : Bool} {i : Nat} {inner inner' : Inner}

/-! ### Pragmas

The tokens of a pragma are passed one by one, up to a semicolon.
-/

theorem skipToSemicolon_accounts :
    Accounts w due i skipToSemicolon skipToSemicolon fun _ j => i ≤ j :=
  .bind
    (.iterate fun _ _ _ => .kind <| .ite (fun _ => .pure .last) fun hj =>
      .advance (fun heof => hj (.inr heof)) <| .pure (.more (by omega)))
    fun _ _ hj _ => .pure hj

theorem feature_accounts : Accounts w due i feature feature fun _ _ => True :=
  .text <| .eatIf nofun (fun _ => .done) fun _ =>
    expectString_accounts.mono fun _ _ _ _ => trivial

theorem pragmaDirective_accounts :
    pragmaDirective.Accounts w true i pragmaDirective fun _ j => i < j := by
  refine keywordRule_accounts fun hi => .position <| .take hi nofun <|
    .expectIdent fun _ => ?_
  dsimp only
  split
  · exact .expectIdent fun _ => .expect nofun fun _ => .extentFrom <| .pure (by omega)
  · exact feature_accounts.bind fun _ _ _ _ => .expect nofun fun _ =>
      .extentFrom <| .pure (by omega)
  · exact .position <| skipToSemicolon_accounts.bind fun _ _ _ _ => .extentFrom <|
      .expect nofun fun _ => .extentFrom <| .pure (by omega)

/-! ### Imports

An import may be of any of its forms; the word in front of its path is looked at with the token
before it.
-/

theorem newName?_accounts : Accounts w due i newName? newName? fun _ _ => True :=
  .eatIf nofun (fun _ => .expectIdent fun _ => .done) fun _ => .done

theorem importSymbol_accounts : Accounts w due i importSymbol importSymbol fun _ _ => True :=
  .expectIdent fun _ => newName?_accounts.bind fun _ _ _ _ => .extentFrom .done

theorem importedNames_accounts : Accounts w due i importedNames importedNames fun _ _ => True :=
  .eatIf nofun
    (fun _ => .expect nofun fun _ => .expectIdent fun _ => .done) fun _ =>
    .eatIf nofun
      (fun _ => .bind (.series (by simp) fun _ _ => importSymbol_accounts) fun _ _ _ _ => .done)
      fun _ => .fail

theorem expectWord_accounts {word : String} :
    Accounts w due i (Parser.expectWord word) (Parser.expectWord word) fun _ _ => True :=
  .isWord <| .ite
    (fun hi => by
      rw [← bind_pure Parser.advance]
      exact .take (Lexemes.kindAt_of_isWordAt hi) nofun .done)
    fun _ => .reportToken .fail

theorem importDirective_accounts :
    importDirective.Accounts w true i importDirective fun _ j => i < j :=
  keywordRule_accounts fun hi => .position <| .take hi nofun <| .check
    (fun _ => expectString_accounts.bind fun _ _ _ _ => newName?_accounts.bind fun _ _ _ _ =>
      .expect nofun fun _ => .extentFrom <| .pure (by omega))
    fun _ => importedNames_accounts.bind fun (_, _) _ _ _ => expectWord_accounts.bind fun _ _ _ _ =>
      expectString_accounts.bind fun _ _ _ _ => .expect nofun fun _ =>
      .extentFrom <| .pure (by omega)

/-! ### Contracts

A contract is past its keyword. Its members are read in rounds, each of which is past a token.
-/

theorem contractKind_accounts : Accounts w due i contractKind contractKind fun _ j => i < j :=
  .eatIf nofun (fun _ => .pure (by omega)) fun _ =>
    .eatIf nofun (fun _ => .pure (by omega)) fun _ =>
    .eatIf nofun (fun _ => .pure (by omega)) fun _ => .fail

section

variable (h : Inner.Accounts w i inner inner')

include h

theorem bases_accounts : Accounts w due i (bases inner) (bases inner') fun _ _ => True :=
  .eatIf nofun
    (fun _ => (Accounts.separated fun _ _ =>
      (invocation_accounts (h.later (by omega))).mono fun _ _ _ _ => trivial).mono
      fun _ _ _ _ => trivial)
    fun _ => .done

theorem nextPart?_accounts : Accounts w due i (nextPart? inner) (nextPart? inner') (Onward i) :=
  .eatIf nofun (fun _ => .pure .last) fun _ =>
    .map <| (contractPart_accounts h).finish.mono fun _ _ _ hj => .more hj

theorem contractBody_accounts :
    Accounts w due i (contractBody inner) (contractBody inner') fun _ j => i < j :=
  .position <| .bind (.eatToken nofun) fun _ _ _ _ =>
    contractKind_accounts.bind fun _ _ _ _ => .expectIdent fun _ =>
    (bases_accounts (h.later (by omega))).bind fun _ _ _ _ => .expect nofun fun _ =>
    .bind (.collect fun _ _ => nextPart?_accounts (h.later (by omega))) fun _ _ _ _ =>
    .extentFrom <| .pure (by omega)

theorem contract_accounts :
    (contract inner).Accounts w true i (contract inner') fun _ j => i < j := by
  rw [contract_eq, contract_eq]
  exact .oneOf (.within (.ofParser (contractBody_accounts h)))

/-! ### Units

A unit is one of its rules, as a member is.
-/

theorem fileConstant_accounts :
    (fileConstant inner).Accounts w true i (fileConstant inner') fun _ j => i < j :=
  .attempt <| .ofParser <| .position <|
    (h.speculative.typeName (by omega)).finish.bind fun _ _ _ _ =>
    .expect nofun fun _ => .expectIdent fun _ => .expect nofun fun _ =>
    (h.speculative.expression (by omega)).bind fun _ _ _ _ => .expect nofun fun _ =>
    .extentFrom <| .pure (by omega)

theorem sourceUnit_accounts :
    (sourceUnit inner).Accounts w true i (sourceUnit inner') fun _ j => i < j :=
  .named <| .orElse pragmaDirective_accounts <|
    .orElse (.map importDirective_accounts) <|
    .orElse (.map (contract_accounts h)) <|
    .orElse (.map (freeFunction_accounts h)) <|
    .orElse (.map (structDefinition_accounts h)) <|
    .orElse (.map enumDefinition_accounts) <|
    .orElse (.map (eventDefinition_accounts h)) <|
    .orElse (.map (errorDefinition_accounts h)) <|
    .orElse (.map (usingDirective_accounts h)) <|
    .orElse (.map valueTypeDefinition_accounts) <|
    .orElse (.map (fileConstant_accounts h)) .none

/-! ### Whole inputs -/

theorem units_accounts : Accounts w due i (units inner) (units inner') fun _ _ => True :=
  (Accounts.collect fun _ _ => .check (fun _ => .pure .last) fun _ =>
    .map <| (sourceUnit_accounts (h.later (by omega))).finish.mono fun _ _ _ hj => .more hj).mono
    fun _ _ _ _ => trivial

theorem wholeExpression_accounts :
    Accounts w due i (wholeExpression inner) (wholeExpression inner') fun _ _ => True :=
  (h.expression (by omega)).bind fun _ _ _ _ => .expectEnd fun _ => .done

theorem wholeStatement_accounts :
    Accounts w due i (wholeStatement inner) (wholeStatement inner') fun _ _ => True :=
  (h.statement (by omega)).finish.bind fun _ _ _ _ => .expectEnd fun _ => .done

end

end SolidityParser.Grammar

namespace SolidityParser.Inner

variable {w : Alike} {base base' : Inner}

open Grammar

/-! ### Levels of nesting -/

/-- The rules for input nested at most `depth` levels deep; `base` is for what is nested deeper. -/
def above (base : Inner) : Nat → Inner
  | 0 => base
  | depth + 1 => {
      expression := Grammar.expression (above base depth)
      assignment := Grammar.assignment (above base depth)
      power := Grammar.power (above base depth)
      unary := Grammar.unary (above base depth)
      typeName := Grammar.typeName (above base depth)
      statement := Grammar.statement (above base depth) }

/-- What is nested more deeply than the levels go fails. -/
theorem upTo_eq_above (depth : Nat) : upTo depth = exhausted.above depth := by
  induction depth with
  | zero => rfl
  | succ depth ih =>
    unfold upTo above
    rw [ih]

/-- The levels of nesting that an input can reach have accounts, whatever is below them. -/
theorem accounts_above : (depth depth' : Nat) → ∀ {w : Alike} {n : Nat},
    w.first.lexemes.size < n + depth → w.second.lexemes.size < n + depth' →
      Accounts w n (base.above depth) (base'.above depth')
  | 0, _, _, _, hfirst, _ => fun w' i hw hi => by
    have hsize : w'.first.lexemes.size < i := by
      rw [hw.first]
      omega
    exact ⟨.outside hsize, .outside hsize, .outside hsize, .outside hsize, .outside hsize,
      .outside hsize⟩
  | depth + 1, depth', w, n, hfirst, hsecond => fun w' i hw hi => by
    have level (depth' : Nat) (hsecond : w.second.lexemes.size < n + (depth' + 1)) :
        Account w' i (base.above (depth + 1)) (base'.above (depth' + 1)) := by
      have h : Accounts w' (i + 1) (base.above depth) (base'.above depth') :=
        accounts_above depth depth' (by rw [hw.first]; omega) (by rw [hw.second]; omega)
      exact ⟨expression_accounts h, assignment_accounts h, power_accounts h, unary_accounts h,
        typeName_accounts h, statement_accounts h⟩
    cases depth' with
    | succ depth' => exact level depth' hsecond
    | zero =>
      have hsize : w'.second.lexemes.size < i := by
        rw [hw.second]
        omega
      obtain ⟨hexpression, hassignment, hpower, hunary, htypeName, hstatement⟩ :=
        level 0 (by omega)
      exact ⟨hexpression.beyond hsize, hassignment.beyond hsize, hpower.beyond hsize,
        hunary.beyond hsize, htypeName.beyond hsize, hstatement.beyond hsize⟩

/-- The levels of nesting that an input can reach have accounts. -/
theorem accounts_upTo (depth depth' : Nat) {n : Nat} (hfirst : w.first.lexemes.size < n + depth)
    (hsecond : w.second.lexemes.size < n + depth') : Accounts w n (upTo depth) (upTo depth') := by
  rw [upTo_eq_above, upTo_eq_above]
  exact accounts_above depth depth' hfirst hsecond

/-- Each input has the levels that it can reach. -/
theorem accounts_ofLexemes (w : Alike) :
    Accounts w 0 (ofLexemes w.first.lexemes) (ofLexemes w.second.lexemes) :=
  accounts_upTo _ _ (by omega) (by omega)

end SolidityParser.Inner
