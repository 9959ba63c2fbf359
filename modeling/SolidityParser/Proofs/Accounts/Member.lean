import SolidityParser.Proofs.Accounts.Statement

/-!
# Members of contracts account for what they read

Accounts of the rules of `Grammar/Member`. What is nested in a member is read after its first
token, or after no token: the type of a state variable is the first thing of it.
-/

namespace SolidityParser.Grammar

open SolidityParser.Parser (Accounts Onward)

variable {α : Type} {w : Alike} {due : Bool} {i : Nat} {inner inner' : Inner}

/-! ### Rules that a keyword decides -/

theorem keywordRule_accounts {keyword : Kind} {construct : Construct} {p q : Parser α}
    {post : α → Nat → Prop}
    (h : w.first.lexemes.kindAt i = keyword → Accounts w false i p q post) :
    (keywordRule keyword construct p).Accounts w true i (keywordRule keyword construct q) post :=
  .within <| .opening fun hi => .ofParser (h hi)

theorem wordRule_accounts {word : String} {next : Kind} {construct : Construct} {p q : Parser α}
    {post : α → Nat → Prop}
    (h : w.first.lexemes.kindAt i = .ident → Accounts w false i p q post) :
    (wordRule word next construct p).Accounts w false i (wordRule word next construct q) post :=
  .provided (fun hi => by rw [w.isWordAt (by omega), w.kindAt _ (by omega)]) fun hi =>
    .within (.ofParser (h (Lexemes.shows_word hi).1))

/-! ### Paths, arguments and attributes

A path is past its first name. Arguments and attributes may be none, so that of these nothing more
is known than where they begin.
-/

theorem namePath_accounts : Accounts w due i namePath namePath fun _ j => i < j :=
  .expectIdent fun _ => .bind
    (.iterate fun _ _ _ => .kindIf
      (fun hj => .take hj nofun <| .expectIdent fun _ => .pure (.more (by omega)))
      fun _ => .pure .last)
    fun _ _ _ _ => .extentFrom <| .pure (by omega)

theorem overrideList_accounts :
    Accounts w due i overrideList overrideList fun _ _ => True :=
  .eatIf nofun
    (fun _ => (Accounts.series (by simp) fun _ _ =>
      namePath_accounts.mono fun _ _ _ _ => trivial).mono fun _ _ _ _ => trivial)
    fun _ => .done

theorem eatWord_accounts {word : String} :
    Accounts w due i (Parser.eatWord word) (Parser.eatWord word) fun _ _ => True :=
  .isWord <| .ite
    (fun hi => .take (Lexemes.kindAt_of_isWordAt hi) nofun .done) fun _ => .done

section

variable (h : Inner.Accounts w i inner inner')

include h

theorem arguments?_accounts :
    Accounts w due i (arguments? inner) (arguments? inner') fun _ _ => True :=
  .eatIf nofun
    (fun _ => .map <| .within <| (Accounts.series (by simp) fun _ _ =>
      (h.expression (by omega)).mono fun _ _ _ _ => trivial).mono fun _ _ _ _ => trivial)
    fun _ => .done

theorem invocation_accounts :
    Accounts w due i (invocation inner) (invocation inner') fun _ j => i < j :=
  namePath_accounts.bind fun _ _ _ _ => (arguments?_accounts (h.later (by omega))).bind
    fun _ _ _ _ => .extentFrom <| .pure (by omega)

theorem functionAttribute?_accounts {attributes : FunctionAttributes Extent} :
    Accounts w due i (functionAttribute? inner attributes) (functionAttribute? inner' attributes)
      (Onward i) := by
  refine visibility?_accounts.bind fun visibility j _ hj => ?_
  cases visibility with
  | some visibility => exact .pure (.more (hj rfl))
  | none => ?_
  refine mutability?_accounts.bind fun mutability k _ hk => ?_
  cases mutability with
  | some mutability => exact .pure (.more (by have := hk rfl; omega))
  | none => ?_
  exact .eatIf nofun (fun _ => .pure (.more (by omega))) fun _ =>
    .eatIf nofun
      (fun _ => overrideList_accounts.bind fun _ _ _ _ => .pure (.more (by omega))) fun _ =>
    .kindIf
      (fun _ => (invocation_accounts (h.later (by omega))).bind fun _ _ _ _ =>
        .pure (.more (by omega)))
      fun _ => .pure .last

theorem functionAttributes_accounts :
    Accounts w due i (functionAttributes inner) (functionAttributes inner') fun _ j => i ≤ j :=
  .iterate fun _ _ _ => functionAttribute?_accounts (h.later (by omega))

/-! ### Functions

What comes after the name of a function is read up to its body, which is read with the inputs as
they are in bodies. A function is past its keyword.
-/

theorem functionBody_accounts :
    Accounts w due i (functionBody inner) (functionBody inner') fun _ j => i < j :=
  .inBody <| block_accounts (h.inBody.later (by omega))

theorem bodyOrSemicolon_accounts :
    Accounts w due i (bodyOrSemicolon inner) (bodyOrSemicolon inner') fun _ _ => True :=
  .eatIf nofun (fun _ => .done) fun _ =>
    .map <| (functionBody_accounts h).mono fun _ _ _ _ => trivial

theorem functionRest_accounts {start : Nat} {name : String} :
    Accounts w due i (functionRest inner start name) (functionRest inner' start name)
      fun _ _ => True :=
  (parameters_accounts fun _ _ => h.typeName (by omega)).bind fun _ _ _ _ =>
    (functionAttributes_accounts (h.later (by omega))).bind fun _ _ _ _ =>
    (returns?_accounts fun _ _ => h.typeName (by omega)).bind fun _ _ _ _ =>
    (bodyOrSemicolon_accounts (h.later (by omega))).bind fun _ _ _ _ => .extentFrom .done

theorem fallbackRest_accounts {start : Nat} :
    Accounts w due i (fallbackRest inner start) (fallbackRest inner' start) fun _ _ => True :=
  (parameters_accounts fun _ _ => h.typeName (by omega)).bind fun _ _ _ _ =>
    (functionAttributes_accounts (h.later (by omega))).bind fun _ _ _ _ =>
    (returns?_accounts fun _ _ => h.typeName (by omega)).bind fun _ _ _ _ =>
    (bodyOrSemicolon_accounts (h.later (by omega))).bind fun _ _ _ _ => .extentFrom .done

theorem contractFunction_accounts :
    (contractFunction inner).Accounts w true i (contractFunction inner') fun _ j => i < j :=
  keywordRule_accounts fun hi => .position <| .take hi nofun <| .kindIf
    (fun _ => (fallbackRest_accounts (h.later (by omega))).bind fun _ _ _ _ => .pure (by omega))
    fun _ => .expectIdent fun _ => (functionRest_accounts (h.later (by omega))).bind fun _ _ _ _ =>
      .pure (by omega)

theorem freeFunction_accounts :
    (freeFunction inner).Accounts w true i (freeFunction inner') fun _ j => i < j :=
  keywordRule_accounts fun hi => .position <| .take hi nofun <|
    .expectIdent fun _ => (functionRest_accounts (h.later (by omega))).mono fun _ _ _ _ => by omega

theorem constructorFunction_accounts :
    (constructorFunction inner).Accounts w true i (constructorFunction inner') fun _ j => i < j :=
  keywordRule_accounts fun hi => .position <| .take hi nofun <|
    (parameters_accounts fun _ _ => h.typeName (by omega)).bind fun _ _ _ _ =>
    (functionAttributes_accounts (h.later (by omega))).bind fun _ _ _ _ =>
    (functionBody_accounts (h.later (by omega))).bind fun _ _ _ _ => .extentFrom <| .pure (by omega)

theorem receiveFunction_accounts :
    (receiveFunction inner).Accounts w false i (receiveFunction inner') fun _ j => i < j :=
  wordRule_accounts fun hi => .position <| .take hi nofun <|
    .expect nofun fun _ => .expect nofun fun _ =>
    (functionAttributes_accounts (h.later (by omega))).bind fun _ _ _ _ =>
    (bodyOrSemicolon_accounts (h.later (by omega))).bind fun _ _ _ _ =>
    .extentFrom <| .pure (by omega)

theorem fallbackFunction_accounts :
    (fallbackFunction inner).Accounts w false i (fallbackFunction inner') fun _ j => i < j :=
  wordRule_accounts fun hi => .position <| .take hi nofun <|
    (fallbackRest_accounts (h.later (by omega))).mono fun _ _ _ _ => by omega

omit h in
theorem modifierAttributes_accounts :
    Accounts w due i modifierAttributes modifierAttributes fun _ j => i ≤ j :=
  .iterate fun (_, _) _ _ => .eatIf nofun (fun _ => .pure (.more (by omega))) fun _ =>
    .eatIf nofun
      (fun _ => overrideList_accounts.bind fun _ _ _ _ => .pure (.more (by omega)))
      fun _ => .pure .last

theorem modifierDeclaration_accounts :
    (modifierDeclaration inner).Accounts w true i (modifierDeclaration inner') fun _ j => i < j :=
  keywordRule_accounts fun hi => .position <| .take hi nofun <|
    .expectIdent fun _ => (parametersIfOpen_accounts (h.later (by omega))).bind fun _ _ _ _ =>
    modifierAttributes_accounts.bind fun (_, _) _ _ _ =>
    (bodyOrSemicolon_accounts (h.later (by omega))).bind fun _ _ _ _ =>
    .extentFrom <| .pure (by omega)

/-! ### Other declarations

Each of these is decided by its first token, or by a word and the token after it.
-/

theorem eventDefinition_accounts :
    (eventDefinition inner).Accounts w true i (eventDefinition inner') fun _ j => i < j :=
  keywordRule_accounts fun hi => .position <| .take hi nofun <|
    .expectIdent fun _ => (parameters_accounts fun _ _ => h.typeName (by omega)).bind fun _ _ _ _ =>
    eatWord_accounts.bind fun _ _ _ _ => .expect nofun fun _ => .extentFrom <| .pure (by omega)

theorem errorDefinition_accounts :
    (errorDefinition inner).Accounts w false i (errorDefinition inner') fun _ j => i < j :=
  wordRule_accounts fun hi => .position <| .take hi nofun <|
    .expectIdent fun _ => (parameters_accounts fun _ _ => h.typeName (by omega)).bind fun _ _ _ _ =>
    .expect nofun fun _ => .extentFrom <| .pure (by omega)

theorem structMember?_accounts {j : Nat} (hj : i < j) :
    Accounts w due j (structMember? inner) (structMember? inner') (Onward j) :=
  .eatIf nofun (fun _ => .pure .last) fun _ =>
    (variableDeclaration_accounts (h.later (by omega))).bind fun _ _ _ _ =>
    .expect nofun fun _ => .pure (.more (by omega))

theorem structDefinition_accounts :
    (structDefinition inner).Accounts w true i (structDefinition inner') fun _ j => i < j :=
  keywordRule_accounts fun hi => .position <| .take hi nofun <|
    .expectIdent fun _ => .expect nofun fun _ =>
    .bind (.collect fun _ _ => structMember?_accounts h (by omega)) fun _ _ _ _ =>
    .extentFrom <| .pure (by omega)

omit h in
theorem enumDefinition_accounts :
    enumDefinition.Accounts w true i enumDefinition fun _ j => i < j :=
  keywordRule_accounts fun hi => .position <| .take hi nofun <|
    .expectIdent fun _ => .expect nofun fun _ =>
    .bind (.series (by simp) fun _ _ => .expectName) fun _ _ _ _ =>
    .extentFrom <| .pure (by omega)

omit h in
theorem attachedFunctions_accounts :
    Accounts w due i attachedFunctions attachedFunctions fun _ _ => True :=
  .eatIf nofun
    (fun _ => .bind (.series (by simp) fun _ _ => namePath_accounts.mono fun _ _ _ _ => trivial)
      fun _ _ _ _ => .done)
    fun _ => namePath_accounts.bind fun _ _ _ _ => .done

theorem attachedType_accounts :
    Accounts w due i (attachedType inner) (attachedType inner') fun _ _ => True :=
  .eatIf nofun (fun _ => .done) fun _ =>
    .map <| (h.typeName (by omega)).finish.mono fun _ _ _ _ => trivial

theorem usingDirective_accounts :
    (usingDirective inner).Accounts w true i (usingDirective inner') fun _ j => i < j :=
  keywordRule_accounts fun hi => .position <| .take hi nofun <|
    attachedFunctions_accounts.bind fun (_, _) _ _ _ => .expect nofun fun _ =>
    (attachedType_accounts (h.later (by omega))).bind fun _ _ _ _ =>
    eatWord_accounts.bind fun _ _ _ _ => .expect nofun fun _ => .extentFrom <| .pure (by omega)

omit h in
theorem elementaryType_accounts :
    Accounts w due i elementaryType elementaryType fun _ _ => True :=
  .position <| .text <| .kind <| .ite
    (fun hi => .take hi.1 nofun <| payableAfter_accounts.bind fun _ _ _ _ =>
      .extentFrom .done)
    fun _ => .reportRule .fail

omit h in
theorem valueTypeDefinition_accounts :
    valueTypeDefinition.Accounts w false i valueTypeDefinition fun _ j => i < j :=
  .provided (fun hi => by rw [w.kindAt _ (by omega), w.kindAt _ (by omega)]) fun _ =>
    keywordRule_accounts fun hi => .position <| .take hi nofun <|
    .expectIdent fun _ => .expect nofun fun _ =>
    elementaryType_accounts.bind fun (_, _) _ _ _ => .expect nofun fun _ =>
    .extentFrom <| .pure (by omega)

/-! ### State variables -/

omit h in
theorem variableAttribute?_accounts {attributes : VariableAttributes} :
    Accounts w due i (variableAttribute? attributes) (variableAttribute? attributes)
      (Onward i) := by
  refine visibility?_accounts.bind fun visibility j _ hj => ?_
  cases visibility with
  | some visibility => exact .pure (.more (hj rfl))
  | none =>
    exact .eatIf nofun (fun _ => .pure (.more (by omega))) fun _ =>
      .eatIf nofun (fun _ => .pure (.more (by omega))) fun _ =>
      .eatIf nofun
        (fun _ => overrideList_accounts.bind fun _ _ _ _ => .pure (.more (by omega)))
        fun _ => .pure .last

theorem initialValue?_accounts :
    Accounts w due i (initialValue? inner) (initialValue? inner') fun _ _ => True :=
  .eatIf nofun (fun _ => .map <| (h.expression (by omega)).mono fun _ _ _ _ => trivial)
    fun _ => .done

/-- A state variable is attempted, so that what it consumed before a failure is given back. -/
theorem stateVariable_accounts :
    (stateVariable inner).Accounts w true i (stateVariable inner') fun _ j => i < j :=
  .attempt <| .ofParser <| .within <| .position <|
    (h.speculative.typeName (by omega)).finish.bind fun _ _ _ _ =>
    .bind (.iterate fun _ _ _ => variableAttribute?_accounts) fun _ _ _ _ =>
    .expectIdent fun _ => (initialValue?_accounts (h.speculative.later (by omega))).bind
    fun _ _ _ _ => .expect nofun fun _ => .extentFrom <| .pure (by omega)

/-! ### Members

A member is one of its rules, which report under one name. Each of them moves on where it succeeds.
-/

/-- Members account for what they are tried as, one rule after the other. -/
theorem contractPart_accounts :
    (contractPart inner).Accounts w true i (contractPart inner') fun _ j => i < j :=
  .named <| .orElse
    (.provided (fun hi => by rw [w.kindAt _ (by omega), w.kindAt _ (by omega)]) fun _ =>
      .map (stateVariable_accounts h)) <|
    .orElse (contractFunction_accounts h) <|
    .orElse (.map (constructorFunction_accounts h)) <|
    .orElse (.map (receiveFunction_accounts h)) <|
    .orElse (.map (fallbackFunction_accounts h)) <|
    .orElse (.map (modifierDeclaration_accounts h)) <|
    .orElse (.map (eventDefinition_accounts h)) <|
    .orElse (.map (errorDefinition_accounts h)) <|
    .orElse (.map (structDefinition_accounts h)) <|
    .orElse (.map enumDefinition_accounts) <|
    .orElse (.map (usingDirective_accounts h)) <|
    .orElse (.map valueTypeDefinition_accounts) <|
    .orElse (.map (stateVariable_accounts h)) .none

end

end SolidityParser.Grammar
