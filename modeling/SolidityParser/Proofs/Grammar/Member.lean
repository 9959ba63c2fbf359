import SolidityParser.Proofs.Grammar.Statement

/-!
# Members of contracts are built from combinators

Derivations for the rules of `Grammar/Member`. The passages that a member adds to the ledger are
`ContractPart.passages`: those of its body, if it has one.
-/

namespace SolidityParser.Grammar

open SolidityParser.Parser (Built)

/-! ### Rules that a keyword decides -/

section Decided

variable {α : Type} {known : List Kind} {a : Ledger} {construct : Construct} {p : Parser α}
  {b : α → Ledger}

theorem keywordRule_built {keyword : Kind} (h : Built [keyword] a p b) :
    Rule.Built known a (keywordRule keyword construct p) b :=
  .ruleWithin _ (.opening (.ofParser h))

theorem wordRule_built {word : String} {next : Kind} (h : Built [.ident, next] a p b) :
    Rule.Built known a (wordRule word next construct p) b :=
  .provided (fun _ _ => Lexemes.shows_word) (.ruleWithin _ (.ofParser h))

end Decided

variable {known : List Kind} {a : Ledger} {inner : Inner}

/-! ### Paths, arguments and attributes

None of these holds a passage or a brace of its own, so that they leave the ledger as it is.
-/

theorem namePath_built : Built known a namePath fun _ => a :=
  .bind expectIdent_built fun _ => .bind
    (.iterate fun _ => .kindIf (.advance rfl <| .bind expectIdent_built fun _ => .done) .done)
    fun _ => .extentFrom fun _ => .done

theorem overrideList_built : Built known a overrideList fun _ => a :=
  .eatIf rfl (.series rfl namePath_built) .done

theorem eatWord_built {word : String} : Built known a (Parser.eatWord word) fun _ => a :=
  .isWord (.advance rfl .done) .done

section Nested

variable (hi : inner.Built)

include hi

theorem arguments?_built : Built known a (arguments? inner) fun _ => a :=
  .eatIf rfl (.map (.within _ (.series rfl (hi.expression _)))) .done

theorem invocation_built : Built known a (invocation inner) fun _ => a :=
  .bind namePath_built fun _ => .bind (arguments?_built hi) fun _ => .extentFrom fun _ => .done

theorem functionAttributes_built : Built known a (functionAttributes inner) fun _ => a :=
  .iterate fun _ => .bind visibility?_built fun
    | some _ => .done
    | none => .bind mutability?_built fun
      | some _ => .done
      | none => .eatIf rfl .done <|
        .eatIf rfl (.bind overrideList_built fun _ => .done) <|
        .kindIf (.bind (invocation_built hi) fun _ => .done) .done

/-! ### Functions

A function notes the passages of its body, and nothing else.
-/

theorem functionBody_built : Built known a (functionBody inner) fun v => a.note v.passages :=
  .inBody (block_built hi)

theorem bodyOrSemicolon_built :
    Built known a (bodyOrSemicolon inner) fun v => a.note (Block.passagesOption v) :=
  .eatIf rfl (.pure (Ledger.note_nil a)) (.map (functionBody_built hi))

theorem functionRest_built {start : Nat} {name : String} :
    Built known a (functionRest inner start name) fun v =>
      a.note (Block.passagesOption v.body) :=
  .bind (parameters_built hi.typeName) fun _ => .bind (functionAttributes_built hi) fun _ =>
    .bind (returns?_built hi.typeName) fun _ => .bind (bodyOrSemicolon_built hi) fun _ =>
    .extentFrom fun _ => .pure rfl

theorem fallbackRest_built {start : Nat} :
    Built known a (fallbackRest inner start) fun v => a.note (Block.passagesOption v.body) :=
  .bind (parameters_built hi.typeName) fun _ => .bind (functionAttributes_built hi) fun _ =>
    .bind (returns?_built hi.typeName) fun _ => .bind (bodyOrSemicolon_built hi) fun _ =>
    .extentFrom fun _ => .pure rfl

theorem contractFunction_built :
    Rule.Built known a (contractFunction inner) fun v => a.note v.passages :=
  keywordRule_built <| .position fun _ => .advance rfl <| .kindIf
    (.bind (fallbackRest_built hi) fun _ => .pure rfl)
    (.bind expectIdent_built fun _ => .bind (functionRest_built hi) fun _ => .pure rfl)

theorem freeFunction_built :
    Rule.Built known a (freeFunction inner) fun v => a.note (Block.passagesOption v.body) :=
  keywordRule_built <| .position fun _ => .advance rfl <| .bind expectIdent_built fun _ =>
    functionRest_built hi

theorem constructorFunction_built :
    Rule.Built known a (constructorFunction inner) fun v => a.note v.body.passages :=
  keywordRule_built <| .position fun _ => .advance rfl <|
    .bind (parameters_built hi.typeName) fun _ => .bind (functionAttributes_built hi) fun _ =>
    .bind (functionBody_built hi) fun _ => .extentFrom fun _ => .pure rfl

theorem receiveFunction_built :
    Rule.Built known a (receiveFunction inner) fun v => a.note (Block.passagesOption v.body) :=
  wordRule_built <| .position fun _ => .advance rfl <| .bind (.expect rfl) fun _ =>
    .bind (.expect rfl) fun _ => .bind (functionAttributes_built hi) fun _ =>
    .bind (bodyOrSemicolon_built hi) fun _ => .extentFrom fun _ => .pure rfl

theorem fallbackFunction_built :
    Rule.Built known a (fallbackFunction inner) fun v => a.note (Block.passagesOption v.body) :=
  wordRule_built <| .position fun _ => .advance rfl <| fallbackRest_built hi

omit hi in
theorem modifierAttributes_built : Built known a modifierAttributes fun _ => a :=
  .iterate fun (_, _) => .eatIf rfl .done <|
    .eatIf rfl (.bind overrideList_built fun _ => .done) .done

theorem modifierDeclaration_built :
    Rule.Built known a (modifierDeclaration inner) fun v =>
      a.note (Block.passagesOption v.body) :=
  keywordRule_built <| .position fun _ => .advance rfl <| .bind expectIdent_built fun _ =>
    .bind (parametersIfOpen_built hi) fun _ => .bind modifierAttributes_built fun (_, _) =>
    .bind (bodyOrSemicolon_built hi) fun _ => .extentFrom fun _ => .pure rfl

/-! ### Other declarations

These have no bodies. What they open they close.
-/

theorem eventDefinition_built : Rule.Built known a (eventDefinition inner) fun _ => a :=
  keywordRule_built <| .position fun _ => .advance rfl <| .bind expectIdent_built fun _ =>
    .bind (parameters_built hi.typeName) fun _ => .bind eatWord_built fun _ =>
    .bind (.expect rfl) fun _ => .extentFrom fun _ => .done

theorem errorDefinition_built : Rule.Built known a (errorDefinition inner) fun _ => a :=
  wordRule_built <| .position fun _ => .advance rfl <| .bind expectIdent_built fun _ =>
    .bind (parameters_built hi.typeName) fun _ => .bind (.expect rfl) fun _ =>
    .extentFrom fun _ => .done

/-- A struct's members leave nothing unread; the loop over them ends with the closing brace. -/
theorem structMembers_built :
    Built known (a.owe .rbrace) (Parser.collect (structMember? inner)) fun _ => a := by
  have loop : Built known (a.owe .rbrace) (Parser.collect (structMember? inner)) fun vs =>
      a.note (vs.flatMap fun _ => []) := by
    refine .collect (fun _ => []) fun ps => .eatIf rfl (.pure rfl) <|
      .bind (variableDeclaration_built hi) fun _ => .bind (.expect rfl) fun _ => .pure ?_
    rw [Ledger.round, List.append_nil]
  exact loop.congr fun vs => by
    rw [List.flatMap_eq_nil_iff.mpr fun _ _ => rfl, Ledger.note_nil]

theorem structDefinition_built : Rule.Built known a (structDefinition inner) fun _ => a :=
  keywordRule_built <| .position fun _ => .advance rfl <| .bind expectIdent_built fun _ =>
    .bind (.expect rfl) fun _ => .bind (structMembers_built hi) fun _ => .extentFrom fun _ => .done

omit hi in
theorem enumDefinition_built : Rule.Built known a enumDefinition fun _ => a :=
  keywordRule_built <| .position fun _ => .advance rfl <| .bind expectIdent_built fun _ =>
    .bind (.expect rfl) fun _ => .bind (.series rfl expectIdent_built) fun _ =>
    .extentFrom fun _ => .done

omit hi in
theorem attachedFunctions_built : Built known a attachedFunctions fun _ => a :=
  .eatIf rfl (.bind (.series rfl namePath_built) fun _ => .done) <|
    .bind namePath_built fun _ => .done

theorem attachedType_built : Built known a (attachedType inner) fun _ => a :=
  .eatIf rfl .done (.map (.finish (hi.typeName a)))

theorem usingDirective_built : Rule.Built known a (usingDirective inner) fun _ => a :=
  keywordRule_built <| .position fun _ => .advance rfl <|
    .bind attachedFunctions_built fun (_, _) => .bind (.expect rfl) fun _ =>
    .bind (attachedType_built hi) fun _ => .bind eatWord_built fun _ => .bind (.expect rfl) fun _ =>
    .extentFrom fun _ => .done

omit hi in
theorem elementaryType_built : Built known a elementaryType fun _ => a := by
  refine .position fun _ => .text fun _ => .kind fun k => .ite ?_ fun _ => .reportRule .fail
  rintro ⟨rfl, _⟩
  exact .advance rfl <| .bind payableAfter_built fun _ => .extentFrom fun _ => .done

omit hi in
theorem valueTypeDefinition_built : Rule.Built known a valueTypeDefinition fun _ => a :=
  .tried <| keywordRule_built <| .position fun _ =>
    .advance rfl <| .bind expectIdent_built fun _ => .bind (.expect rfl) fun _ =>
    .bind elementaryType_built fun (_, _) => .bind (.expect rfl) fun _ =>
    .extentFrom fun _ => .done

/-! ### State variables -/

omit hi in
theorem variableAttribute?_built {attributes : VariableAttributes} :
    Built known a (variableAttribute? attributes) fun _ => a :=
  .bind visibility?_built fun
    | some _ => .done
    | none => .eatIf rfl .done <| .eatIf rfl .done <|
      .eatIf rfl (.bind overrideList_built fun _ => .done) .done

theorem initialValue?_built : Built known a (initialValue? inner) fun _ => a :=
  .eatIf rfl (.map (hi.expression a)) .done

theorem stateVariable_built : Rule.Built known a (stateVariable inner) fun _ => a :=
  .attempt <| .ofParser <| .within _ <| .position fun _ =>
    .bind (.weaken (.finish (hi.typeName a))) fun _ =>
    .bind (.iterate fun _ => variableAttribute?_built) fun _ => .bind expectIdent_built fun _ =>
    .bind (initialValue?_built hi) fun _ => .bind (.expect rfl) fun _ =>
    .extentFrom fun _ => .done

/-! ### Members

A member notes what is passed over in it.
-/

theorem contractPart_built : Rule.Built [] a (contractPart inner) fun v => a.note v.passages :=
  .ruleNamed _ <|
    .orElse (.tried <| .ruleMap <|
      .congr (stateVariable_built hi) fun _ => (Ledger.note_nil a).symm) <|
    .orElse (contractFunction_built hi) <|
    .orElse (.ruleMap (constructorFunction_built hi)) <|
    .orElse (.ruleMap (receiveFunction_built hi)) <|
    .orElse (.ruleMap (fallbackFunction_built hi)) <|
    .orElse (.ruleMap (modifierDeclaration_built hi)) <|
    .orElse (.ruleMap (.congr (eventDefinition_built hi) fun _ => (Ledger.note_nil a).symm)) <|
    .orElse (.ruleMap (.congr (errorDefinition_built hi) fun _ => (Ledger.note_nil a).symm)) <|
    .orElse (.ruleMap (.congr (structDefinition_built hi) fun _ => (Ledger.note_nil a).symm)) <|
    .orElse (.ruleMap (.congr enumDefinition_built fun _ => (Ledger.note_nil a).symm)) <|
    .orElse (.ruleMap (.congr (usingDirective_built hi) fun _ => (Ledger.note_nil a).symm)) <|
    .orElse (.ruleMap (.congr valueTypeDefinition_built fun _ => (Ledger.note_nil a).symm)) <|
    .orElse (.ruleMap (.congr (stateVariable_built hi) fun _ => (Ledger.note_nil a).symm)) .none

end Nested

end SolidityParser.Grammar
