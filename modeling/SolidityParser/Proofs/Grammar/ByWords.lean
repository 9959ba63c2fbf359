import SolidityParser.Grammar.Entry
import SolidityParser.Proofs.Parser.ByWords

/-!
# Types and expressions are read by words alone

Of what may be nested in a construct only statements ask how words are read, since only blocks skip
what is broken. So the rules for types and expressions, declarations and expression statements among
them, run alike in every scope with the same words (`declarationStatement_byWords`,
`expressionStatement_byWords`).
-/

namespace SolidityParser

/-- The rules for nested types and expressions depend on words alone. -/
structure Inner.ByWords (inner : Inner) : Prop where
  /-- An expression does. -/
  expression : inner.expression.ByWords
  /-- An assignment does. -/
  assignment : inner.assignment.ByWords
  /-- A power does. -/
  power : inner.power.ByWords
  /-- An operand does. -/
  unary : inner.unary.ByWords
  /-- A type does. -/
  typeName : inner.typeName.ByWords

namespace Grammar

open SolidityParser.Parser (ByWords)

variable {inner : Inner}

/-! ### Types

A rule depends on words alone if the rules that are nested in it do: it is built from steps that do,
and each proof says how.
-/

theorem visibility?_byWords : ByWords visibility? :=
  .bind .kind fun _ => .ite (.bind .advance fun _ => .pure) .pure

theorem mutability?_byWords : ByWords mutability? :=
  .bind .kind fun _ => .ite (.bind .advance fun _ => .pure) .pure

theorem location?_byWords : ByWords location? :=
  .bind .eat fun _ => .ite .pure <| .bind .eat fun _ => .ite .pure <|
    .bind .eat fun _ => .ite .pure .pure

theorem payableAfter_byWords {name : String} : ByWords (payableAfter name) := .ite .eat .pure

section Parameters

variable {typeName : Rule (TypeName Extent)} (ht : typeName.ByWords)

include ht

theorem parameter_byWords {allowIndexed : Bool} : ByWords (parameter typeName allowIndexed) :=
  .named <| .bind .position fun _ => .bind (.finish ht) fun _ => .bind location?_byWords fun _ =>
    have hrest (_ : Bool) := ByWords.bind .eatIdent fun _ => .bind .extentFrom fun _ => .pure
    .ite (.bind .eat hrest) (.bind .pure hrest)

theorem parameters_byWords {allowIndexed : Bool} : ByWords (parameters typeName allowIndexed) :=
  .bind .expect fun _ => .within (.series (parameter_byWords ht))

theorem returns?_byWords : ByWords (returns? typeName) :=
  .bind .eat fun _ => .ite (.bind (parameters_byWords ht) fun _ => .pure) .pure

end Parameters

theorem pathTail_byWords {path : String} : ByWords (pathTail path) :=
  .iterate fun _ => .bind .kind fun _ => .bind .kindAhead fun _ => .ite
    (.bind .advance fun _ => .bind .text fun _ => .bind .advance fun _ => .pure) .pure

theorem namedType_byWords : namedType.ByWords :=
  .opening <| .taking fun _ _ => .ite
    (.bind payableAfter_byWords fun _ => .bind .extentFrom fun _ => .pure)
    (.bind pathTail_byWords fun _ => .bind .extentFrom fun _ => .pure)

theorem functionTypeAttributes_byWords : ByWords functionTypeAttributes :=
  .iterate fun (_, _) => .bind visibility?_byWords fun
    | some _ => .pure
    | none => .bind mutability?_byWords fun
      | some _ => .pure
      | none => .pure

section

variable (hi : inner.ByWords)

include hi

theorem mappingType_byWords : (mappingType inner).ByWords :=
  .opening <| .taking fun _ _ => .bind .expect fun _ =>
    .bind (.finish hi.typeName) fun _ => .bind .eatIdent fun _ => .bind .expect fun _ =>
    .bind (.finish hi.typeName) fun _ => .bind .eatIdent fun _ => .bind .expect fun _ =>
    .bind .extentFrom fun _ => .pure

theorem functionType_byWords : (functionType inner).ByWords :=
  .opening <| .taking fun _ _ =>
    .bind (parameters_byWords hi.typeName) fun _ => .bind functionTypeAttributes_byWords fun _ =>
    .bind (returns?_byWords hi.typeName) fun _ => .bind .extentFrom fun _ => .pure

theorem nextArray?_byWords {start : Nat} {base : TypeName Extent} :
    ByWords (nextArray? inner start base) :=
  .bind .kind fun _ => .ite
    (.bind .advance fun _ => .bind .eat fun _ => .ite (.bind .extentFrom fun _ => .pure) <|
      .bind hi.expression fun _ => .bind .expect fun _ => .bind .extentFrom fun _ => .pure)
    .pure

theorem typeName_byWords : (typeName inner).ByWords :=
  .named <| .followedBy
    (.orElse namedType_byWords <| .orElse (mappingType_byWords hi) <|
      .orElse (functionType_byWords hi) .none) fun _ _ =>
    .decided <| .iterate fun _ => nextArray?_byWords hi

/-! ### Operands

Operands are told apart by the next token. A string looks at each token that is one.
-/

omit hi in
theorem identifier_byWords : ByWords identifier :=
  .bind .position fun _ => .bind .text fun _ => .bind .advance fun _ => .pure

omit hi in
theorem numberUnit?_byWords : ByWords numberUnit? :=
  .bind .text fun _ => .bind .kind fun _ => .ite (.bind .advance fun _ => .pure) .pure

omit hi in
theorem number_byWords : ByWords number :=
  .bind .position fun _ => .bind .text fun _ => .bind .advance fun _ =>
    .bind numberUnit?_byWords fun _ => .bind .extentFrom fun _ => .pure

omit hi in
theorem string_byWords : ByWords string :=
  .bind .position fun _ => .bind .text fun _ => .bind .advance fun _ =>
    .bind (.iterate fun _ => .bind .kind fun _ => .ite
      (.bind .text fun _ => .bind .advance fun _ => .pure) .pure) fun _ =>
    .bind .extentFrom fun _ => .pure

omit hi in
theorem boolean_byWords {value : Bool} : ByWords (boolean value) :=
  .bind .position fun _ => .bind .advance fun _ => .pure

theorem component_byWords {isArray : Bool} : ByWords (component inner isArray) :=
  .bind .kind fun _ => .ite .pure <| .bind hi.expression fun _ => .pure

theorem tuple_byWords {isArray : Bool} : ByWords (tuple inner isArray) :=
  .bind .position fun _ => .bind .advance fun _ => .bind (.series (component_byWords hi)) fun _ =>
    .bind .extentFrom fun _ => .pure

theorem newExpression_byWords : ByWords (newExpression inner) :=
  .bind .position fun _ => .bind .advance fun _ => .bind (.within (.finish hi.typeName)) fun _ =>
    .bind .extentFrom fun _ => .pure

theorem operand_byWords : ByWords (operand inner) := by
  refine .bind .kind fun k => ?_
  split
  case h_1 => exact identifier_byWords
  case h_2 | h_3 => exact number_byWords
  case h_4 | h_5 | h_6 => exact string_byWords
  case h_7 | h_8 => exact boolean_byWords
  case h_9 | h_10 => exact tuple_byWords hi
  case h_11 => exact newExpression_byWords hi
  case h_12 =>
    exact .bind .kindAhead fun _ => .ite identifier_byWords <|
      .bind .reportRule fun _ => .within .fail

/-! ### What follows an operand

Here a rule looks up to three tokens ahead, all of which are words.
-/

theorem namedArguments_byWords : ByWords (namedArguments inner) :=
  .series <| .bind .expectIdent fun _ => .bind .expect fun _ => .bind hi.expression fun _ => .pure

omit hi in
theorem member_byWords {object : Expression Extent} : ByWords (member object) :=
  .bind .advance fun _ => .bind .expectIdent fun _ => .pure

theorem bound?_byWords {close : Kind} : ByWords (bound? inner close) :=
  .bind .kind fun _ => .ite .pure <| .bind hi.expression fun _ => .pure

theorem subscript_byWords {object : Expression Extent} : ByWords (subscript inner object) :=
  .bind .advance fun _ => .bind .eat fun _ => .ite (.bind .extentFrom fun _ => .pure) <|
    .bind (bound?_byWords hi) fun _ => .bind .eat fun _ => .ite
      (.bind (bound?_byWords hi) fun _ => .bind .expect fun _ => .bind .extentFrom fun _ => .pure)
      (.bind .expect fun _ => .bind .extentFrom fun _ => .pure)

theorem arguments_byWords : ByWords (arguments inner) :=
  .bind .kind fun _ => .ite
    (.bind .advance fun _ => .bind (namedArguments_byWords hi) fun _ =>
      .bind .expect fun _ => .pure)
    (.bind (.within (.series hi.expression)) fun _ => .pure)

theorem call_byWords {callee : Expression Extent} : ByWords (call inner callee) :=
  .bind .advance fun _ => .bind (arguments_byWords hi) fun _ => .bind .extentFrom fun _ => .pure

theorem callOptions_byWords {callee : Expression Extent} : ByWords (callOptions inner callee) :=
  .bind .advance fun _ => .bind (namedArguments_byWords hi) fun _ =>
    .bind .extentFrom fun _ => .pure

omit hi in
theorem trailingOperator_byWords {operator : UnaryOp} {argument : Expression Extent} :
    ByWords (trailingOperator operator argument) :=
  .bind .advance fun _ => .bind .extentFrom fun _ => .pure

theorem suffix?_byWords {object : Expression Extent} : ByWords (suffix? inner object) := by
  refine .bind .kind fun k => ?_
  split
  · exact .bind member_byWords fun _ => .pure
  · exact .bind (subscript_byWords hi) fun _ => .pure
  · exact .bind (call_byWords hi) fun _ => .pure
  · exact .bind .kindAhead fun _ => .bind .kindAhead fun _ => .ite
      (.bind (callOptions_byWords hi) fun _ => .pure) .pure
  · split
    · exact .bind trailingOperator_byWords fun _ => .pure
    · exact .pure

theorem postfixed_byWords : ByWords (postfixed inner) :=
  .bind (operand_byWords hi) fun _ => .iterate fun _ => suffix?_byWords hi

/-! ### Operators

The operators of a level are looked up by their kind.
-/

theorem unary_byWords : ByWords (unary inner) := by
  refine .bind .kind fun k => ?_
  split
  · exact postfixed_byWords hi
  · exact .bind .position fun _ => .bind .advance fun _ => .bind hi.unary fun _ => .pure

theorem power_byWords : ByWords (power inner) :=
  .bind (unary_byWords hi) fun _ => .bind .kind fun _ => .ite
    (.bind .advance fun _ => .bind hi.power fun _ => .pure) .pure

theorem binary_byWords (level : Nat) : ByWords (binary inner level) := by
  induction level with
  | zero => exact power_byWords hi
  | succ level ih =>
    refine .bind ih fun _ => .iterate fun _ => .bind .kind fun k => ?_
    split
    · exact .pure
    · exact .bind .advance fun _ => .bind ih fun _ => .pure

theorem conditional_byWords : ByWords (conditional inner) :=
  .bind (binary_byWords hi _) fun _ => .bind .kind fun _ => .ite
    (.bind .advance fun _ => .bind hi.assignment fun _ => .bind .expect fun _ =>
      .bind hi.assignment fun _ => .pure)
    .pure

theorem assignment_byWords : ByWords (assignment inner) := by
  refine .bind (conditional_byWords hi) fun _ => .bind .kind fun k => ?_
  split
  · exact .pure
  · exact .bind .advance fun _ => .bind hi.assignment fun _ => .pure

theorem expression_byWords : ByWords (expression inner) := .named (assignment_byWords hi)

/-! ### Statements without a block

A declaration or an expression depends on words alone. Blocks do not: whether statements are skipped
depends on the tolerance of the scope.
-/

theorem variableDeclaration_byWords : ByWords (variableDeclaration inner) :=
  .bind .position fun _ => .bind (.finish (typeName_byWords hi)) fun _ =>
    .bind location?_byWords fun _ => .bind .expectIdent fun _ => .bind .extentFrom fun _ => .pure

theorem variableSlot_byWords : ByWords (variableSlot inner) :=
  .bind .kind fun _ => .ite .pure <| .bind (variableDeclaration_byWords hi) fun _ => .pure

theorem declarationStatement_byWords : ByWords (declarationStatement inner) :=
  have hend (start : Nat) (slots : List (Option (VariableDeclaration Extent)))
      (value : Option (Expression Extent)) :=
    ByWords.bind .expect fun _ => .bind (show ByWords (Parser.extentFrom start) from .extentFrom)
      fun place => .pure (v := (Statement.declaration place slots value : Statement .parsed))
  .bind .position fun start => .bind .eat fun _ => .ite
    (.bind (.separated (variableSlot_byWords hi)) fun slots => .bind .expect fun _ =>
      .bind .expect fun _ => .bind (expression_byWords hi) fun value => hend start slots value) <|
    .bind (variableDeclaration_byWords hi) fun declared => .bind .eat fun _ => .ite
      (.bind (.map (expression_byWords hi)) fun value => hend start [some declared] value)
      (.bind .pure fun value => hend start [some declared] value)

theorem expressionStatement_byWords : ByWords (expressionStatement inner) :=
  .bind .position fun _ => .bind (expression_byWords hi) fun _ => .bind .expect fun _ =>
    .bind .extentFrom fun _ => .pure

end

end Grammar

/-- The rules for nested types and expressions depend on words alone. -/
theorem Inner.byWords_upTo : (depth : Nat) → (Inner.upTo depth).ByWords
  | 0 => ⟨.fail, .fail, .fail, .fail, .none⟩
  | depth + 1 =>
    have hi := byWords_upTo depth
    ⟨Grammar.expression_byWords hi, Grammar.assignment_byWords hi, Grammar.power_byWords hi,
      Grammar.unary_byWords hi, Grammar.typeName_byWords hi⟩

end SolidityParser
