import SolidityParser.Proofs.Grammar.TypeName

/-!
# Expressions are built from combinators

Derivations for the rules of `Grammar/Expression`. An expression closes every bracket that it
opens, so none of them leaves the ledger changed.
-/

namespace SolidityParser

/-! ### Operators are no brackets -/

/-- The operators before an operand are no brackets. -/
theorem UnaryOp.isPlain_of_leading? {k : Kind} {operator : UnaryOp}
    (h : UnaryOp.leading? k = some operator) : k.isPlain = true := by
  unfold leading? at h
  split at h <;> first | rfl | cases h

/-- The operators after an operand are no brackets. -/
theorem UnaryOp.isPlain_of_trailing? {k : Kind} {operator : UnaryOp}
    (h : UnaryOp.trailing? k = some operator) : k.isPlain = true := by
  unfold trailing? at h
  split at h <;> first | rfl | cases h

/-- The operators of assignments are no brackets. -/
theorem AssignOp.isPlain_of_ofKind? {k : Kind} {operator : AssignOp}
    (h : AssignOp.ofKind? k = some operator) : k.isPlain = true := by
  unfold ofKind? at h
  split at h <;> first | rfl | cases h

/-- The operators between operands are no brackets. -/
theorem BinaryOp.isPlain_of_ofKind? {k : Kind} {level : Nat} {operator : BinaryOp}
    (h : BinaryOp.ofKind? level k = some operator) : k.isPlain = true := by
  unfold ofKind? at h
  have hk := List.find?_some h
  rw [Bool.and_eq_true, beq_iff_eq] at hk
  rw [← hk.1]
  cases operator <;> rfl

namespace Grammar

open SolidityParser.Parser (Built)

variable {known : List Kind} {a : Ledger} {inner : Inner}

/-! ### Operands

What an operand opens it closes, so that the ledger is left as it was.
-/

theorem identifier_built {k : Kind} (h : a.after? k = some a) :
    Built [k] a identifier fun _ => a :=
  .position fun _ => .text fun _ => .advance h .done

theorem numberUnit?_built : Built known a numberUnit? fun _ => a := by
  refine .text fun _ => .kind fun k => .ite ?_ fun _ => .done
  rintro ⟨rfl, _⟩
  exact .advance rfl .done

theorem number_built {k : Kind} (h : a.after? k = some a) : Built [k] a number fun _ => a :=
  .position fun _ => .text fun _ => .advance h <| .bind numberUnit?_built fun _ =>
    .extentFrom fun _ => .done

/-- Strings are no brackets. -/
theorem isPlain_of_isString {k : Kind} (h : k.isString = true) : k.isPlain = true := by
  unfold Kind.isString at h
  split at h <;> first | rfl | cases h

theorem string_built {k : Kind} (h : a.after? k = some a) : Built [k] a string fun _ => a :=
  .position fun _ => .text fun _ => .advance h <|
    .bind (.iterate fun _ => .kind fun _ => .ite
      (fun hk => .text fun _ => .advance (Ledger.after?_of_isPlain (isPlain_of_isString hk) _)
        .done)
      fun _ => .done) fun _ => .extentFrom fun _ => .done

theorem boolean_built {k : Kind} {value : Bool} (h : a.after? k = some a) :
    Built [k] a (boolean value) fun _ => a :=
  .position fun _ => .advance h .done

section

variable (hi : inner.Built)

include hi

theorem component_built {isArray : Bool} :
    Built known a (component inner isArray) fun _ => a :=
  .kind fun _ => .ite (fun _ => .done) fun _ =>
    .bind (.weaken (hi.expression a)) fun _ => .done

theorem tuple_built (isArray : Bool) :
    Built [if isArray then .lbracket else .lparen] a (tuple inner isArray) fun _ => a := by
  cases isArray <;>
    exact .position fun _ => .advance rfl <| .bind (.series rfl (component_built hi)) fun _ =>
      .extentFrom fun _ => .done

theorem newExpression_built : Built [.kwNew] a (newExpression inner) fun _ => a :=
  .position fun _ => .advance rfl <| .bind (.within _ (.finish (hi.typeName a))) fun _ =>
    .extentFrom fun _ => .done

theorem operand_built : Built [] a (operand inner) fun _ => a := by
  refine .kind fun k => ?_
  split
  · exact identifier_built rfl
  · exact number_built rfl
  · exact number_built rfl
  · exact string_built rfl
  · exact string_built rfl
  · exact string_built rfl
  · exact boolean_built rfl
  · exact boolean_built rfl
  · exact tuple_built hi false
  · exact tuple_built hi true
  · exact newExpression_built hi
  · -- `payable` and `type` are the only keywords read as names
    refine .lookAhead fun _ => .ite ?_ fun _ => .reportRule (.within _ .fail)
    rintro ⟨rfl | rfl, _⟩ <;> exact identifier_built rfl

/-! ### What follows an operand

So it is with what follows an operand; a list of options owes its brace until then.
-/

theorem namedArguments_built :
    Built known (a.owe .rbrace) (namedArguments inner) fun _ => a :=
  .series rfl <| .bind expectIdent_built fun _ => .bind (.expect rfl) fun _ =>
    .bind (hi.expression _) fun _ => .done

omit hi in
theorem member_built {object : Expression Extent} :
    Built [.dot] a (member object) fun _ => a :=
  .advance rfl <| .bind expectIdent_built fun _ => .done

theorem bound?_built {close : Kind} : Built known a (bound? inner close) fun _ => a :=
  .kindIf .done <| .bind (hi.expression a) fun _ => .done

theorem subscript_built {object : Expression Extent} :
    Built [.lbracket] a (subscript inner object) fun _ => a :=
  .advance rfl <| .eatIf rfl (.extentFrom fun _ => .done) <| .bind (bound?_built hi) fun _ =>
    .eatIf rfl
      (.bind (bound?_built hi) fun _ => .bind (.expect rfl) fun _ => .extentFrom fun _ => .done)
      (.bind (.expect rfl) fun _ => .extentFrom fun _ => .done)

theorem arguments_built : Built known (a.owe .rparen) (arguments inner) fun _ => a :=
  .kindIf
    (.advance rfl <| .bind (namedArguments_built hi) fun _ => .bind (.expect rfl) fun _ => .done)
    (.bind (.within _ (.series rfl (hi.expression _))) fun _ => .done)

theorem call_built {callee : Expression Extent} :
    Built [.lparen] a (call inner callee) fun _ => a :=
  .advance rfl <| .bind (arguments_built hi) fun _ => .extentFrom fun _ => .done

theorem callOptions_built {callee : Expression Extent} :
    Built (.lbrace :: known) a (callOptions inner callee) fun _ => a :=
  .advance rfl <| .bind (namedArguments_built hi) fun _ => .extentFrom fun _ => .done

omit hi in
theorem trailingOperator_built {operator : UnaryOp} {argument : Expression Extent} {k : Kind}
    (h : a.after? k = some a) :
    Built [k] a (trailingOperator operator argument) fun _ => a :=
  .advance h <| .extentFrom fun _ => .done

theorem suffix?_built {object : Expression Extent} :
    Built [] a (suffix? inner object) fun _ => a := by
  refine .kind fun k => ?_
  split
  · exact .bind member_built fun _ => .done
  · exact .bind (subscript_built hi) fun _ => .done
  · exact .bind (call_built hi) fun _ => .done
  · exact .lookAhead fun _ => .lookAhead fun _ => .ite
      (fun _ => .bind (callOptions_built hi) fun _ => .done) fun _ => .done
  · split
    · rename_i h
      exact .bind
        (trailingOperator_built (Ledger.after?_of_isPlain (UnaryOp.isPlain_of_trailing? h) a))
        fun _ => .done
    · exact .done

theorem postfixed_built : Built known a (postfixed inner) fun _ => a :=
  .bind (.weaken (operand_built hi)) fun _ => .iterate fun _ => suffix?_built hi

/-! ### Operators

Operators are no brackets, so that a level leaves the ledger as its operands do.
-/

theorem unary_built : Built known a (unary inner) fun _ => a := by
  refine .kind fun k => ?_
  split
  · exact postfixed_built hi
  · rename_i h
    exact .position fun _ =>
      .advance (Ledger.after?_of_isPlain (UnaryOp.isPlain_of_leading? h) a) <|
      .bind (.weaken (hi.unary a)) fun _ => .done

theorem power_built : Built known a (power inner) fun _ => a :=
  .bind (unary_built hi) fun _ => .kindIf
    (.advance rfl <| .bind (.weaken (hi.power a)) fun _ => .done) .done

theorem binary_built :
    (level : Nat) → ∀ {known}, Built known a (binary inner level) fun _ => a
  | 0, _ => power_built hi
  | level + 1, _ => by
    refine .bind (binary_built level) fun _ => .iterate fun _ => .kind fun k => ?_
    split
    · exact .done
    · rename_i h
      exact .advance (Ledger.after?_of_isPlain (BinaryOp.isPlain_of_ofKind? h) a) <|
        .bind (binary_built level) fun _ => .done

theorem conditional_built : Built known a (conditional inner) fun _ => a :=
  .bind (binary_built hi _) fun _ => .kindIf
    (.advance rfl <| .bind (.weaken (hi.assignment a)) fun _ => .bind (.expect rfl) fun _ =>
      .bind (hi.assignment a) fun _ => .done)
    .done

theorem assignment_built : Built known a (assignment inner) fun _ => a := by
  refine .bind (conditional_built hi) fun _ => .kind fun k => ?_
  split
  · exact .done
  · rename_i h
    exact .advance (Ledger.after?_of_isPlain (AssignOp.isPlain_of_ofKind? h) a) <|
      .bind (.weaken (hi.assignment a)) fun _ => .done

theorem expression_built : Built known a (expression inner) fun _ => a :=
  .named _ (assignment_built hi)

end

end Grammar

end SolidityParser
