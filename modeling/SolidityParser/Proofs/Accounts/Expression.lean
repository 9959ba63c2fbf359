import SolidityParser.Proofs.Accounts.TypeName

/-!
# Expressions account for what they read

Accounts of the rules of `Grammar/Expression`. Many tokens are looked at here without being
reported when they do not fit; each of those rules either goes on to report something at the same
token, or succeeds.
-/

namespace SolidityParser

/-! ### Operators are not the end of the input -/

/-- The end of the input is no operator before an operand. -/
theorem UnaryOp.ne_eof_of_leading? {k : Kind} {operator : UnaryOp}
    (h : UnaryOp.leading? k = some operator) : k ≠ .eof := by
  rintro rfl
  cases h

/-- The end of the input is no operator after an operand. -/
theorem UnaryOp.ne_eof_of_trailing? {k : Kind} {operator : UnaryOp}
    (h : UnaryOp.trailing? k = some operator) : k ≠ .eof := by
  rintro rfl
  cases h

/-- The end of the input is no operator of assignments. -/
theorem AssignOp.ne_eof_of_ofKind? {k : Kind} {operator : AssignOp}
    (h : AssignOp.ofKind? k = some operator) : k ≠ .eof := by
  rintro rfl
  cases h

/-- The end of the input is no operator between operands. -/
theorem BinaryOp.ne_eof_of_ofKind? {k : Kind} {level : Nat} {operator : BinaryOp}
    (h : BinaryOp.ofKind? level k = some operator) : k ≠ .eof := by
  rintro rfl
  unfold ofKind? at h
  have hk := List.find?_some h
  rw [Bool.and_eq_true, beq_iff_eq] at hk
  cases operator <;> cases hk.1

namespace Grammar

open SolidityParser.Parser (Accounts Onward)

variable {w : Alike} {due : Bool} {i : Nat} {inner inner' : Inner}

/-! ### Operands

An operand is decided by its first token, and is past it where it is read.
-/

theorem identifier_accounts (hi : w.first.lexemes.kindAt i ≠ .eof) :
    Accounts w due i identifier identifier fun _ j => i < j :=
  .position <| .text <| .advance hi <| .pure (by omega)

theorem numberUnit?_accounts : Accounts w due i numberUnit? numberUnit? fun _ _ => True :=
  .text <| .kind <| .ite (fun hi => .take hi.1 nofun .done) fun _ => .done

theorem number_accounts (hi : w.first.lexemes.kindAt i ≠ .eof) :
    Accounts w due i number number fun _ j => i < j :=
  .position <| .text <| .advance hi <| numberUnit?_accounts.bind fun _ _ _ _ =>
    .extentFrom <| .pure (by omega)

/-- The end of the input is no string. -/
theorem ne_eof_of_isString {k : Kind} (h : k.isString = true) : k ≠ .eof := by
  rintro rfl
  cases h

theorem string_accounts (hi : w.first.lexemes.kindAt i ≠ .eof) :
    Accounts w due i string string fun _ j => i < j :=
  .position <| .text <| .advance hi <| .bind
    (.iterate fun _ _ _ => .kind <| .ite
      (fun hj => .text <| .advance (ne_eof_of_isString hj) <| .pure (.more (by omega)))
      fun _ => .pure .last)
    fun _ _ _ _ => .extentFrom <| .pure (by omega)

theorem boolean_accounts {value : Bool} (hi : w.first.lexemes.kindAt i ≠ .eof) :
    Accounts w due i (boolean value) (boolean value) fun _ j => i < j :=
  .position <| .advance hi <| .pure (by omega)

section

variable (h : Inner.Accounts w (i + 1) inner inner')

include h

theorem component_accounts {isArray : Bool} {j : Nat} (hj : i < j) :
    Accounts w due j (component inner isArray) (component inner' isArray) fun _ _ => True :=
  .kind <| .ite (fun _ => .done) fun _ => (h.expression (by omega)).bind fun _ _ _ _ => .done

theorem tuple_accounts {isArray : Bool} (hi : w.first.lexemes.kindAt i ≠ .eof) :
    Accounts w due i (tuple inner isArray) (tuple inner' isArray) fun _ j => i < j :=
  .position <| .advance hi <|
    (Accounts.series (by cases isArray <;> decide) fun _ _ =>
      component_accounts h (by omega)).bind fun _ _ _ _ => .extentFrom <| .pure (by omega)

theorem newExpression_accounts (hi : w.first.lexemes.kindAt i ≠ .eof) :
    Accounts w due i (newExpression inner) (newExpression inner') fun _ j => i < j :=
  .position <| .advance hi <| (Accounts.within (h.typeName (by omega)).finish).bind fun _ _ _ _ =>
    .extentFrom <| .pure (by omega)

theorem operand_accounts : Accounts w due i (operand inner) (operand inner') fun _ j => i < j := by
  refine .kind ?_
  split
  case h_1 hi => exact identifier_accounts (Lexemes.ne_eof hi nofun)
  case h_2 hi | h_3 hi => exact number_accounts (Lexemes.ne_eof hi nofun)
  case h_4 hi | h_5 hi | h_6 hi => exact string_accounts (Lexemes.ne_eof hi nofun)
  case h_7 hi | h_8 hi => exact boolean_accounts (Lexemes.ne_eof hi nofun)
  case h_9 hi | h_10 hi => exact tuple_accounts h (Lexemes.ne_eof hi nofun)
  case h_11 hi => exact newExpression_accounts h (Lexemes.ne_eof hi nofun)
  case h_12 =>
    refine .kindAhead (by omega) <| .ite ?_ fun _ => .reportRule <| .within .fail
    rintro ⟨hi | hi, -⟩ <;> exact identifier_accounts (Lexemes.ne_eof hi nofun)

/-! ### What follows an operand

What follows an operand is decided by one token, or by three for options. Where nothing does, the
tokens that were looked at are those that the two inputs share.
-/

theorem namedArguments_accounts {j : Nat} (hj : i < j) :
    Accounts w due j (namedArguments inner) (namedArguments inner') fun _ _ => True :=
  (Accounts.series (by simp) fun _ _ => .expectIdent fun _ => .expect (by simp) fun _ =>
    (h.expression (by omega)).bind fun _ _ _ _ => .done).mono fun _ _ _ _ => trivial

omit h in
theorem member_accounts {object : Expression Extent} (hi : w.first.lexemes.kindAt i ≠ .eof) :
    Accounts w due i (member object) (member object) fun _ j => i < j :=
  .advance hi <| .expectIdent fun _ => .pure (by omega)

theorem bound?_accounts {close : Kind} {j : Nat} (hj : i < j) :
    Accounts w due j (bound? inner close) (bound? inner' close) fun _ _ => True :=
  .kindIf (fun _ => .done) fun _ => (h.expression (by omega)).bind fun _ _ _ _ => .done

theorem subscript_accounts {object : Expression Extent}
    (hi : w.first.lexemes.kindAt i ≠ .eof) :
    Accounts w due i (subscript inner object) (subscript inner' object) fun _ j => i < j :=
  .advance hi <| .eatIf nofun (fun _ => .extentFrom <| .pure (by omega)) fun _ =>
    (bound?_accounts h (by omega)).bind fun _ _ _ _ => .eatIf nofun
      (fun _ => (bound?_accounts h (by omega)).bind fun _ _ _ _ => .expect nofun fun _ =>
        .extentFrom <| .pure (by omega))
      fun _ => .expect nofun fun _ => .extentFrom <| .pure (by omega)

theorem arguments_accounts {j : Nat} (hj : i < j) :
    Accounts w due j (arguments inner) (arguments inner') fun _ _ => True :=
  .kindIf
    (fun hj => .take hj nofun <|
      (namedArguments_accounts h (by omega)).bind fun _ _ _ _ => .expect nofun fun _ => .done)
    fun _ => (Accounts.within <| .series (by simp) fun _ _ =>
      (h.expression (by omega)).mono fun _ _ _ _ => trivial).bind fun _ _ _ _ => .done

theorem call_accounts {callee : Expression Extent} (hi : w.first.lexemes.kindAt i ≠ .eof) :
    Accounts w due i (call inner callee) (call inner' callee) fun _ j => i < j :=
  .advance hi <| (arguments_accounts h (by omega)).bind fun _ _ _ _ =>
    .extentFrom <| .pure (by omega)

theorem callOptions_accounts {callee : Expression Extent}
    (hi : w.first.lexemes.kindAt i ≠ .eof) :
    Accounts w due i (callOptions inner callee) (callOptions inner' callee) fun _ j => i < j :=
  .advance hi <| (namedArguments_accounts h (by omega)).bind fun _ _ _ _ =>
    .extentFrom <| .pure (by omega)

omit h in
theorem trailingOperator_accounts {operator : UnaryOp} {argument : Expression Extent}
    (hi : w.first.lexemes.kindAt i ≠ .eof) :
    Accounts w due i (trailingOperator operator argument) (trailingOperator operator argument)
      fun _ j => i < j :=
  .advance hi <| .extentFrom <| .pure (by omega)

theorem suffix?_accounts {object : Expression Extent} :
    Accounts w due i (suffix? inner object) (suffix? inner' object) (Onward i) := by
  refine .kind ?_
  split
  case h_1 hi =>
    exact (member_accounts (Lexemes.ne_eof hi nofun)).bind fun _ _ _ hj => .pure (.more hj)
  case h_2 hi =>
    exact (subscript_accounts h (Lexemes.ne_eof hi nofun)).bind fun _ _ _ hj => .pure (.more hj)
  case h_3 hi =>
    exact (call_accounts h (Lexemes.ne_eof hi nofun)).bind fun _ _ _ hj => .pure (.more hj)
  case h_4 hi =>
    exact .kindAhead (by omega) <| .kindAhead (by omega) <| .ite
      (fun _ => (callOptions_accounts h (Lexemes.ne_eof hi nofun)).bind fun _ _ _ hj =>
        .pure (.more hj))
      fun _ => .pure .last
  case h_5 =>
    split
    case h_1 hop =>
      exact (trailingOperator_accounts (UnaryOp.ne_eof_of_trailing? hop)).bind fun _ _ _ hj =>
        .pure (.more hj)
    case h_2 => exact .pure .last

theorem postfixed_accounts :
    Accounts w due i (postfixed inner) (postfixed inner') fun _ j => i < j :=
  (operand_accounts h).bind fun _ _ _ _ =>
    (Accounts.iterate fun _ _ _ => suffix?_accounts (h.later (by omega))).mono
      fun _ _ _ _ => by omega

/-! ### Operators

A level of operators is its first operand, and rounds of an operator and an operand each.
-/

theorem unary_accounts : Accounts w due i (unary inner) (unary inner') fun _ j => i < j := by
  refine .kind ?_
  split
  case h_1 => exact postfixed_accounts h
  case h_2 hop =>
    exact .position <| .advance (UnaryOp.ne_eof_of_leading? hop) <|
      (h.unary (by omega)).bind fun _ _ _ _ => .pure (by omega)

theorem power_accounts : Accounts w due i (power inner) (power inner') fun _ j => i < j :=
  (unary_accounts h).bind fun _ _ _ _ => .kindIf
    (fun hj => .take hj nofun <| (h.power (by omega)).bind fun _ _ _ _ => .pure (by omega))
    fun _ => .pure (by omega)

omit h in
theorem binary_accounts : (level : Nat) → ∀ {due i}, Inner.Accounts w (i + 1) inner inner' →
    Accounts w due i (binary inner level) (binary inner' level) fun _ j => i < j
  | 0, _, _, h => power_accounts h
  | level + 1, _, i, h => by
    refine (binary_accounts level h).bind fun _ j _ _ =>
      (Accounts.iterate fun _ k _ => .kind ?_).mono
      fun _ _ _ _ => by omega
    split
    case h_1 => exact .pure .last
    case h_2 hop =>
      exact .advance (BinaryOp.ne_eof_of_ofKind? hop) <|
        (binary_accounts level (h.later (by omega))).bind fun _ _ _ _ => .pure (.more (by omega))

theorem conditional_accounts :
    Accounts w due i (conditional inner) (conditional inner') fun _ j => i < j :=
  (binary_accounts _ h).bind fun _ _ _ _ => .kindIf
    (fun hj => .take hj nofun <| (h.assignment (by omega)).bind fun _ _ _ _ =>
      .expect nofun fun _ => (h.assignment (by omega)).bind fun _ _ _ _ => .pure (by omega))
    fun _ => .pure (by omega)

theorem assignment_accounts :
    Accounts w due i (assignment inner) (assignment inner') fun _ j => i < j := by
  refine (conditional_accounts h).bind fun _ _ _ _ => .kind ?_
  split
  case h_1 => exact .pure (by omega)
  case h_2 hop =>
    exact .advance (AssignOp.ne_eof_of_ofKind? hop) <|
      (h.assignment (by omega)).bind fun _ _ _ _ => .pure (by omega)

theorem expression_accounts :
    Accounts w due i (expression inner) (expression inner') fun _ j => i < j :=
  .named (assignment_accounts h)

end

end Grammar

end SolidityParser
