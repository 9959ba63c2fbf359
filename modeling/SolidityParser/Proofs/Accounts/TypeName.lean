import SolidityParser.Proofs.Accounts.Rule

/-!
# Type names account for what they read

Accounts of the rules of `Grammar/TypeName`. The rules of the two inputs differ in how deeply what
is nested may be nested itself, so the rules for it, `inner` and `inner'`, are two; they have
accounts at every token from some index on (`Inner.Accounts`), which the token that opens a
construct provides for what is in it.
-/

namespace SolidityParser

/-! ### What is nested -/

/-- The second pair of inputs is the first, read elsewhere in the grammar. -/
structure Alike.Same (w w' : Alike) : Prop where
  /-- The first inputs are one. -/
  first : w'.first.lexemes = w.first.lexemes
  /-- The second inputs are one. -/
  second : w'.second.lexemes = w.second.lexemes
  /-- They agree up to the same token. -/
  bound : w'.bound = w.bound

/-- The rules for what is nested have accounts at `i`. -/
structure Inner.Account (w : Alike) (i : Nat) (inner inner' : Inner) : Prop where
  /-- An expression. -/
  expression : inner.expression.Accounts w false i inner'.expression fun _ j => i < j
  /-- An assignment. -/
  assignment : inner.assignment.Accounts w false i inner'.assignment fun _ j => i < j
  /-- A power. -/
  power : inner.power.Accounts w false i inner'.power fun _ j => i < j
  /-- An operand. -/
  unary : inner.unary.Accounts w false i inner'.unary fun _ j => i < j
  /-- A type. -/
  typeName : inner.typeName.Accounts w true i inner'.typeName fun _ j => i < j
  /-- A statement. -/
  statement : inner.statement.Accounts w true i inner'.statement fun _ j => i < j

/-- The rules for what is nested have accounts at every token from `n` on, wherever in the grammar
they are used. -/
def Inner.Accounts (w : Alike) (n : Nat) (inner inner' : Inner) : Prop :=
  ∀ w' i, w.Same w' → n ≤ i → Account w' i inner inner'

namespace Inner.Accounts

variable {w : Alike} {due : Bool} {n i : Nat} {inner inner' : Inner}

theorem later (h : Accounts w n inner inner') (hn : n ≤ i) : Accounts w i inner inner' :=
  fun w' j hw hj => h w' j hw (Nat.le_trans hn hj)

theorem speculative (h : Accounts w n inner inner') : Accounts w.speculative n inner inner' :=
  fun w' j hw hj => h w' j ⟨hw.first, hw.second, hw.bound⟩ hj

theorem inBody (h : Accounts w n inner inner') : Accounts w.inBody n inner inner' :=
  fun w' j hw hj => h w' j ⟨hw.first, hw.second, hw.bound⟩ hj

theorem account (h : Accounts w n inner inner') (hn : n ≤ i) : Account w i inner inner' :=
  h w i ⟨rfl, rfl, rfl⟩ hn

theorem expression (h : Accounts w n inner inner') (hn : n ≤ i) :
    inner.expression.Accounts w due i inner'.expression fun _ j => i < j :=
  (h.account hn).expression.anyway

theorem assignment (h : Accounts w n inner inner') (hn : n ≤ i) :
    inner.assignment.Accounts w due i inner'.assignment fun _ j => i < j :=
  (h.account hn).assignment.anyway

theorem power (h : Accounts w n inner inner') (hn : n ≤ i) :
    inner.power.Accounts w due i inner'.power fun _ j => i < j :=
  (h.account hn).power.anyway

theorem unary (h : Accounts w n inner inner') (hn : n ≤ i) :
    inner.unary.Accounts w due i inner'.unary fun _ j => i < j :=
  (h.account hn).unary.anyway

theorem typeName (h : Accounts w n inner inner') (hn : n ≤ i) :
    inner.typeName.Accounts w true i inner'.typeName fun _ j => i < j :=
  (h.account hn).typeName

theorem statement (h : Accounts w n inner inner') (hn : n ≤ i) :
    inner.statement.Accounts w true i inner'.statement fun _ j => i < j :=
  (h.account hn).statement

end Inner.Accounts

namespace Grammar

open SolidityParser.Parser (Accounts Onward)

variable {w : Alike} {due : Bool} {i : Nat} {inner inner' : Inner}

/-! ### Attributes -/

/-- The end of the input is no keyword for visibility. -/
theorem ne_eof_of_visibility {k : Kind} (h : (Visibility.ofKind? k).isSome = true) : k ≠ .eof := by
  rintro rfl
  cases h

/-- The end of the input is no keyword for mutability. -/
theorem ne_eof_of_mutability {k : Kind} (h : (StateMutability.ofKind? k).isSome = true) :
    k ≠ .eof := by
  rintro rfl
  cases h

theorem visibility?_accounts : Accounts w due i visibility? visibility? (Onward i) := by
  refine .kind <| .ite (fun h => .advance (ne_eof_of_visibility h) ?_) fun h => .pure ?_
  · exact .pure (.more (Nat.lt_succ_self i))
  · exact fun h' => absurd h' h

theorem mutability?_accounts : Accounts w due i mutability? mutability? (Onward i) := by
  refine .kind <| .ite (fun h => .advance (ne_eof_of_mutability h) ?_) fun h => .pure ?_
  · exact .pure (.more (Nat.lt_succ_self i))
  · exact fun h' => absurd h' h

theorem location?_accounts : Accounts w due i location? location? fun _ _ => True :=
  .eatIf nofun (fun _ => .done) fun _ => .eatIf nofun (fun _ => .done) fun _ =>
    .eatIf nofun (fun _ => .done) fun _ => .done

theorem payableAfter_accounts {name : String} :
    Accounts w due i (payableAfter name) (payableAfter name) fun _ _ => True :=
  .ite (fun _ => .eatToken nofun) fun _ => .done

/-! ### Parameters -/

section Parameters

variable {type type' : Rule (TypeName Extent)} {allowIndexed : Bool}

theorem parameter_accounts (ht : type.Accounts w true i type' fun _ j => i < j) :
    Accounts w due i (parameter type allowIndexed) (parameter type' allowIndexed)
      fun _ j => i < j :=
  .named <| .position <| ht.finish.bind fun _ _ _ _ => location?_accounts.bind fun _ _ _ _ =>
    .either (fun _ => .eatToken nofun) (fun _ => .done) fun _ _ _ _ =>
    Accounts.eatIdent.bind fun _ _ _ _ => .extentFrom <| .pure (by omega)

theorem parameters_accounts (ht : ∀ j, i < j → type.Accounts w true j type' fun _ k => j < k) :
    Accounts w due i (parameters type allowIndexed) (parameters type' allowIndexed)
      fun _ j => i < j :=
  .expect nofun fun _ => .within <|
    (Accounts.series (by simp) fun j _ =>
      (parameter_accounts (ht j (by omega))).mono fun _ _ _ _ => trivial).mono
    fun _ j _ _ => by omega

theorem returns?_accounts (ht : ∀ j, i < j → type.Accounts w true j type' fun _ k => j < k) :
    Accounts w due i (returns? type) (returns? type') fun _ _ => True :=
  .eatIf nofun
    (fun _ => (parameters_accounts fun j _ => ht j (by omega)).bind fun _ _ _ _ => .done)
    fun _ => .done

end Parameters

/-! ### Type names

A type is past its first token, which decides of which kind it is. Array suffixes may be none, and
end a type that has moved on before.
-/

theorem pathTail_accounts {path : String} :
    Accounts w due i (pathTail path) (pathTail path) fun _ j => i ≤ j := by
  refine .iterate fun _ j _ => .kind <| .kindAhead (by omega) <| .ite ?_ fun _ => .pure .last
  rintro ⟨hdot, hname⟩
  exact .take hdot nofun <| .text <| .take hname nofun <|
    .pure (.more (by omega))

theorem namedType_accounts : namedType.Accounts w true i namedType fun _ j => i < j :=
  .opening fun hi => .taking hi nofun fun _ => .ite
    (fun _ => payableAfter_accounts.bind fun _ _ _ _ => .extentFrom <| .pure (by omega))
    fun _ => pathTail_accounts.bind fun _ _ _ _ => .extentFrom <| .pure (by omega)

theorem functionTypeAttributes_accounts :
    Accounts w due i functionTypeAttributes functionTypeAttributes fun _ j => i ≤ j :=
  .iterate fun (_, _) _ _ => visibility?_accounts.bind fun
    | some _, _, _, h => .pure (.more (h rfl))
    | none, _, _, _ => mutability?_accounts.bind fun
      | some _, _, _, h => .pure (.more (Nat.lt_of_le_of_lt (by assumption) (h rfl)))
      | none, _, _, _ => .pure .last

variable (h : Inner.Accounts w (i + 1) inner inner')

include h

theorem mappingType_accounts :
    (mappingType inner).Accounts w true i (mappingType inner') fun _ j => i < j :=
  .opening fun hi => .taking hi nofun fun _ => .expect nofun fun _ =>
    (h.typeName (by omega)).finish.bind fun _ _ _ _ =>
    Accounts.eatIdent.bind fun _ _ _ _ =>
    .expect nofun fun _ => (h.typeName (by omega)).finish.bind fun _ _ _ _ =>
    Accounts.eatIdent.bind fun _ _ _ _ => .expect nofun fun _ =>
    .extentFrom <| .pure (by omega)

theorem functionType_accounts :
    (functionType inner).Accounts w true i (functionType inner') fun _ j => i < j :=
  .opening fun hi => .taking hi nofun fun _ =>
    (parameters_accounts fun _ _ => h.typeName (by omega)).bind fun _ _ _ _ =>
    functionTypeAttributes_accounts.bind fun _ _ _ _ =>
    (returns?_accounts fun _ _ => h.typeName (by omega)).bind fun _ _ _ _ =>
    .extentFrom <| .pure (by omega)

theorem arrayRest_accounts {start : Nat} {base : TypeName Extent} :
    Accounts w due (i + 1) (arrayRest inner start base) (arrayRest inner' start base) (Onward i) :=
  .eatIf nofun (fun _ => .extentFrom <| .pure (.more (by omega))) fun _ =>
    (h.expression (Nat.le_refl _)).bind fun _ _ _ _ => .expect nofun fun _ =>
    .extentFrom <| .pure (.more (by omega))

theorem nextArray?_accounts {start : Nat} {base : TypeName Extent} :
    Accounts w due i (nextArray? inner start base) (nextArray? inner' start base) (Onward i) :=
  .kindIf (fun hi => .take hi nofun (arrayRest_accounts h)) fun _ => .pure .last

theorem arraySuffixes_accounts {start : Nat} {base : TypeName Extent} :
    (arraySuffixes inner start base).Accounts w true i (arraySuffixes inner' start base)
      fun _ j => i ≤ j :=
  .decided <| .iterate fun _ _ _ => nextArray?_accounts (h.later (by omega))

theorem typeName_accounts :
    (typeName inner).Accounts w true i (typeName inner') fun _ j => i < j :=
  .named <| .followedBy
    (.orElse namedType_accounts <| .orElse (mappingType_accounts h) <|
      .orElse (functionType_accounts h) .none)
    (fun _ => ⟨_, rfl⟩) fun _ _ _ _ =>
    (arraySuffixes_accounts (h.later (by omega))).mono fun _ _ _ _ => by omega

end Grammar

end SolidityParser
