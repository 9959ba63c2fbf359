import SolidityParser.Proofs.Parser.Built

/-!
# Type names are built from combinators

Derivations for the rules of `Grammar/TypeName`. None of them leaves the ledger changed: what a type
name or a parameter opens, it closes.
-/

namespace SolidityParser

/-- The rules for what is nested are built from combinators, and only statements leave passages
unread. -/
structure Inner.Built (inner : Inner) : Prop where
  /-- An expression changes nothing. -/
  expression (a : Ledger) : Parser.Built [] a inner.expression fun _ => a
  /-- An assignment changes nothing. -/
  assignment (a : Ledger) : Parser.Built [] a inner.assignment fun _ => a
  /-- A power changes nothing. -/
  power (a : Ledger) : Parser.Built [] a inner.power fun _ => a
  /-- An operand changes nothing. -/
  unary (a : Ledger) : Parser.Built [] a inner.unary fun _ => a
  /-- A type changes nothing. -/
  typeName (a : Ledger) : Rule.Built [] a inner.typeName fun _ => a
  /-- A statement leaves its passages unread. -/
  statement (a : Ledger) : Rule.Built [] a inner.statement fun v => a.note v.passages
  /-- No statement begins where a member does. -/
  ends : inner.statement.EndsAtMember

/-- The kinds that are no bracket and may stand anywhere in a unit. -/
def Kind.isPlain (kind : Kind) : Bool :=
  kind.closer?.isNone && !kind.isClose && kind != .eof && kind != .kwImport

/-- A token that is no bracket leaves the ledger as it is. -/
theorem Ledger.after?_of_isPlain {k : Kind} (h : k.isPlain = true) (a : Ledger) :
    a.after? k = some a := by
  simp only [Kind.isPlain, Bool.and_eq_true, Option.isNone_iff_eq_none, Bool.not_eq_true',
    bne_iff_ne] at h
  obtain ⟨⟨⟨hc, ho⟩, he⟩, hi⟩ := h
  unfold after?
  rw [hc]
  simp [ho, he, hi]

/-- The keywords for visibility are no brackets. -/
theorem Visibility.isPlain_of_ofKind? {k : Kind} (h : (Visibility.ofKind? k).isSome = true) :
    k.isPlain = true := by
  unfold ofKind? at h
  split at h <;> first | rfl | cases h

/-- The keywords for mutability are no brackets. -/
theorem StateMutability.isPlain_of_ofKind? {k : Kind}
    (h : (StateMutability.ofKind? k).isSome = true) : k.isPlain = true := by
  unfold ofKind? at h
  split at h <;> first | rfl | cases h

namespace Grammar

open SolidityParser.Parser (Built)

variable {known : List Kind} {a : Ledger} {inner : Inner}

/-! ### Attributes -/

theorem visibility?_built : Built known a visibility? fun _ => a :=
  .kind fun _ => .ite
    (fun h => .advance (Ledger.after?_of_isPlain (Visibility.isPlain_of_ofKind? h) a) .done)
    fun _ => .done

theorem mutability?_built : Built known a mutability? fun _ => a :=
  .kind fun _ => .ite
    (fun h => .advance (Ledger.after?_of_isPlain (StateMutability.isPlain_of_ofKind? h) a) .done)
    fun _ => .done

theorem location?_built : Built known a location? fun _ => a :=
  .eatIf rfl .done <| .eatIf rfl .done <| .eatIf rfl .done .done

theorem payableAfter_built {name : String} : Built known a (payableAfter name) fun _ => a :=
  .ite (fun _ => .eat_plain rfl) fun _ => .done

theorem eatIdent_built : Built known a Parser.eatIdent fun _ => a :=
  .text fun _ => .eatIf rfl .done .done

theorem expectIdent_built : Built known a Parser.expectIdent fun _ => a :=
  .position fun _ => .text fun _ => .bind (.expect rfl) fun _ => .done

/-! ### Parameters -/

section Parameters

variable {typeName : Rule (TypeName Extent)} (ht : ∀ a, Rule.Built [] a typeName fun _ => a)

include ht

theorem parameter_built {allowIndexed : Bool} :
    Built known a (parameter typeName allowIndexed) fun _ => a :=
  .named _ <| .position fun _ => .bind (.weaken (.finish (ht a))) fun _ =>
    .bind location?_built fun _ => .either (fun _ => .eat_plain rfl) (fun _ => .done) fun _ =>
    .bind eatIdent_built fun _ => .extentFrom fun _ => .done

theorem parameters_built {allowIndexed : Bool} :
    Built known a (parameters typeName allowIndexed) fun _ => a :=
  .bind (.expect rfl) fun _ => .within _ (.series rfl (parameter_built ht))

theorem returns?_built : Built known a (returns? typeName) fun _ => a :=
  .eatIf rfl (.bind (parameters_built ht) fun _ => .done) .done

end Parameters

/-! ### Type names

What a type opens it closes, so that the ledger is left as it was.
-/

theorem pathTail_built {path : String} : Built known a (pathTail path) fun _ => a := by
  refine .iterate fun _ => .kind fun k => .kindAhead fun k' => .ite ?_ fun _ => .done
  rintro ⟨rfl, rfl⟩
  exact .advance rfl <| .text fun _ => .advance rfl .done

theorem namedType_built : Rule.Built known a namedType fun _ => a :=
  .opening <| .taking rfl fun _ _ => .ite
    (fun _ => .bind payableAfter_built fun _ => .extentFrom fun _ => .done)
    fun _ => .bind pathTail_built fun _ => .extentFrom fun _ => .done

variable (hi : inner.Built)

include hi

theorem mappingType_built : Rule.Built known a (mappingType inner) fun _ => a :=
  .opening <| .taking rfl fun _ _ => .bind (.expect rfl) fun _ =>
    .bind (.finish (hi.typeName _)) fun _ => .bind eatIdent_built fun _ =>
    .bind (.expect rfl) fun _ => .bind (.finish (hi.typeName _)) fun _ =>
    .bind eatIdent_built fun _ => .bind (.expect rfl) fun _ => .extentFrom fun _ => .done

omit hi in
theorem functionTypeAttributes_built : Built known a functionTypeAttributes fun _ => a :=
  .iterate fun (_, _) => .bind visibility?_built fun
    | some _ => .done
    | none => .bind mutability?_built fun
      | some _ => .done
      | none => .done

theorem functionType_built : Rule.Built known a (functionType inner) fun _ => a :=
  .opening <| .taking rfl fun _ _ => .bind (parameters_built hi.typeName) fun _ =>
    .bind functionTypeAttributes_built fun _ => .bind (returns?_built hi.typeName) fun _ =>
    .extentFrom fun _ => .done

theorem nextArray?_built {start : Nat} {base : TypeName Extent} :
    Built known a (nextArray? inner start base) fun _ => a :=
  .kindIf
    (.advance rfl <| .eatIf rfl (.extentFrom fun _ => .done) <|
      .bind (hi.expression _) fun _ => .bind (.expect rfl) fun _ => .extentFrom fun _ => .done)
    .done

theorem typeName_built : Rule.Built known a (typeName inner) fun _ => a :=
  .ruleNamed _ <| .followedBy
    (.orElse (.opening .taking) <| .orElse (.opening .taking) <| .orElse (.opening .taking) .none)
    (.orElse namedType_built <| .orElse (mappingType_built hi) <|
      .orElse (functionType_built hi) .none)
    fun _ _ => .iterate fun _ => nextArray?_built hi

end Grammar

end SolidityParser
