import SolidityParser.Grammar.Entry
import SolidityParser.Proofs.Complete.Expression

/-!
# Types and declarations are read

The rules for the names of types, for parameters and for declarations of variables read each that
stands in the input. With those for expressions this makes the rules of every depth complete
(`Inner.complete_upTo`).
-/

namespace SolidityParser

open SolidityParser.Parser (Reads Rounds)

/-- A rule reads every type that begins so close to the end of the input. -/
def Rule.CoversTypes (scope : Scope) (depth : Nat) (rule : Rule (TypeName Extent)) : Prop :=
  ∀ {i type j}, scope.lexemes.size < i + depth → scope.lexemes.IsPhrase i (.typeName type) j →
    scope.lexemes.kindAt j ≠ .lbracket → rule.Reads scope i type j

namespace Grammar

variable {inner : Inner} {scope : Scope} {i j k depth : Nat}

/-! ### What may be left out -/

/-- A data location is read, or none where the next token is the keyword of none. -/
theorem location?_reads {location : Option StorageLocation}
    (hspells : scope.lexemes.Spells i (Symbol.location location) j)
    (hnone : location = none → ∀ l : StorageLocation, scope.lexemes.kindAt i ≠ l.kind) :
    location?.Reads scope i location j := by
  cases location with
  | none =>
    obtain rfl : i = j := hspells
    exact .eatElse (hnone rfl .memory) <| .eatElse (hnone rfl .storage) <|
      .eatElse (hnone rfl .calldata) .pure
  | some location =>
    obtain ⟨⟨-, hk⟩, rfl⟩ := hspells
    cases location with
    | memory => exact .eatIf (by decide) hk .pure
    | storage => exact .eatElse (by rw [hk]; decide) <| .eatIf (by decide) hk .pure
    | calldata =>
      exact .eatElse (by rw [hk]; decide) <| .eatElse (by rw [hk]; decide) <|
        .eatIf (by decide) hk .pure

/-- A name is read, or none where the next token is none. -/
theorem eatIdent_reads {name : Option String}
    (hspells : scope.lexemes.Spells i (Symbol.name name) j)
    (hnone : name = none → scope.lexemes.kindAt i ≠ .ident) :
    Parser.eatIdent.Reads scope i name j := by
  cases name with
  | none =>
    obtain rfl : i = j := hspells
    exact .bind .text <| .eatElse (hnone rfl) .pure
  | some name =>
    obtain ⟨⟨-, hk, rfl⟩, rfl⟩ := hspells
    exact .bind .text <| .eatIf (by decide) hk .pure

/-! ### Parameters -/

section Parameters

variable {typeName : Rule (TypeName Extent)} {allowIndexed : Bool}
  (htype : typeName.CoversTypes scope depth) (hd : scope.lexemes.size < i + depth)

include htype hd

/-- A parameter is read up to a comma or a parenthesis. -/
theorem parameter_reads {parameter : Parameter Extent}
    (h : scope.lexemes.IsPhrase i (.parameter parameter) j)
    (hj : scope.lexemes.kindAt j = .comma ∨ scope.lexemes.kindAt j = .rparen)
    (hindexed : parameter.isIndexed = true → allowIndexed = true) :
    (Grammar.parameter typeName allowIndexed).Reads scope i parameter j := by
  obtain ⟨symbols, hphrased, hspells⟩ := h.written
  cases hphrased with
  | @parameter place type location name indexed =>
    obtain rfl : place = ⟨i, j⟩ := h.place
    obtain ⟨n, hrest, hname⟩ := Lexemes.spells_append.mp hspells
    obtain ⟨m, ⟨⟨hfirst, -⟩, hlocation⟩, hrest⟩ := Lexemes.spells_append.mp hrest
    have hphrase : scope.lexemes.IsPhrase i (.typeName type) type.place.next :=
      h.right_below (List.mem_singleton_self _) (List.mem_singleton_self _) hfirst
    -- what the parts after the type begin with
    have hn : scope.lexemes.kindAt n = .ident ∨ scope.lexemes.kindAt n = .comma ∨
        scope.lexemes.kindAt n = .rparen := by
      cases name with
      | none =>
        obtain rfl : n = j := hname
        exact .inr hj
      | some name => exact .inl hname.1.2.1
    have hm : indexed = true ∧ scope.lexemes.kindAt m = .kwIndexed ∧ n = m + 1 ∨
        indexed = false ∧ m = n := by
      cases indexed with
      | true => exact .inl ⟨rfl, hrest.1.2, hrest.2.symm⟩
      | false => exact .inr ⟨rfl, hrest⟩
    have hnone (hl : location = none) (l : StorageLocation) :
        scope.lexemes.kindAt type.place.next ≠ l.kind := by
      subst hl
      obtain rfl : type.place.next = m := hlocation
      rcases hm with ⟨-, hm, -⟩ | ⟨-, rfl⟩
      · rw [hm]
        cases l <;> decide
      · rcases hn with hn | hn | hn <;> rw [hn] <;> cases l <;> decide
    have hbracket : scope.lexemes.kindAt type.place.next ≠ .lbracket := by
      cases location with
      | none =>
        obtain rfl : type.place.next = m := hlocation
        rcases hm with ⟨-, hm, -⟩ | ⟨-, rfl⟩
        · rw [hm]
          decide
        · rcases hn with hn | hn | hn <;> rw [hn] <;> decide
      | some l =>
        rw [hlocation.1.2]
        cases l <;> decide
    refine .named <| .bind .position <| .bind (.finish (htype hd hphrase hbracket)) <|
      .bind (location?_reads hlocation hnone) ?_
    have hname' : Reads scope n (do
        let name ← Parser.eatIdent
        return Parameter.mk (← Parser.extentFrom i) type location name indexed)
        (.mk ⟨i, j⟩ type location name indexed) j := by
      refine .bind (eatIdent_reads hname ?_) <| .bind .extentFrom .pure
      rintro rfl
      obtain rfl : n = j := hname
      rcases hj with hj | hj <;> rw [hj] <;> decide
    rcases hm with ⟨rfl, hm, rfl⟩ | ⟨rfl, rfl⟩
    · rw [hindexed rfl]
      exact .bind (.eat (by decide) hm) hname'
    · cases allowIndexed with
      | true =>
        refine .bind (.eat_not ?_) hname'
        rcases hn with hn | hn | hn <;> rw [hn] <;> decide
      | false => exact hname'

/-- Parameters are read with the parentheses around them. -/
theorem parameters_reads {parameters : List (Parameter Extent)}
    (hspells : scope.lexemes.Spells i (Symbol.parameters parameters) j)
    (hall : ∀ p ∈ parameters, ∀ n, p.place.first = n →
      scope.lexemes.IsPhrase n (.parameter p) p.place.next)
    (hindexed : ∀ p ∈ parameters, p.isIndexed = true → allowIndexed = true) :
    (Grammar.parameters typeName allowIndexed).Reads scope i parameters j := by
  obtain ⟨⟨-, hopen⟩, hseries⟩ := hspells
  refine .bind (.expect (by decide) hopen) <| .within <| .series (by decide) hseries ?_ ?_
  · intro hsome
    obtain ⟨p, rest, rfl⟩ := List.exists_cons_of_ne_nil hsome
    obtain ⟨m, hfirst, -⟩ := hseries.series_cons
    exact (hall p (by simp) _ hfirst.1.1).kindAt_ne rfl
  · intro p hp n m hn hitem hend
    obtain ⟨⟨hfirst, -⟩, rfl⟩ := hitem
    exact parameter_reads htype (by omega) (hall p hp n hfirst) hend (hindexed p hp)

/-- Results are read, or none where their keyword is not. -/
theorem returns?_reads {returns : Option (List (Parameter Extent))}
    (hspells : scope.lexemes.Spells i (Symbol.returns returns) j)
    (hall : ∀ p ∈ returns.getD [], ∀ n, p.place.first = n →
      scope.lexemes.IsPhrase n (.parameter p) p.place.next)
    (hindexed : ∀ p ∈ returns.getD [], p.isIndexed = false) :
    (returns? typeName).Reads scope i returns j := by
  cases returns with
  | none =>
    obtain ⟨hno, rfl⟩ := hspells
    rw [Lexemes.ahead_kind (by decide)] at hno
    exact .eatElse hno .pure
  | some parameters =>
    obtain ⟨⟨-, hk⟩, hspells⟩ := hspells
    refine .eatIf (by decide) hk <| .bind (parameters_reads htype (by omega) hspells hall ?_) .pure
    intro p hp h
    rw [hindexed p hp] at h
    cases h

end Parameters

/-! ### Types -/

/-- The points and names of a path are read as long as there are any. -/
theorem pathTail_reads {first : String} {more : List String} (hi : i ≤ scope.lexemes.size)
    (hspells : scope.lexemes.Spells i
      (more.flatMap (fun name => [.token .dot, .word .ident name]) ++ [.no .step]) j) :
    (pathTail first).Reads scope i
      (more.foldl (fun path name => path ++ "." ++ name) first) j := by
  have rounds : ∀ (more : List String) (path : String) (k : Nat),
      scope.lexemes.Spells k
        (more.flatMap (fun name => [.token .dot, .word .ident name]) ++ [.no .step]) j →
      Rounds scope (fun path => do
        if (← Parser.kind) = .dot ∧ (← Parser.kindAhead 1) = .ident then
          Parser.advance
          let name ← Parser.text
          Parser.advance
          return some (path ++ "." ++ name)
        return none) path k (more.foldl (fun path name => path ++ "." ++ name) path) j := by
    intro more
    induction more with
    | nil =>
      rintro path k ⟨-, rfl⟩
      exact .refl _ _
    | cons name more ih =>
      rintro path k ⟨⟨-, hdot⟩, ⟨-, hident, rfl⟩, hrest⟩
      refine .head (.bind .kind <| .bind .kindAhead ?_) (by omega : k < k + 2) (ih _ _ hrest)
      rw [if_pos ⟨hdot, hident⟩]
      exact .bind (.advance (by rw [hdot]; decide)) <| .bind .text <|
        .bind (.advance (by rw [hident]; decide)) .pure
  have hlast : ¬ scope.lexemes.Ahead j .step := by
    obtain ⟨k, -, hno, rfl⟩ := Lexemes.spells_append.mp hspells
    exact hno
  rw [Lexemes.ahead_step] at hlast
  have hsize : j ≤ scope.lexemes.size := by
    rcases Nat.eq_or_lt_of_le hspells.inside.1 with rfl | hlt
    · exact hi
    · exact hspells.le_size hlt
  refine .iterate (rounds more first i hspells) (.bind .kind <| .bind .kindAhead ?_) hsize
  rw [if_neg hlast]
  exact .pure

/-- The name of a built-in type is one, and the word `payable` is read after it where it stands. -/
theorem payableAfter_reads {place : Extent} {name : String} {payable : Bool}
    (h : scope.lexemes.IsPhrase i (.typeName (.elementary place name payable)) j) :
    scope.lexemes.kindAt i = .ident ∧ scope.lexemes.textAt i = name ∧ isElementary name = true ∧
      (payableAfter name).Reads scope (i + 1) payable j := by
  obtain ⟨symbols, hphrased, hspells⟩ := h.written
  unfold payableAfter
  cases hphrased with
  | @elementary _ _ helementary =>
    obtain ⟨⟨-, hk, htext⟩, hrest⟩ := hspells
    refine ⟨hk, htext, helementary, ?_⟩
    split at hrest
    · next haddress =>
      obtain ⟨hno, rfl⟩ := hrest
      rw [Lexemes.ahead_kind (by decide)] at hno
      rw [if_pos haddress]
      exact .eat_not hno
    · next haddress =>
      obtain rfl : i + 1 = j := hrest
      rw [if_neg haddress]
      exact .pure
  | payableAddress =>
    obtain ⟨⟨-, hk, htext⟩, ⟨-, hpayable⟩, rfl⟩ := hspells
    refine ⟨hk, htext, by decide +kernel, ?_⟩
    rw [if_pos rfl]
    exact .eat (by decide) hpayable

/-- A type that is named is read with its path. -/
theorem namedType_reads {type : TypeName Extent}
    (h : scope.lexemes.IsPhrase i (.typeName type) j) (hk : scope.lexemes.kindAt i = .ident)
    (hbase : ∀ place base length, type ≠ .array place base length) :
    namedType.Reads scope i type j := by
  have hne : scope.lexemes.kindAt i ≠ .eof := by rw [hk]; decide
  cases type with
  | elementary place name payable =>
    obtain ⟨-, rfl, helementary, hpayable⟩ := payableAfter_reads h
    obtain rfl : place = ⟨i, j⟩ := h.place
    refine .opening hk <| .taking hne ?_
    rw [if_pos helementary]
    exact .bind hpayable <| .bind .extentFrom .pure
  | userDefined place path =>
    obtain ⟨symbols, hphrased, hspells⟩ := h.written
    obtain rfl : place = ⟨i, j⟩ := h.place
    cases hphrased with
    | @userDefined _ first more hname =>
      obtain ⟨⟨-, -, rfl⟩, hrest⟩ := hspells
      refine .opening hk <| .taking hne ?_
      rw [if_neg (by rw [hname]; exact Bool.false_ne_true)]
      exact .bind (pathTail_reads (Nat.succ_le_of_lt (Lexemes.lt_size_of_kindAt hne)) hrest) <|
        .bind .extentFrom .pure
  | mapping | function =>
    obtain ⟨symbols, hphrased, hspells⟩ := h.written
    cases hphrased
    rw [hspells.1.2] at hk
    cases hk
  | array => exact absurd rfl (hbase _ _ _)

/-- A visibility is taken if the next token is one. -/
theorem visibility?_reads {found : Visibility}
    (h : Visibility.ofKind? (scope.lexemes.kindAt i) = some found) :
    visibility?.Reads scope i (some found) (i + 1) := by
  refine .bind .kind ?_
  rw [h]
  refine .bind (.advance fun heof => ?_) .pure
  rw [heof] at h
  cases h

/-- Nothing is taken if it is not. -/
theorem visibility?_reads_none (h : Visibility.ofKind? (scope.lexemes.kindAt i) = none) :
    visibility?.Reads scope i none i := by
  refine .bind .kind ?_
  rw [h]
  exact .pure

/-- So is a mutability. -/
theorem mutability?_reads {found : StateMutability}
    (h : StateMutability.ofKind? (scope.lexemes.kindAt i) = some found) :
    mutability?.Reads scope i (some found) (i + 1) := by
  refine .bind .kind ?_
  rw [h]
  refine .bind (.advance fun heof => ?_) .pure
  rw [heof] at h
  cases h

/-- Nothing is taken if the next token is none. -/
theorem mutability?_reads_none (h : StateMutability.ofKind? (scope.lexemes.kindAt i) = none) :
    mutability?.Reads scope i none i := by
  refine .bind .kind ?_
  rw [h]
  exact .pure

/-- An attribute is read where there is one, and else nothing. -/
theorem typeAttribute_reads (attributes : Option Visibility × Option StateMutability) :
    Reads scope i (do
      if let some found ← visibility? then return some (some found, attributes.2)
      if let some found ← mutability? then return some (attributes.1, some found)
      return none)
      (if (scope.lexemes.kindAt i).isTypeAttribute then
        some (attributesAfter attributes (scope.lexemes.kindAt i)) else none)
      (if (scope.lexemes.kindAt i).isTypeAttribute then i + 1 else i) := by
  unfold Kind.isTypeAttribute attributesAfter
  cases hv : Visibility.ofKind? (scope.lexemes.kindAt i) with
  | some found => exact (visibility?_reads hv).bind .pure
  | none =>
    refine (visibility?_reads_none hv).bind ?_
    cases hm : StateMutability.ofKind? (scope.lexemes.kindAt i) with
    | some found => exact (mutability?_reads hm).bind .pure
    | none => exact (mutability?_reads_none hm).bind .pure

/-- The attributes of a function type are read up to a token that is none. -/
theorem functionTypeAttributes_reads {kinds : List Kind} (hi : i ≤ scope.lexemes.size)
    (hall : ∀ k ∈ kinds, k.isTypeAttribute = true)
    (hspells : scope.lexemes.Spells i
      (kinds.map .token ++ [.no [fun lexeme => lexeme.kind.isTypeAttribute]]) j) :
    functionTypeAttributes.Reads scope i (kinds.foldl attributesAfter (none, none)) j := by
  have rounds : ∀ (kinds : List Kind) (attributes : Option Visibility × Option StateMutability)
      (k : Nat), (∀ k ∈ kinds, k.isTypeAttribute = true) →
      scope.lexemes.Spells k
        (kinds.map .token ++ [.no [fun lexeme => lexeme.kind.isTypeAttribute]]) j →
      Rounds scope (fun attributes : Option Visibility × Option StateMutability => do
        if let some found ← visibility? then return some (some found, attributes.2)
        if let some found ← mutability? then return some (attributes.1, some found)
        return none) attributes k (kinds.foldl attributesAfter attributes) j := by
    intro kinds
    induction kinds with
    | nil =>
      rintro attributes k - ⟨-, rfl⟩
      exact .refl _ _
    | cons kind kinds ih =>
      rintro attributes k hall ⟨⟨-, hk⟩, hrest⟩
      obtain ⟨hkind, hall⟩ := List.forall_mem_cons.mp hall
      have hstep := @typeAttribute_reads scope k attributes
      rw [hk, if_pos hkind, if_pos hkind] at hstep
      exact .head hstep (Nat.lt_succ_self k) (ih _ _ hall hrest)
  have hlast : (scope.lexemes.kindAt j).isTypeAttribute = false := by
    obtain ⟨k, -, hno, rfl⟩ := Lexemes.spells_append.mp hspells
    cases hattribute : (scope.lexemes.kindAt k).isTypeAttribute with
    | false => rfl
    | true =>
      refine absurd ⟨hattribute, ?_, ?_, trivial⟩ hno <;> intro hk <;> rw [hk] at hattribute <;>
        cases hattribute
  have hsize : j ≤ scope.lexemes.size := by
    rcases Nat.eq_or_lt_of_le hspells.inside.1 with rfl | hlt
    · exact hi
    · exact hspells.le_size hlt
  have hend := @typeAttribute_reads scope j
    (kinds.foldl attributesAfter (none, none))
  rw [hlast, if_neg Bool.false_ne_true, if_neg Bool.false_ne_true] at hend
  exact .iterate (rounds kinds _ i hall hspells) hend hsize

section Nested

variable (hi : inner.Complete depth) (hd : scope.lexemes.size ≤ i + depth)

include hi hd

/-- A mapping is read with the names of its keys and values. -/
theorem mappingType_reads {place : Extent} {key value : TypeName Extent}
    {keyName valueName : Option String}
    (h : scope.lexemes.IsPhrase i (.typeName (.mapping place key keyName value valueName)) j) :
    (mappingType inner).Reads scope i (.mapping place key keyName value valueName) j := by
  obtain ⟨symbols, hphrased, hspells⟩ := h.written
  obtain rfl : place = ⟨i, j⟩ := h.place
  cases hphrased
  rw [List.append_assoc] at hspells
  obtain ⟨⟨-, hk⟩, ⟨-, hopen⟩, ⟨hkey, hcovers⟩, hspells⟩ := hspells
  obtain ⟨m, hkeyName, ⟨-, harrow⟩, ⟨hvalue, hcovers'⟩, hspells⟩ := Lexemes.spells_append.mp hspells
  obtain ⟨n, hvalueName, ⟨-, hclose⟩, rfl⟩ := Lexemes.spells_append.mp hspells
  have hlt := hcovers.nonempty
  have hle := hkeyName.inside.1
  have hkeyPhrase : scope.lexemes.IsPhrase (i + 2) (.typeName key) key.place.next :=
    h.right_below (List.mem_cons_self ..) (List.mem_cons_self ..) hkey
  have hvaluePhrase : scope.lexemes.IsPhrase (m + 1) (.typeName value) value.place.next :=
    h.right_below (List.mem_cons_of_mem _ (List.mem_cons_self ..)) (List.mem_cons_self ..) hvalue
  -- after a type comes a name, or what follows the name
  have hafter {name : Option String} {a b : Nat} {kind : Kind}
      (hname : scope.lexemes.Spells a (Symbol.name name) b) (hb : scope.lexemes.kindAt b = kind)
      (hkind : kind ≠ .lbracket ∧ kind ≠ .ident) :
      scope.lexemes.kindAt a ≠ .lbracket ∧ (name = none → scope.lexemes.kindAt a ≠ .ident) := by
    cases name with
    | none =>
      obtain rfl : a = b := hname
      rw [hb]
      exact ⟨hkind.1, fun _ => hkind.2⟩
    | some name =>
      rw [hname.1.2.1]
      exact ⟨by decide, nofun⟩
  obtain ⟨hbracket, hnone⟩ := hafter hkeyName harrow (by decide)
  obtain ⟨hbracket', hnone'⟩ := hafter hvalueName hclose (by decide)
  exact .opening hk <| .taking (by rw [hk]; decide) <|
    .bind (.expect (by decide) hopen) <|
    .bind (.finish (hi.typeName (by omega) hkeyPhrase hbracket)) <|
    .bind (eatIdent_reads hkeyName hnone) <| .bind (.expect (by decide) harrow) <|
    .bind (.finish (hi.typeName (by omega) hvaluePhrase hbracket')) <|
    .bind (eatIdent_reads hvalueName hnone') <| .bind (.expect (by decide) hclose) <|
    .bind .extentFrom .pure

/-- A function type is read. -/
theorem functionType_reads {place : Extent} {given returned : List (Parameter Extent)}
    {visibility : Option Visibility} {mutability : Option StateMutability}
    (h : scope.lexemes.IsPhrase i
      (.typeName (.function place given returned visibility mutability)) j) :
    (functionType inner).Reads scope i (.function place given returned visibility mutability)
      j := by
  obtain ⟨symbols, hphrased, hspells⟩ := h.written
  obtain rfl : place = ⟨i, j⟩ := h.place
  cases hphrased with
  | @functionType _ _ returns kinds hkinds hindexed =>
  rw [List.append_assoc] at hspells
  obtain ⟨⟨-, hk⟩, hspells⟩ := hspells
  obtain ⟨m, hgiven, hspells⟩ := Lexemes.spells_append.mp hspells
  obtain ⟨n, hkindsSpells, hno, hreturns⟩ := Lexemes.spells_append.mp hspells
  have hle := hgiven.inside.1
  have hle' := hkindsSpells.inside.1
  have hsize := hgiven.le_size (by
    have := hgiven.2.inside.1
    omega)
  have hparameter {p n} (hp : p ∈ given) (hn : p.place.first = n) :
      scope.lexemes.IsPhrase n (.parameter p) p.place.next :=
    h.right_below (List.mem_cons_self ..) (List.mem_map_of_mem hp) hn
  have hreturned {p n} (hp : p ∈ returns.getD []) (hn : p.place.first = n) :
      scope.lexemes.IsPhrase n (.parameter p) p.place.next :=
    h.right_below (List.mem_cons_of_mem _ (List.mem_cons_self ..)) (List.mem_map_of_mem hp) hn
  have htype : inner.typeName.CoversTypes scope depth := hi.typeName
  exact .opening hk <| .taking (by rw [hk]; decide) <|
    .bind (parameters_reads htype (by omega) hgiven (fun p hp n => hparameter hp)
      (by
        intro p hp h
        rw [hindexed p (List.mem_append_left _ hp)] at h
        cases h)) <|
    .bind (functionTypeAttributes_reads hsize hkinds (hkindsSpells.append ⟨hno, rfl⟩)) <|
    .bind (returns?_reads htype (by omega) hreturns (fun p hp n => hreturned hp)
      fun p hp => hindexed p (List.mem_append_right _ hp)) <|
    .bind .extentFrom .pure

/-- The type that the brackets follow is read, and then the brackets, one pair at a time. -/
theorem typeName_rounds {type : TypeName Extent}
    (h : scope.lexemes.IsPhrase i (.typeName type) j) :
    ∃ base k, (Rule.firstOf [namedType, mappingType inner, functionType inner]).Reads scope i
        base k ∧
      Rounds scope (nextArray? inner i) base k type j := by
  induction j using Nat.strongRecOn generalizing type with
  | ind j ih =>
    have hbegins := h.beginsType
    cases type with
    | elementary place name payable =>
      have hk : scope.lexemes.kindAt i = .ident := by
        obtain ⟨symbols, hphrased, hspells⟩ := h.written
        cases hphrased <;> exact hspells.1.2.1
      exact ⟨_, j, .first (namedType_reads h hk nofun), .refl _ _⟩
    | userDefined place path =>
      have hk : scope.lexemes.kindAt i = .ident := by
        obtain ⟨symbols, hphrased, hspells⟩ := h.written
        cases hphrased
        exact hspells.1.2.1
      exact ⟨_, j, .first (namedType_reads h hk nofun), .refl _ _⟩
    | mapping place key keyName value valueName =>
      have hk : scope.lexemes.kindAt i = .kwMapping := by
        obtain ⟨symbols, hphrased, hspells⟩ := h.written
        cases hphrased
        exact hspells.1.2
      exact ⟨_, j, .later (.opening (by rw [hk]; decide)) <| .first (mappingType_reads hi hd h),
        .refl _ _⟩
    | function place given returned visibility mutability =>
      have hk : scope.lexemes.kindAt i = .kwFunction := by
        obtain ⟨symbols, hphrased, hspells⟩ := h.written
        cases hphrased
        exact hspells.1.2
      exact ⟨_, j, .later (.opening (by rw [hk]; decide)) <|
        .later (.opening (by rw [hk]; decide)) <| .first (functionType_reads hi hd h), .refl _ _⟩
    | array place base length =>
      obtain ⟨symbols, hphrased, hspells⟩ := h.written
      obtain rfl : place = ⟨i, j⟩ := h.place
      cases hphrased
      obtain ⟨⟨hbase, hcovers⟩, ⟨-, hk⟩, hrest⟩ := hspells
      obtain ⟨m, hlength, ⟨-, hclose⟩, rfl⟩ := Lexemes.spells_append.mp hrest
      have hphrase : scope.lexemes.IsPhrase i (.typeName base) base.place.next :=
        h.right_below (List.mem_cons_self ..) (List.mem_cons_self ..) hbase
      have hlt := hcovers.nonempty
      have hle := hlength.inside.1
      obtain ⟨first, k, hread, hrounds⟩ := ih base.place.next (by omega) hphrase
      refine ⟨first, k, hread, hrounds.tail (.kindIf hk <|
        .bind (.advance (by rw [hk]; decide)) ?_) (by omega)⟩
      cases length with
      | none =>
        obtain rfl : base.place.next + 1 = m := hlength
        exact .eatIf (by decide) hclose <| .bind .extentFrom .pure
      | some e =>
        obtain ⟨⟨hfirst, -⟩, rfl⟩ := hlength
        have he : scope.lexemes.IsPhrase (base.place.next + 1) (.expression e) e.place.next :=
          h.right_below (List.mem_cons_of_mem _ (List.mem_cons_self ..)) (List.mem_cons_self ..)
            hfirst
        have hwhole : e.IsWhole := h.tight _ (List.mem_cons_of_mem _ (List.mem_cons_self ..)) _
          (List.mem_cons_self ..)
        exact .eatElse (he.kindAt_ne rfl) <|
          .bind (nested_reads hi he hwhole (by omega) hclose (by decide)) <|
          .bind (.expect (by decide) hclose) <| .bind .extentFrom .pure

/-- A type is read up to where no bracket makes an array of it. -/
theorem typeName_reads_phrase {type : TypeName Extent}
    (h : scope.lexemes.IsPhrase i (.typeName type) j)
    (hbracket : scope.lexemes.kindAt j ≠ .lbracket) : (typeName inner).Reads scope i type j := by
  obtain ⟨base, k, hread, hrounds⟩ := typeName_rounds hi hd h
  exact .named <| .followedBy hread <| .decided <|
    .iterate hrounds (.kindElse hbracket .pure) h.le_size

/-! ### Declarations of variables -/

/-- A declared variable is read. -/
theorem variableDeclaration_reads {declared : VariableDeclaration Extent}
    (h : scope.lexemes.IsPhrase i (.declared declared) j) :
    (variableDeclaration inner).Reads scope i declared j := by
  obtain ⟨symbols, hphrased, hspells⟩ := h.written
  cases hphrased with
  | @declared place type location name =>
    obtain rfl : place = ⟨i, j⟩ := h.place
    obtain ⟨m, ⟨⟨hfirst, -⟩, hlocation⟩, ⟨-, hk, rfl⟩, rfl⟩ := Lexemes.spells_append.mp hspells
    have hphrase : scope.lexemes.IsPhrase i (.typeName type) type.place.next :=
      h.right_below (List.mem_singleton_self _) (List.mem_singleton_self _) hfirst
    have hnone (hl : location = none) (l : StorageLocation) :
        scope.lexemes.kindAt type.place.next ≠ l.kind := by
      subst hl
      obtain rfl : type.place.next = m := hlocation
      rw [hk]
      cases l <;> decide
    have hbracket : scope.lexemes.kindAt type.place.next ≠ .lbracket := by
      cases location with
      | none =>
        obtain rfl : type.place.next = m := hlocation
        rw [hk]
        decide
      | some l =>
        rw [hlocation.1.2]
        cases l <;> decide
    exact .bind .position <| .bind (.finish (typeName_reads_phrase hi hd hphrase hbracket)) <|
      .bind (location?_reads hlocation hnone) <| .bind (.expectIdent hk) <|
      .bind .extentFrom .pure

/-- A declaration is read, of one variable or of several in parentheses. -/
theorem declarationStatement_reads {place : Extent}
    {slots : List (Option (VariableDeclaration Extent))} {initial : Option (Expression Extent)}
    (h : scope.lexemes.IsPhrase i (.statement (.declaration place slots initial)) j) :
    (declarationStatement inner).Reads scope i (.declaration place slots initial) j := by
  obtain ⟨symbols, hphrased, hspells⟩ := h.written
  obtain rfl : place = ⟨i, j⟩ := h.place
  cases hphrased with
  | @declaration _ declared initial =>
    obtain ⟨m, ⟨⟨hfirst, -⟩, hinitial⟩, ⟨-, hsemi⟩, rfl⟩ := Lexemes.spells_append.mp hspells
    have hdeclared : scope.lexemes.IsPhrase i (.declared declared) declared.place.next :=
      h.right_below (List.mem_cons_self ..) (List.mem_cons_self ..) hfirst
    have hopen : scope.lexemes.kindAt i ≠ .lparen := by
      obtain ⟨symbols, hphrased, hspells⟩ := hdeclared.written
      cases hphrased with
      | @declared place type location name =>
        have htype : scope.lexemes.IsPhrase i (.typeName type) type.place.next :=
          hdeclared.right_below (List.mem_cons_self ..) (List.mem_cons_self ..) hspells.1.1
        intro hk
        have := htype.beginsType
        rw [hk] at this
        cases this
    refine .bind .position <| .bind (.eat_not hopen) <|
      .bind (variableDeclaration_reads hi hd hdeclared) ?_
    cases initial with
    | none =>
      obtain rfl : declared.place.next = m := hinitial
      exact .bind (.eat_not (by rw [hsemi]; decide)) <| .bind .pure <|
        .bind (.expect (by decide) hsemi) <| .bind .extentFrom .pure
    | some e =>
      obtain ⟨⟨-, heq⟩, ⟨hvalue, -⟩, rfl⟩ := hinitial
      have he : scope.lexemes.IsPhrase (declared.place.next + 1) (.expression e) e.place.next :=
        h.right_below (List.mem_cons_of_mem _ (List.mem_cons_self ..)) (List.mem_cons_self ..)
          hvalue
      have hwhole : e.IsWhole := h.tight _ (List.mem_cons_of_mem _ (List.mem_cons_self ..)) _
        (List.mem_cons_self ..)
      have hlt := hdeclared.lt
      exact .bind (.eat (by decide) heq) <|
        .bind (.map (expression_reads_phrase hi (by omega)
          ⟨he, hwhole, .of_ends hsemi (by decide)⟩)) <|
        .bind (.expect (by decide) hsemi) <| .bind .extentFrom .pure
  | @declarationList _ slots value hne =>
    obtain ⟨m, ⟨⟨-, hopen⟩, hslots⟩, ⟨-, hclose⟩, ⟨-, heq⟩, ⟨hvalue, -⟩, ⟨-, hsemi⟩, rfl⟩ :=
      Lexemes.spells_append.mp hspells
    have hle := hslots.inside.1
    have hslot {v n} (hv : some v ∈ slots) (hfirst : v.place.first = n) :
        scope.lexemes.IsPhrase n (.declared v) v.place.next :=
      h.right_below (List.mem_cons_self ..)
        (List.mem_map_of_mem (List.reduceOption_mem_iff.mpr hv)) hfirst
    have he : scope.lexemes.IsPhrase (m + 2) (.expression value) value.place.next :=
      h.right_below (List.mem_cons_of_mem _ (List.mem_cons_self ..)) (List.mem_cons_self ..) hvalue
    have hwhole : value.IsWhole := h.tight _ (List.mem_cons_of_mem _ (List.mem_cons_self ..)) _
      (List.mem_cons_self ..)
    have hread : (Parser.separated (variableSlot inner)).Reads scope (i + 1) slots m := by
      refine .separated hne hslots (by rw [hclose]; decide) ?_
      intro slot hmem n l hn hspells hend
      replace hend : scope.lexemes.kindAt l = .comma ∨ scope.lexemes.kindAt l = .rparen :=
        hend.imp_right fun h => by rw [h, hclose]
      refine .bind .kind ?_
      cases slot with
      | none =>
        obtain rfl : n = l := hspells
        rw [if_pos hend]
        exact .pure
      | some v =>
        obtain ⟨⟨hfirst, -⟩, rfl⟩ := hspells
        have hv := hslot hmem hfirst
        rw [if_neg (by simpa using ⟨hv.kindAt_ne rfl, hv.kindAt_ne rfl⟩)]
        exact .bind (variableDeclaration_reads hi (by omega) hv) .pure
    exact .bind .position <| .bind (.eat (by decide) hopen) <| .bind hread <|
      .bind (.expect (by decide) hclose) <| .bind (.expect (by decide) heq) <|
      .bind (expression_reads_phrase hi (by omega) ⟨he, hwhole, .of_ends hsemi (by decide)⟩) <|
      .bind (.expect (by decide) hsemi) <| .bind .extentFrom .pure

end Nested

end Grammar

/-! ### Every depth -/

namespace Inner

/-- The rules for input nested at most so deeply read what is that close to the end of the input. -/
theorem complete_upTo : (depth : Nat) → (upTo depth).Complete depth
  | 0 => by
    have habsurd {lexemes : Lexemes} {i j : Nat} {part : Part .parsed}
        (hd : lexemes.size < i + 0) (h : lexemes.IsPhrase i part j) : False := by
      have := h.lt
      have := h.le_size
      omega
    exact {
      expression := fun hd h => (habsurd hd h.phrase).elim
      assignment := fun hd h => (habsurd hd h.phrase).elim
      power := fun hd h => (habsurd hd h.phrase).elim
      unary := fun hd h => (habsurd hd h.phrase).elim
      typeName := fun hd h _ => (habsurd hd h).elim }
  | depth + 1 => {
    expression := fun hd h =>
      Grammar.expression_reads_phrase (complete_upTo depth) (Nat.le_of_lt_succ hd) h
    assignment := fun hd h =>
      Grammar.assignment_reads (complete_upTo depth) (Nat.le_of_lt_succ hd) h
    power := fun hd h => Grammar.power_reads (complete_upTo depth) (Nat.le_of_lt_succ hd) h
    unary := fun hd h => Grammar.unary_reads (complete_upTo depth) (Nat.le_of_lt_succ hd) h
    typeName := fun hd h hbracket =>
      Grammar.typeName_reads_phrase (complete_upTo depth) (Nat.le_of_lt_succ hd) h hbracket }

end Inner

end SolidityParser
