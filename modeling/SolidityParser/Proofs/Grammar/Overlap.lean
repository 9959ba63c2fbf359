import SolidityParser.Proofs.Grammar.Boundary
import SolidityParser.Proofs.Grammar.Depth
import SolidityParser.Proofs.Parser.Loops

/-!
# Types read as expressions

A declaration and an expression may begin alike: a path with brackets after it is a type and an
expression. What tells them apart is what comes next. A declaration goes on with a data location or
a name, and there no expression can go on; so an expression that begins where the type does ends
right there, or before the word `payable` (`expression_ends_at_type`).

The rounds of the type are followed with rounds of the suffixes of an operand. The lengths of arrays
are expressions that either reading has at a level of its own, so both levels have to be deep
enough.
-/

namespace SolidityParser.Grammar

open SolidityParser.Parser (Reads Rounds)

variable {scope : Scope} {i j k : Nat}

/-! ### After a type -/

/-- The kinds that come after a type in a declaration, and `payable`, which may belong to it. -/
def followsType (kind : Kind) : Bool :=
  kind matches .ident | .kwMemory | .kwStorage | .kwCalldata | .kwPayable

/-- No expression goes on after a type. -/
theorem endsExpression_of_followsType {k : Kind} (h : followsType k = true) :
    EndsExpression k := by
  unfold followsType at h
  split at h <;> first
    | exact ⟨by decide, rfl, by decide, ofKind?_eq_none fun op => by cases op <;> decide,
        by decide, rfl⟩
    | cases h

/-! ### Suffixes -/

section Suffixes

variable {inner : Inner} {object : Expression Extent}

/-- A point and a name. -/
theorem suffix?_reads_member (hdot : scope.lexemes.kindAt i = .dot)
    (hname : scope.lexemes.kindAt (i + 1) = .ident) :
    (suffix? inner object).Reads scope i
      (some (.member (object.place.upTo (Extent.single (i + 1))) object
        ⟨Extent.single (i + 1), scope.lexemes.textAt (i + 1)⟩)) (i + 2) := by
  have hmember : (member object).Reads scope i _ (i + 2) :=
    .bind (.advance (by rw [hdot]; decide)) <| .bind (.expectIdent hname) .pure
  refine .bind .kind ?_
  rw [hdot]
  exact .bind hmember .pure

/-- Brackets with nothing between. -/
theorem suffix?_reads_empty (hopen : scope.lexemes.kindAt i = .lbracket)
    (hclose : scope.lexemes.kindAt (i + 1) = .rbracket) :
    (suffix? inner object).Reads scope i (some (.index ⟨object.place.first, i + 2⟩ object none))
      (i + 2) := by
  have hsubscript : (subscript inner object).Reads scope i _ (i + 2) :=
    .bind (.advance (by rw [hopen]; decide)) <| .eatIf (by decide) hclose <| .bind .extentFrom .pure
  refine .bind .kind ?_
  rw [hopen]
  exact .bind hsubscript .pure

/-- Brackets with an expression between. -/
theorem suffix?_reads_index {value : Expression Extent} (hopen : scope.lexemes.kindAt i = .lbracket)
    (hsome : scope.lexemes.kindAt (i + 1) ≠ .rbracket)
    (hcolon : scope.lexemes.kindAt (i + 1) ≠ .colon)
    (hvalue : inner.expression.Reads scope (i + 1) value j)
    (hclose : scope.lexemes.kindAt j = .rbracket) :
    (suffix? inner object).Reads scope i
      (some (.index ⟨object.place.first, j + 1⟩ object (some value))) (j + 1) := by
  have hbound : (bound? inner .colon).Reads scope (i + 1) (some value) j :=
    .kindElse hcolon <| .bind hvalue .pure
  have hsubscript : (subscript inner object).Reads scope i _ (j + 1) :=
    .bind (.advance (by rw [hopen]; decide)) <| .eatElse hsome <| .bind hbound <|
      .eatElse (by rw [hclose]; decide) <| .bind (.expect (by decide) hclose) <|
      .bind .extentFrom .pure
  refine .bind .kind ?_
  rw [hopen]
  exact .bind hsubscript .pure

end Suffixes

/-! ### Paths and arrays -/

variable {depth depth' : Nat} {object : Expression Extent}

/-- The path of a declared type is read as members of members. -/
theorem pathTail_rounds {inner : Inner} {path path' : String}
    (h : (pathTail path).Gives scope i path' j) :
    ∃ v, Rounds scope (suffix? inner) object i v j := by
  obtain ⟨n, ⟨v, hrounds⟩, hlast⟩ := h.iterate
    (P := fun _ n => ∃ v, Rounds scope (suffix? inner) object i v n) ⟨object, .refl object i⟩ <| by
      rintro _ n _ m ⟨v, hrounds⟩ hstep
      replace hstep := hstep.kind.kindAhead
      split at hstep
      · next hand =>
        obtain ⟨-, rfl⟩ :=
          ((hstep.advance (by rw [hand.1]; decide)).text.advance (by rw [hand.2]; decide)).pure
        exact ⟨_, hrounds.tail (suffix?_reads_member hand.1 hand.2) (by omega)⟩
      · cases hstep.pure.1
  replace hlast := hlast.kind.kindAhead
  split at hlast
  · next hand =>
    cases ((hlast.advance (by rw [hand.1]; decide)).text.advance (by rw [hand.2]; decide)).pure.1
  · obtain rfl := hlast.pure.2
    exact ⟨v, hrounds⟩

/-- No expression begins with a colon. -/
theorem kindAt_ne_colon {v : Expression Extent}
    (h : (Inner.upTo depth).expression.Gives scope i v j) : scope.lexemes.kindAt i ≠ .colon := by
  intro hcolon
  cases depth with
  | zero => exact h.fail
  | succ depth =>
    exact h.not_fails (expression_fails (.upTo depth) (by rw [hcolon]; rfl) (by rw [hcolon]; rfl))

/-- The brackets of an array type are read as subscripts. -/
theorem arraySuffixes_rounds {start : Nat} {base type : TypeName Extent}
    (hd : scope.lexemes.size ≤ i + depth) (hd' : scope.lexemes.size ≤ i + depth')
    (h : (arraySuffixes (.upTo depth) start base).Gives scope i type j) :
    ∃ v, Rounds scope (suffix? (.upTo depth')) object i v j := by
  obtain ⟨n, ⟨v, hrounds⟩, hlast⟩ := h.decided.iterate
    (P := fun _ n => ∃ v, Rounds scope (suffix? (.upTo depth')) object i v n)
    ⟨object, .refl object i⟩ <| by
      rintro _ n _ m ⟨v, hrounds⟩ hstep
      have hle := hrounds.le
      rcases hstep.kindIf with ⟨hopen, hstep⟩ | ⟨-, hstep⟩
      · have hopen' : scope.lexemes.kindAt n ≠ .eof := by rw [hopen]; decide
        have hsize := Lexemes.lt_size_of_kindAt hopen'
        rcases (hstep.advance hopen').eatIf (by decide) with ⟨hclose, hstep⟩ | ⟨hsome, hstep⟩
        · obtain ⟨-, rfl⟩ := hstep.extentFrom.pure
          exact ⟨_, hrounds.tail (suffix?_reads_empty hopen hclose) (by omega)⟩
        · obtain ⟨length, k, hlength, hstep⟩ := hstep.bind
          obtain ⟨hclose, hstep⟩ := hstep.expect (by decide)
          obtain ⟨-, rfl⟩ := hstep.extentFrom.pure
          have hread : (Inner.upTo depth').expression.Reads scope (n + 1) length k :=
            Inner.expression_reads (by omega) (by omega) (by omega) rfl hlength
          have hforth := hlength.le ((Inner.built_upTo depth).expression {}).steady
          exact ⟨_, hrounds.tail (suffix?_reads_index hopen hsome (kindAt_ne_colon hlength) hread
            hclose) (by omega)⟩
      · cases hstep.pure.1
  rcases hlast.kindIf with ⟨hopen, hlast⟩ | ⟨-, hlast⟩
  · rcases (hlast.advance (by rw [hopen]; decide)).eatIf (by decide) with ⟨-, hlast⟩ | ⟨-, hlast⟩
    · cases hlast.extentFrom.pure.1
    · obtain ⟨length, k, -, hlast⟩ := hlast.bind
      cases (hlast.expect (by decide)).2.extentFrom.pure.1
  · obtain rfl := hlast.pure.2
    exact ⟨v, hrounds⟩

/-! ### Types -/

/-- The word `payable` stands after a type, or the type ends with its name. -/
theorem payableAfter_ends {name : String} {payable : Bool}
    (h : (payableAfter name).Gives scope i payable j) :
    scope.lexemes.kindAt i = .kwPayable ∨ j = i := by
  unfold payableAfter at h
  split at h
  · rw [← bind_pure (Parser.eat .kwPayable)] at h
    rcases h.eat (by decide) with ⟨hpayable, -⟩ | ⟨-, h⟩
    · exact .inl hpayable
    · exact .inr h.pure.2
  · exact .inr h.pure.2

/-- A name that begins a type is read with its path, or ends before `payable`. -/
theorem namedType_rounds {inner : Inner} {type : TypeName Extent}
    (h : namedType.Gives scope i type j) : scope.lexemes.kindAt i = .ident ∧
      (scope.lexemes.kindAt (i + 1) = .kwPayable ∨
        ∃ v, Rounds scope (suffix? inner) object (i + 1) v j) := by
  obtain ⟨hname, h⟩ := h.opening
  refine ⟨hname, ?_⟩
  replace h := h.taking (by rw [hname]; decide)
  split at h
  · obtain ⟨payable, n, hpayable, h⟩ := h.bind
    obtain ⟨-, rfl⟩ := h.extentFrom.pure
    rcases payableAfter_ends hpayable with hpayable | rfl
    · exact .inl hpayable
    · exact .inr ⟨object, .refl object _⟩
  · obtain ⟨path, n, hpath, h⟩ := h.bind
    obtain ⟨-, rfl⟩ := h.extentFrom.pure
    exact .inr (pathTail_rounds hpath)

/-- An expression that begins where a type does ends where no expression can go on, but a
declaration might. -/
theorem expression_ends_at_type {type : TypeName Extent} {v : Expression Extent}
    (hd : scope.lexemes.size ≤ i + depth) (hd' : scope.lexemes.size ≤ i + depth')
    (htype : (typeName (.upTo depth)).Gives scope i type j)
    (hj : followsType (scope.lexemes.kindAt j) = true)
    (h : (expression (.upTo depth')).Gives scope i v k) :
    followsType (scope.lexemes.kindAt k) = true := by
  have hread {n : Nat} {w : Expression Extent} (hi : scope.lexemes.kindAt i = .ident)
      (hpostfixed : (postfixed (.upTo depth')).Reads scope i w n)
      (hn : followsType (scope.lexemes.kindAt n) = true) :
      followsType (scope.lexemes.kindAt k) := by
    have hwhole := expression_reads (.upTo depth') (by rw [hi]; rfl) hpostfixed
      (endsExpression_of_followsType hn)
    rwa [(h.eq_of_reads hwhole).2]
  obtain ⟨base, n, hbase, hsuffixes⟩ := htype.of_named.followedBy
  rcases hbase.elim with hnamed | ⟨-, hbase⟩
  · let name : Expression Extent := .identifier (Extent.single i) (scope.lexemes.textAt i)
    obtain ⟨hi, hpayable | ⟨w, hpath⟩⟩ := @namedType_rounds _ _ _ name (.upTo depth') _ hnamed
    · have hends : followsType (scope.lexemes.kindAt (i + 1)) = true := by rw [hpayable]; rfl
      refine hread hi (.bind (operand_reads_name _ hi) (.iterate_none ?_)) hends
      exact suffix?_reads_none _ (endsExpression_of_followsType hends)
    · have hle := hpath.le
      obtain ⟨w', harrays⟩ : ∃ w', Rounds scope (suffix? (.upTo depth')) w n w' j :=
        arraySuffixes_rounds (by omega) (by omega) hsuffixes
      have hends := endsExpression_of_followsType hj
      have hne : scope.lexemes.kindAt j ≠ .eof := by
        intro heof
        rw [heof] at hj
        cases hj
      have hsize := Lexemes.lt_size_of_kindAt hne
      exact hread hi (.bind (operand_reads_name _ hi) (.iterate (hpath.trans harrays)
        (suffix?_reads_none _ hends) (Nat.le_of_lt hsize))) hj
  · -- the other types begin with keywords that begin no expression
    have hfails (hkind : scope.lexemes.kindAt i = .kwMapping ∨
        scope.lexemes.kindAt i = .kwFunction) : False := by
      refine h.not_fails (expression_fails _ ?_ ?_) <;> rcases hkind with hkind | hkind <;>
        rw [hkind] <;> rfl
    rcases hbase.elim with hmapping | ⟨-, hbase⟩
    · exact (hfails (.inl hmapping.opening.1)).elim
    · rcases hbase.elim with hfunction | ⟨-, hnone⟩
      · exact (hfails (.inr hfunction.opening.1)).elim
      · exact hnone.none.elim

end SolidityParser.Grammar
