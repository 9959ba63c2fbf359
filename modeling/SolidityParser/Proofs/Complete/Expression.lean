import SolidityParser.Proofs.Complete.Operand

/-!
# Expressions are read

Each rule for expressions reads every phrase of the level of the rule that ends where the next token
does not go on with it (`expression_reads_phrase`). A rule that groups to the left reads the
leftmost operand first; that the loop then arrives at the phrase is shown along its left operands.
-/

namespace SolidityParser.Grammar

open SolidityParser.Parser (Reads Rounds)
open Expression (wholeLevel binaryLevel)

variable {inner : Inner} {scope : Scope} {i j k depth : Nat} {e object : Expression Extent}

/-- Each kind of string begins an operand that is one. -/
theorem operand_reads_string (hk : (scope.lexemes.kindAt i).isString = true)
    (h : string.Reads scope i e j) : (operand inner).Reads scope i e j := by
  refine .bind .kind ?_
  generalize scope.lexemes.kindAt i = kind at hk
  unfold Kind.isString at hk
  split at hk <;> first | exact h | cases hk

section Nested

variable (hi : inner.Complete depth) (hd : scope.lexemes.size ≤ i + depth)

include hi hd

/-! ### Operands and what follows them -/

/-- The innermost operand is read, and then all that follows it, one thing at a time. -/
theorem operand_rounds (h : scope.lexemes.IsOperand i e j) :
    ∃ object k, (operand inner).Reads scope i object k ∧
      Rounds scope (suffix? inner) object k e j := by
  induction j using Nat.strongRecOn generalizing e with
  | ind j ih =>
    obtain ⟨hphrase, hlevel⟩ := h
    -- what follows an operand is one more thing than follows within it
    have followed {object : Expression Extent}
        (hobject : [.expression object] ∈ (Part.expression e : Part .parsed).fields)
        (hfirst : object.place.first = i) (hlt : object.place.next < j)
        (htight : object.level = 0 ∨
          object.IsCalledWord ∧ scope.lexemes.kindAt object.place.next = .lparen)
        (hstep : (suffix? inner object).Reads scope object.place.next (some e) j) :
        ∃ object k, (operand inner).Reads scope i object k ∧
          Rounds scope (suffix? inner) object k e j := by
      have hobject' := hphrase.right_below hobject (List.mem_singleton_self _) hfirst
      obtain ⟨first, k, hread, hrounds⟩ := ih _ hlt ⟨hobject', htight⟩
      exact ⟨first, k, hread, hrounds.tail hstep hlt⟩
    -- an operand by itself is read in one go
    have alone (h : (operand inner).Reads scope i e j) : ∃ object k,
        (operand inner).Reads scope i object k ∧ Rounds scope (suffix? inner) object k e j :=
      ⟨e, j, h, .refl e j⟩
    obtain ⟨symbols, hphrased, hspells⟩ := hphrase.written
    cases hphrased with
    | @name place name hname =>
      obtain rfl : place = ⟨i, j⟩ := hphrase.place
      obtain ⟨⟨hne, hk, htext⟩, rfl⟩ := hspells
      have hread := identifier_reads (hk ▸ hne) htext
      have hcalled (h : Kind.ofWord name ≠ .ident) : scope.lexemes.kindAt (i + 1) = .lparen := by
        refine (hlevel.resolve_left fun hzero => ?_).2
        replace hzero : (if Kind.ofWord name = .ident then 0 else wholeLevel + 1) = 0 := hzero
        rw [if_neg h] at hzero
        cases hzero
      refine alone (.bind .kind ?_)
      rcases hname with h | h | h <;> rw [hk, h]
      · exact hread
      · refine .bind .kindAhead ?_
        rw [if_pos ⟨.inl rfl, hcalled (by rw [h]; decide)⟩]
        exact hread
      · refine .bind .kindAhead ?_
        rw [if_pos ⟨.inr rfl, hcalled (by rw [h]; decide)⟩]
        exact hread
    | @number place kind raw hkind =>
      obtain rfl : place = ⟨i, j⟩ := hphrase.place
      obtain ⟨⟨hne, hk, htext⟩, hunit, rfl⟩ := hspells
      have hread := number_reads (hk ▸ hne) htext hunit
      refine alone (.bind .kind ?_)
      rcases hkind with rfl | rfl <;> rw [hk] <;> exact hread
    | @numberWithUnit place kind raw unit hkind hunit =>
      obtain rfl : place = ⟨i, j⟩ := hphrase.place
      obtain ⟨⟨hne, hk, htext⟩, ⟨-, hident, hword⟩, rfl⟩ := hspells
      have hahead : scope.lexemes.Ahead (i + 1) .unit :=
        Lexemes.ahead_unit.mpr ⟨hident, by rwa [hword]⟩
      have hread := number_reads_unit (hk ▸ hne) htext hahead hword
      refine alone (.bind .kind ?_)
      rcases hkind with rfl | rfl <;> rw [hk] <;> exact hread
    | @string place first more hall =>
      obtain rfl : place = ⟨i, j⟩ := hphrase.place
      refine alone (operand_reads_string ?_ (string_reads hall hspells))
      rw [hspells.1.2.1]
      exact hall first (by simp)
    | @boolean place value =>
      obtain rfl : place = ⟨i, j⟩ := hphrase.place
      obtain ⟨⟨hne, hk⟩, rfl⟩ := hspells
      have hread := @boolean_reads scope i value (hk ▸ hne)
      refine alone (.bind .kind ?_)
      cases value <;> rw [hk] <;> exact hread
    | @tuple place components hne =>
      obtain rfl : place = ⟨i, j⟩ := hphrase.place
      refine alone (.bind .kind ?_)
      rw [hspells.1.2]
      exact tuple_reads hi hd hphrase hne hspells
    | @array place values =>
      obtain rfl : place = ⟨i, j⟩ := hphrase.place
      refine alone (.bind .kind ?_)
      rw [hspells.1.2]
      exact array_reads hi hd hphrase hspells
    | @new place type =>
      obtain rfl : place = ⟨i, j⟩ := hphrase.place
      refine alone (.bind .kind ?_)
      rw [hspells.1.2]
      exact newExpression_reads hi hd hphrase hspells
    | @member place object property =>
      obtain rfl : place = ⟨i, j⟩ := hphrase.place
      exact followed (List.mem_cons_self ..) hspells.1.1 hspells.2.2.inside.1
        (.inl hphrase.tight) (member_reads hphrase hspells)
    | @index place object bound =>
      obtain rfl : place = ⟨i, j⟩ := hphrase.place
      exact followed (List.mem_cons_self ..) hspells.1.1 hspells.2.2.inside.1
        (.inl hphrase.tight.1) (index_reads hi hd hphrase hspells)
    | @slice place object first last =>
      obtain rfl : place = ⟨i, j⟩ := hphrase.place
      have hspells' := hspells
      rw [List.append_assoc] at hspells'
      exact followed (List.mem_cons_self ..) hspells'.1.1 hspells'.2.2.inside.1
        (.inl hphrase.tight.1) (slice_reads hi hd hphrase hspells)
    | @call place callee values =>
      obtain rfl : place = ⟨i, j⟩ := hphrase.place
      exact followed (List.mem_cons_self ..) hspells.1.1 hspells.2.2.inside.1
        (hphrase.tight.1.imp_right fun h => ⟨h, hspells.2.1.2⟩) (call_reads hi hd hphrase hspells)
    | @callByName place callee values =>
      obtain rfl : place = ⟨i, j⟩ := hphrase.place
      exact followed (List.mem_cons_self ..) hspells.1.1 hspells.2.2.inside.1
        (hphrase.tight.1.imp_right fun h => ⟨h, hspells.2.1.2⟩)
        (call_reads_named hi hd hphrase hspells)
    | @callOptions place callee options hne =>
      obtain rfl : place = ⟨i, j⟩ := hphrase.place
      exact followed (List.mem_cons_self ..) hspells.1.1 hspells.2.2.inside.1
        (.inl hphrase.tight) (callOptions_reads hi hd hne hphrase hspells)
    | @after place operator argument htrailing =>
      obtain rfl : place = ⟨i, j⟩ := hphrase.place
      exact followed (List.mem_cons_self ..) hspells.1.1 hspells.2.2.inside.1
        (.inl hphrase.tight) (trailingOperator_reads htrailing hspells)
    | before | assignment | conditional => exact (hlevel.elim nofun fun h => h.1.elim)
    | @binary place operator left right =>
      refine (hlevel.elim (fun h => ?_) fun h => h.1.elim)
      unfold Expression.level at h
      cases operator <;> cases h

omit hi hd in
/-- Nothing follows where the next token goes on with no operand. -/
theorem suffix?_reads_stop (h : scope.lexemes.Stops 0 j) :
    (suffix? inner object).Reads scope j none j := by
  refine .bind .kind ?_
  obtain ⟨⟨⟨hdot, hbracket, hparen⟩, htrailing, -⟩, hoptions⟩ := h
  rw [Lexemes.ahead_options] at hoptions
  split
  · next hk => exact absurd hk hdot
  · next hk => exact absurd hk hbracket
  · next hk => exact absurd hk hparen
  · next hk =>
    refine .bind .kindAhead <| .bind .kindAhead ?_
    rw [if_neg fun hand => hoptions ⟨hk, hand⟩]
    exact .pure
  · rw [htrailing]
    exact .pure

/-- An operand is read with all that follows it. -/
theorem postfixed_reads (h : scope.lexemes.IsPhrase i (.expression e) j) (hlevel : e.level = 0)
    (hstops : scope.lexemes.Stops 0 j) : (postfixed inner).Reads scope i e j := by
  obtain ⟨object, k, hoperand, hrounds⟩ := operand_rounds hi hd ⟨h, .inl hlevel⟩
  exact hoperand.bind (.iterate hrounds (suffix?_reads_stop hstops) h.le_size)

/-! ### Operators -/

/-- What is read as an operand begins with no operator. -/
theorem leading?_eq_none (h : scope.lexemes.IsPhrase i (.expression e) j)
    (hlevel : e.level = 0) : UnaryOp.leading? (scope.lexemes.kindAt i) = none := by
  obtain ⟨object, k, hoperand, -⟩ := operand_rounds hi hd ⟨h, .inl hlevel⟩
  cases hbegins : beginsOperand (scope.lexemes.kindAt i) with
  | false =>
    obtain ⟨_, _, hfails⟩ := operand_fails inner hbegins {}
    obtain ⟨_, hreads⟩ := hoperand {}
    rw [hreads] at hfails
    cases hfails
  | true =>
    generalize scope.lexemes.kindAt i = kind at hbegins
    unfold beginsOperand at hbegins
    split at hbegins <;> first | rfl | cases hbegins

/-- So is one with operators in front of it. -/
theorem unary_reads (h : scope.lexemes.IsRead 1 i e j) : (unary inner).Reads scope i e j := by
  refine .bind .kind ?_
  rcases Nat.eq_or_lt_of_le h.level_le with hlevel | hlt
  · obtain ⟨place, operator, argument, rfl⟩ := Expression.unary_of_level hlevel
    obtain ⟨symbols, hphrased, hspells⟩ := h.phrase.written
    cases hphrased
    obtain ⟨⟨hne, hk⟩, ⟨hfirst, -⟩, hnext⟩ := hspells
    obtain rfl : place = ⟨i, j⟩ := h.place
    have hargument : scope.lexemes.IsPhrase (i + 1) (.expression argument) j :=
      hnext ▸ h.phrase.right_below (List.mem_singleton_self _) (List.mem_singleton_self _) hfirst
    have hread := hi.unary (by omega) ⟨hargument, h.phrase.tight, h.stops⟩
    rw [hk, show UnaryOp.leading? operator.kind = some operator by cases operator <;> rfl]
    refine .bind .position <| .bind (.advance (hk ▸ hne)) <| .bind hread ?_
    rw [show argument.place.next = j from hnext]
    exact .pure
  · have hzero : e.level = 0 := by omega
    rw [leading?_eq_none hi hd h.phrase hzero]
    exact postfixed_reads hi hd h.phrase hzero (h.stops.mono (by decide))

omit hi hd in
/-- The operands of a binary operator, and what stands between. -/
theorem binary_operands {place : Extent} {operator : BinaryOp} {left right : Expression Extent}
    (h : scope.lexemes.IsPhrase i (.expression (.binary place operator left right)) j) :
    ∃ k, scope.lexemes.IsPhrase i (.expression left) k ∧ k < j ∧
      scope.lexemes.kindAt k = operator.kind ∧
      scope.lexemes.IsPhrase (k + 1) (.expression right) j ∧
      applied operator left right = .binary place operator left right := by
  obtain ⟨symbols, hphrased, hspells⟩ := h.written
  cases hphrased
  obtain ⟨⟨hfirst, -⟩, ⟨-, hk⟩, ⟨hright, -⟩, hnext⟩ := hspells
  have hleft : scope.lexemes.IsPhrase i (.expression left) left.place.next :=
    h.right_below (List.mem_cons_self ..) (List.mem_cons_self ..) hfirst
  have hright : scope.lexemes.IsPhrase (left.place.next + 1) (.expression right) j :=
    hnext ▸ h.right_below (List.mem_cons_of_mem _ (List.mem_cons_self ..)) (List.mem_cons_self ..)
      hright
  refine ⟨left.place.next, hleft, ?_, hk, hright, ?_⟩
  · have := hright.lt
    omega
  · rw [applied, Extent.upTo, hfirst, show right.place.next = j from hnext,
      show place = ⟨i, j⟩ from h.place]

/-- A power is read, with a power on its right. -/
theorem power_reads (h : scope.lexemes.IsRead 2 i e j) : (power inner).Reads scope i e j := by
  rcases Nat.eq_or_lt_of_le h.level_le with hlevel | hlt
  · obtain ⟨place, base, exponent, rfl⟩ := Expression.pow_of_level hlevel
    obtain ⟨k, hbase, -, hk, hexponent, happlied⟩ := binary_operands h.phrase
    have hread := unary_reads hi hd ⟨hbase, h.phrase.tight.1,
      .of_kind (hk ▸ .of_power (by decide)) (by rw [hk]; decide)⟩
    have hlt := hbase.lt
    have hread' := hi.power (by omega) ⟨hexponent, h.phrase.tight.2, h.stops⟩
    refine .bind hread <| .kindIf hk <| .bind (.advance (by rw [hk]; decide)) <| .bind hread' ?_
    rw [happlied]
    exact .pure
  · exact .bind (unary_reads hi hd ⟨h.phrase, by omega, h.stops.mono (by decide)⟩) <|
      .kindElse (h.stops.kind.power (by decide)) .pure

omit hi in
/-- The rounds of a level that lead to an expression of it, from the leftmost operand on. -/
theorem binary_rounds {level : Nat} (hlevel : level < BinaryOp.levels)
    (operand : ∀ {i e j}, scope.lexemes.size ≤ i + depth →
      scope.lexemes.IsRead (level + 2) i e j → (binary inner level).Reads scope i e j)
    (h : scope.lexemes.IsPhrase i (.expression e) j) (hle : e.level ≤ binaryLevel level)
    (hstops : scope.lexemes.Stops (level + 2) j) :
    ∃ first k, (binary inner level).Reads scope i first k ∧
      Rounds scope (fun left => do
        match BinaryOp.ofKind? level (← Parser.kind) with
        | none => return none
        | some operator =>
          Parser.advance
          return some (applied operator left (← binary inner level))) first k e j := by
  induction j using Nat.strongRecOn generalizing e with
  | ind j ih =>
    rcases Nat.eq_or_lt_of_le hle with heq | hlt
    · have hlast : binaryLevel level < wholeLevel := by
        unfold binaryLevel wholeLevel
        unfold BinaryOp.levels at hlevel
        omega
      obtain ⟨place, operator, left, right, rfl, hoperator⟩ :=
        Expression.binary_of_level hlast heq
      have htight : left.level ≤ binaryLevel level ∧ right.level < binaryLevel level :=
        (Expression.tight_binary hoperator place left right).mp h.tight
      obtain ⟨k, hleft, hlt, hk, hright, happlied⟩ := binary_operands h
      have hbetween : scope.lexemes.Stops (level + 2) k := by
        refine .of_kind (hk ▸ .of_binary hoperator (Nat.lt_succ_self _)) ?_
        rw [hk]
        cases operator <;> decide
      obtain ⟨first, l, hread, hrounds⟩ := ih k hlt hleft htight.1 hbetween
      refine ⟨first, l, hread, hrounds.tail (.bind .kind ?_) hlt⟩
      have hfrom := hleft.lt
      have hread' := operand (by omega) ⟨hright, Nat.le_of_lt_succ htight.2, hstops⟩
      rw [BinaryOp.ofKind?_eq_some.mpr ⟨hk.symm, hoperator⟩, ← happlied]
      refine .bind (.advance ?_) <| .bind hread' .pure
      rw [hk]
      cases operator <;> decide
    · exact ⟨e, j, operand hd ⟨h, Nat.le_of_lt_succ hlt, hstops⟩, .refl e j⟩

/-- The operators of a level are read from left to right, those of tighter levels between them. -/
theorem binary_reads {level : Nat} (hlevel : level ≤ BinaryOp.levels)
    (h : scope.lexemes.IsRead (level + 2) i e j) : (binary inner level).Reads scope i e j := by
  induction level generalizing i e j with
  | zero => exact power_reads hi hd h
  | succ level ih =>
    obtain ⟨first, k, hread, hrounds⟩ := binary_rounds hd hlevel
      (fun hd => ih hd (Nat.le_of_succ_le hlevel)) h.phrase h.level_le (h.stops.mono (by omega))
    refine hread.bind (.iterate hrounds (.bind .kind ?_) h.phrase.le_size)
    rw [h.stops.kind.binary level (Nat.le_refl _)]
    exact .pure

/-- What is no choice, and no assignment, is read up to where neither goes on. -/
theorem conditional_reads (h : scope.lexemes.IsRead (BinaryOp.levels + 2) i e j)
    (hquestion : scope.lexemes.kindAt j ≠ .question) : (conditional inner).Reads scope i e j :=
  .bind (binary_reads hi hd (Nat.le_refl _) h) <| .kindElse hquestion .pure

/-- An assignment is read, or a choice, or what is tighter. -/
theorem assignment_reads (h : scope.lexemes.IsRead wholeLevel i e j) :
    (assignment inner).Reads scope i e j := by
  have hassign := h.stops.kind.assign (Nat.le_refl _)
  rcases Nat.eq_or_lt_of_le h.level_le with hlevel | hlt
  · rcases Expression.of_wholeLevel hlevel with
      ⟨place, operator, left, right, rfl⟩ | ⟨place, test, consequent, alternate, rfl⟩
    · obtain ⟨symbols, hphrased, hspells⟩ := h.phrase.written
      obtain rfl : place = ⟨i, j⟩ := h.place
      cases hphrased
      obtain ⟨⟨hfirst, -⟩, ⟨hne, hk⟩, ⟨hright, -⟩, hnext⟩ := hspells
      have hleft : scope.lexemes.IsPhrase i (.expression left) left.place.next :=
        h.phrase.right_below (List.mem_cons_self ..) (List.mem_cons_self ..) hfirst
      have hright : scope.lexemes.IsPhrase (left.place.next + 1) (.expression right) j :=
        hnext ▸ h.phrase.right_below (List.mem_cons_of_mem _ (List.mem_cons_self ..))
          (List.mem_cons_self ..) hright
      have hlt := hleft.lt
      have hread := conditional_reads hi hd
        ⟨hleft, Nat.le_of_lt_succ h.phrase.tight.1, .of_kind (hk ▸ .of_assign (by decide)) (by
          rw [hk]; cases operator <;> decide)⟩ (by rw [hk]; cases operator <;> decide)
      have hread' := hi.assignment (by omega) ⟨hright, h.phrase.tight.2, h.stops⟩
      refine .bind hread <| .bind .kind ?_
      rw [hk, show AssignOp.ofKind? operator.kind = some operator by cases operator <;> rfl]
      refine .bind (.advance (hk ▸ hne)) <| .bind hread' ?_
      rw [Extent.upTo, hfirst, show right.place.next = j from hnext]
      exact .pure
    · obtain ⟨symbols, hphrased, hspells⟩ := h.phrase.written
      obtain rfl : place = ⟨i, j⟩ := h.place
      cases hphrased
      obtain ⟨⟨hfirst, -⟩, ⟨-, hk⟩, ⟨hconsequent, -⟩, ⟨-, hcolon⟩, ⟨halternate, -⟩, hnext⟩ :=
        hspells
      have htest : scope.lexemes.IsPhrase i (.expression test) test.place.next :=
        h.phrase.right_below (List.mem_cons_self ..) (List.mem_cons_self ..) hfirst
      have hconsequent : scope.lexemes.IsPhrase (test.place.next + 1) (.expression consequent)
          consequent.place.next :=
        h.phrase.right_below (List.mem_cons_of_mem _ (List.mem_cons_self ..))
          (List.mem_cons_self ..) hconsequent
      have halternate : scope.lexemes.IsPhrase (consequent.place.next + 1)
          (.expression alternate) j :=
        hnext ▸ h.phrase.right_below (List.mem_cons_of_mem _ (List.mem_cons_of_mem _
          (List.mem_cons_self ..))) (List.mem_cons_self ..) halternate
      have hlt := htest.lt
      have hlt' := hconsequent.lt
      obtain ⟨htestLevel, hconsequentWhole, halternateWhole⟩ := h.phrase.tight
      have hread := binary_reads hi hd (Nat.le_refl _) ⟨htest, Nat.le_of_lt_succ htestLevel,
        .of_kind (hk ▸ .of_question (by decide)) (by rw [hk]; decide)⟩
      have hread' := hi.assignment (by omega)
        ⟨hconsequent, hconsequentWhole, .of_ends hcolon (by decide)⟩
      have hread'' := hi.assignment (by omega) ⟨halternate, halternateWhole, h.stops⟩
      have hchoice : (conditional inner).Reads scope i (.conditional ⟨i, j⟩ test consequent
          alternate) j := by
        refine .bind hread <| .kindIf hk <| .bind (.advance (by rw [hk]; decide)) <|
          .bind hread' <| .bind (.expect (by decide) hcolon) <| .bind hread'' ?_
        rw [Extent.upTo, hfirst, show alternate.place.next = j from hnext]
        exact .pure
      refine .bind hchoice <| .bind .kind ?_
      rw [hassign]
      exact .pure
  · refine .bind (conditional_reads hi hd ⟨h.phrase, Nat.le_of_lt_succ hlt,
      h.stops.mono (by decide)⟩ (h.stops.kind.question (Nat.le_refl _))) <| .bind .kind ?_
    rw [hassign]
    exact .pure

/-- An expression is read. -/
theorem expression_reads_phrase (h : scope.lexemes.IsRead wholeLevel i e j) :
    (expression inner).Reads scope i e j :=
  .named (assignment_reads hi hd h)

end Nested

end SolidityParser.Grammar
