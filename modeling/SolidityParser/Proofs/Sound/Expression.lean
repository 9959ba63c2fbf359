import SolidityParser.Proofs.Sound.Operand

/-!
# What the rules for expressions read

Each rule for expressions reads a phrase of the level of the rule, and stops where the next token
does not go on with it (`expression_isRead`). The loops keep this of what they have read so far.
-/

namespace SolidityParser

/-! ### Stopping one level further out -/

namespace Kind.Stops

variable {kind : Kind} {level : Nat}

/-- What follows no operand stops operands with operators before them. -/
theorem unary (h : kind.Stops 0) : kind.Stops 1 :=
  ⟨h.bracket, h.trailing, fun h => by omega,
    fun l h => by unfold Expression.binaryLevel at h; omega,
    fun h => by unfold Expression.wholeLevel at h; omega,
    fun h => by unfold Expression.wholeLevel at h; omega⟩

/-- What is no `**` stops powers if it stops their bases. -/
theorem powers (h : kind.Stops 1) (hpow : kind ≠ .starStar) : kind.Stops 2 :=
  ⟨h.bracket, h.trailing, fun _ => hpow,
    fun l h => by unfold Expression.binaryLevel at h; omega,
    fun h => by unfold Expression.wholeLevel at h; omega,
    fun h => by unfold Expression.wholeLevel at h; omega⟩

/-- What is no operator of a level stops what is read at it, if it stops the operands. -/
theorem operators (hlevel : level < BinaryOp.levels) (h : kind.Stops (level + 2))
    (hnone : BinaryOp.ofKind? level kind = none) : kind.Stops (Expression.binaryLevel level) := by
  unfold BinaryOp.levels at hlevel
  unfold Expression.binaryLevel
  refine ⟨h.bracket, h.trailing, fun _ => h.power (by omega), fun l hl => ?_,
    fun h => by unfold Expression.wholeLevel at h; omega,
    fun h => by unfold Expression.wholeLevel at h; omega⟩
  unfold Expression.binaryLevel at hl
  rcases Nat.eq_or_lt_of_le hl with heq | hlt
  · obtain rfl : l = level := by omega
    exact hnone
  · exact h.binary l (by unfold Expression.binaryLevel; omega)

/-- What begins no choice and no assignment stops whole expressions, if it stops what they are made
of. -/
theorem whole (h : kind.Stops (BinaryOp.levels + 2)) (hquestion : kind ≠ .question)
    (hassign : AssignOp.ofKind? kind = none) : kind.Stops Expression.wholeLevel := by
  refine ⟨h.bracket, h.trailing, fun _ => h.power (by decide), fun l _ => ?_,
    fun _ => hquestion, fun _ => hassign⟩
  cases hop : BinaryOp.ofKind? l kind with
  | none => rfl
  | some operator =>
    have hl := BinaryOp.level?_lt (BinaryOp.ofKind?_eq_some.mp hop).2
    have := h.binary l (by unfold Expression.binaryLevel; omega)
    rw [this] at hop
    cases hop

end Kind.Stops

namespace Grammar

open Lexemes (IsPhrase IsRead Stops)
open Expression (wholeLevel binaryLevel)

variable {inner : Inner} {scope : Scope} {i j k : Nat} {e object : Expression Extent}

variable (hi : inner.Sound) (hw : scope.lexemes.WellSpelled)

include hi hw

/-! ### Operands and what follows them -/

/-- What is read as an operand is one, or a word that has to be called. -/
theorem operand_isOperand (h : (operand inner).Gives scope i e j) :
    scope.lexemes.IsOperand i e j := by
  replace h := h.kind
  split at h
  · next hk =>
    obtain ⟨rfl, rfl, hphrase⟩ := identifier_isPhrase hw (.inl hk) h
    exact ⟨hphrase, .inl (if_pos ((hw i (.inl hk)).trans hk))⟩
  · next hk => exact (number_isPhrase (.inl hk) h).imp_right .inl
  · next hk => exact (number_isPhrase (.inr hk) h).imp_right .inl
  · next hk => exact (string_isPhrase (by rw [hk]; rfl) h).imp_right .inl
  · next hk => exact (string_isPhrase (by rw [hk]; rfl) h).imp_right .inl
  · next hk => exact (string_isPhrase (by rw [hk]; rfl) h).imp_right .inl
  · next hk => exact (boolean_isPhrase hk h).imp_right .inl
  · next hk => exact (boolean_isPhrase hk h).imp_right .inl
  · next hk => exact (tuple_isPhrase hi hw hk h).imp_right .inl
  · next hk => exact (array_isPhrase hi hw hk h).imp_right .inl
  · next hk => exact (newExpression_isPhrase hi hw hk h).imp_right .inl
  · replace h := h.kindAhead
    split at h
    · next hk =>
      have hword := hw i (.inr hk.1)
      obtain ⟨rfl, rfl, hphrase⟩ := identifier_isPhrase hw (.inr hk.1) h
      refine ⟨hphrase, .inr ⟨?_, hk.2⟩⟩
      intro hident
      rcases hk.1 with hk | hk <;> rw [hword, hk] at hident <;> cases hident
    · obtain ⟨_, _, -, h⟩ := h.bind
      exact h.within.fail.elim

/-- With what follows it, it is an operand. -/
theorem suffix?_isPhrase (hobject : scope.lexemes.IsOperand i object j)
    (h : (suffix? inner object).Gives scope j (some e) k) :
    scope.lexemes.IsPhrase i (.expression e) k ∧ e.level = 0 := by
  obtain ⟨hphrase, hlevel⟩ := hobject
  -- the words that are called bind as tightly as any unless it is a call that follows
  have htight (hk : scope.lexemes.kindAt j ≠ .lparen) : object.level = 0 :=
    hlevel.resolve_right fun h => hk h.2
  replace h := h.kind
  split at h
  · next hk =>
    obtain ⟨v, l, h, hv⟩ := h.bind
    obtain ⟨⟨⟩, rfl⟩ := hv.pure
    exact member_isPhrase hphrase (htight (by rw [hk]; decide)) hk h
  · next hk =>
    obtain ⟨v, l, h, hv⟩ := h.bind
    obtain ⟨⟨⟩, rfl⟩ := hv.pure
    exact subscript_isPhrase hi hw hphrase (htight (by rw [hk]; decide)) hk h
  · next hk =>
    obtain ⟨v, l, h, hv⟩ := h.bind
    obtain ⟨⟨⟩, rfl⟩ := hv.pure
    exact call_isPhrase hi hw hphrase (hlevel.imp_right And.left) hk h
  · next hk =>
    replace h := h.kindAhead.kindAhead
    split at h
    · next hahead =>
      obtain ⟨v, l, h, hv⟩ := h.bind
      obtain ⟨⟨⟩, rfl⟩ := hv.pure
      exact callOptions_isPhrase hi hw hphrase (htight (by rw [hk]; decide)) hk hahead.1 h
    · cases h.pure.1
  · next hk _ =>
    split at h
    · next operator hop =>
      obtain ⟨v, l, h, hv⟩ := h.bind
      obtain ⟨⟨⟩, rfl⟩ := hv.pure
      exact trailingOperator_isPhrase hphrase (htight hk) hop h
    · cases h.pure.1

omit hi hw in
/-- Where nothing follows, no suffix could. -/
theorem suffix?_stops (h : (suffix? inner object).Gives scope j none k) :
    k = j ∧ scope.lexemes.Stops 0 j := by
  replace h := h.kind
  split at h
  · obtain ⟨_, _, -, h⟩ := h.bind
    cases h.pure.1
  · obtain ⟨_, _, -, h⟩ := h.bind
    cases h.pure.1
  · obtain ⟨_, _, -, h⟩ := h.bind
    cases h.pure.1
  · next hk =>
    replace h := h.kindAhead.kindAhead
    split at h
    · obtain ⟨_, _, -, h⟩ := h.bind
      cases h.pure.1
    · next hahead =>
      obtain ⟨-, rfl⟩ := h.pure
      exact ⟨rfl, by rw [hk]; exact .of_ends rfl,
        fun hoptions => hahead (Lexemes.ahead_options.mp hoptions).2⟩
  · next hdot hbracket hparen hbrace =>
    split at h
    · obtain ⟨_, _, -, h⟩ := h.bind
      cases h.pure.1
    · next htrailing =>
      obtain ⟨-, rfl⟩ := h.pure
      refine ⟨rfl, .of_kind ⟨⟨hdot, hbracket, hparen⟩, htrailing, ?_, ?_, ?_, ?_⟩ hbrace⟩
      all_goals simp [binaryLevel, wholeLevel]

/-- An operand is read up to where no suffix follows. -/
theorem postfixed_isRead (h : (postfixed inner).Gives scope i e j) :
    scope.lexemes.IsRead 0 i e j := by
  obtain ⟨object, k, hobject, h⟩ := h.bind
  obtain ⟨k, hoperand, hlast⟩ := h.iterate (P := scope.lexemes.IsOperand i)
    (operand_isOperand hi hw hobject)
    fun _ _ _ _ hobject h => (suffix?_isPhrase hi hw hobject h).imp_right .inl
  obtain ⟨rfl, hstops⟩ := suffix?_stops hlast
  refine ⟨hoperand.1, ?_, hstops⟩
  exact Nat.le_of_eq (hoperand.2.resolve_right fun h => hstops.kind.bracket.2.2 h.2)

/-! ### Operators -/

/-- Operators in front of an operand are read before it. -/
theorem unary_isRead (h : (unary inner).Gives scope i e j) : scope.lexemes.IsRead 1 i e j := by
  replace h := h.kind
  split at h
  · have hread := postfixed_isRead hi hw h
    exact hread.mono (by decide) ⟨hread.stops.kind.unary, hread.stops.options⟩
  · next operator hop =>
    have hkind : scope.lexemes.kindAt i = operator.kind := by
      unfold UnaryOp.leading? at hop
      split at hop <;> cases hop <;> assumption
    have hne : operator.kind ≠ .eof := by cases operator <;> decide
    obtain ⟨argument, k, hargument, h⟩ := (h.position.advance (hkind ▸ hne)).bind
    obtain ⟨rfl, rfl⟩ := h.pure
    have hread := hi.unary hw hargument
    refine ⟨.of_written ?_ hread.level_le .before
      ⟨⟨hne, hkind⟩, hread.phrase.spells rfl⟩ ?_, Nat.le_refl _, hread.stops⟩
    · rw [hread.place]
      rfl
    · simpa [Part.fields, Part.expressionFields] using hread.phrase.holds

omit hi hw in
/-- The application of an operator that groups to the left, or of `**`. -/
theorem applied_isPhrase {operator : BinaryOp} {left right : Expression Extent}
    (hleft : scope.lexemes.IsPhrase i (.expression left) j)
    (hk : scope.lexemes.kindAt j = operator.kind)
    (hright : scope.lexemes.IsPhrase (j + 1) (.expression right) k)
    (htight : (applied operator left right).Tight) :
    scope.lexemes.IsPhrase i (.expression (applied operator left right)) k := by
  have hne : operator.kind ≠ .eof := by cases operator <;> decide
  refine .of_written ?_ htight .binary
    (hleft.spells ⟨⟨hne, hk⟩, hright.spells rfl⟩) ?_
  · change left.place.upTo right.place = _
    rw [show left.place = _ from hleft.place, show right.place = _ from hright.place]
    rfl
  · simpa [applied, Part.fields, Part.expressionFields] using ⟨hleft.holds, hright.holds⟩

/-- A power groups to the right. -/
theorem power_isRead (h : (power inner).Gives scope i e j) : scope.lexemes.IsRead 2 i e j := by
  obtain ⟨base, k, hbase, h⟩ := h.bind
  have hread := unary_isRead hi hw hbase
  rcases h.kindIf with ⟨hk, h⟩ | ⟨hk, h⟩
  · obtain ⟨exponent, l, hexponent, h⟩ := (h.advance (by rw [hk]; decide)).bind
    obtain ⟨rfl, rfl⟩ := h.pure
    have hread' := hi.power hw hexponent
    have htight : (applied .pow base exponent).Tight :=
      (Expression.tight_pow _ _ _).mpr ⟨hread.level_le, hread'.level_le⟩
    exact ⟨applied_isPhrase hread.phrase hk hread'.phrase htight, Nat.le_refl _, hread'.stops⟩
  · obtain ⟨rfl, rfl⟩ := h.pure
    exact hread.mono (by decide) ⟨hread.stops.kind.powers hk, hread.stops.options⟩

/-- The operators of a level group to the left, with tighter ones between them, and no operator of
the level follows. -/
theorem binary_isRead {level : Nat} (hlevel : level ≤ BinaryOp.levels)
    (h : (binary inner level).Gives scope i e j) : scope.lexemes.IsRead (level + 2) i e j := by
  induction level generalizing i e j with
  | zero => exact power_isRead hi hw h
  | succ level ih =>
    have operand {i j e} (h : (binary inner level).Gives scope i e j) :
        scope.lexemes.IsRead (level + 2) i e j := ih (Nat.le_of_succ_le hlevel) h
    obtain ⟨first, k, hfirst, h⟩ := h.bind
    -- the operands so far, which stop at each operator of the level
    obtain ⟨k, ⟨hphrase, hle, hstops⟩, hlast⟩ := h.iterate
      (P := fun left k => scope.lexemes.IsPhrase i (.expression left) k ∧
        left.level ≤ binaryLevel level ∧ scope.lexemes.Stops (level + 2) k)
      (by
        have hread := operand hfirst
        exact ⟨hread.phrase, Nat.le_succ_of_le hread.level_le, hread.stops⟩)
      (by
        rintro left k _ l ⟨hphrase, hle, -⟩ h
        replace h := h.kind
        split at h
        · cases h.pure.1
        · next operator hop =>
          obtain ⟨hkind, hoperator⟩ := BinaryOp.ofKind?_eq_some.mp hop
          have hne : operator.kind ≠ .eof := by cases operator <;> decide
          obtain ⟨right, m, hright, h⟩ := (h.advance (hkind ▸ hne)).bind
          obtain ⟨⟨⟩, rfl⟩ := h.pure
          have hread := operand hright
          refine ⟨applied_isPhrase hphrase hkind.symm hread.phrase ?_, ?_, hread.stops⟩
          · exact (Expression.tight_binary hoperator _ _ _).mpr
              ⟨hle, Nat.lt_succ_of_le hread.level_le⟩
          · exact Nat.le_of_eq (BinaryOp.precedence_eq_binaryLevel hoperator))
    replace hlast := hlast.kind
    split at hlast
    · next hnone =>
      obtain ⟨-, rfl⟩ := hlast.pure
      exact ⟨hphrase, hle, hstops.kind.operators hlevel hnone, hstops.options⟩
    · obtain ⟨_, _, -, h⟩ := hlast.bind
      obtain ⟨_, _, -, h⟩ := h.bind
      cases h.pure.1

/-- A choice is whole; what is none may stand on the left of an assignment. -/
theorem conditional_isRead (h : (conditional inner).Gives scope i e j) :
    scope.lexemes.IsRead wholeLevel i e j ∨
      scope.lexemes.IsRead (BinaryOp.levels + 2) i e j ∧
        scope.lexemes.kindAt j ≠ .question := by
  obtain ⟨test, k, htest, h⟩ := h.bind
  have hread := binary_isRead hi hw (Nat.le_refl _) htest
  rcases h.kindIf with ⟨hk, h⟩ | ⟨hk, h⟩
  · obtain ⟨consequent, l, hconsequent, h⟩ := (h.advance (by rw [hk]; decide)).bind
    obtain ⟨hcolon, h⟩ := h.expect (by decide)
    obtain ⟨alternate, m, halternate, h⟩ := h.bind
    obtain ⟨rfl, rfl⟩ := h.pure
    have hread' := hi.assignment hw hconsequent
    have hread'' := hi.assignment hw halternate
    refine .inl ⟨.of_written ?_ ⟨Nat.lt_succ_of_le hread.level_le, hread'.level_le,
      hread''.level_le⟩ .conditional (hread.phrase.spells ⟨⟨by decide, hk⟩,
        hread'.phrase.spells ⟨⟨by decide, hcolon⟩, hread''.phrase.spells rfl⟩⟩) ?_,
      Nat.le_refl _, hread''.stops⟩
    · rw [hread.place, hread''.place]
      rfl
    · simpa [Part.fields, Part.expressionFields] using
        ⟨hread.phrase.holds, hread'.phrase.holds, hread''.phrase.holds⟩
  · obtain ⟨rfl, rfl⟩ := h.pure
    exact .inr ⟨hread, hk⟩

/-- An assignment groups to the right, and so does a choice. -/
theorem assignment_isRead (h : (assignment inner).Gives scope i e j) :
    scope.lexemes.IsRead wholeLevel i e j := by
  obtain ⟨left, k, hleft, h⟩ := h.bind
  replace h := h.kind
  split at h
  · next hassign =>
    obtain ⟨rfl, rfl⟩ := h.pure
    rcases conditional_isRead hi hw hleft with hread | ⟨hread, hquestion⟩
    · exact hread
    · exact hread.mono (by decide)
        ⟨hread.stops.kind.whole hquestion hassign, hread.stops.options⟩
  · next operator hop =>
    have hkind : scope.lexemes.kindAt k = operator.kind := by
      unfold AssignOp.ofKind? at hop
      split at hop <;> cases hop <;> assumption
    have hne : operator.kind ≠ .eof := by cases operator <;> decide
    obtain ⟨right, l, hright, h⟩ := (h.advance (hkind ▸ hne)).bind
    obtain ⟨rfl, rfl⟩ := h.pure
    have hread' := hi.assignment hw hright
    -- a choice takes the assignment after it into its last branch
    have hread : scope.lexemes.IsRead (BinaryOp.levels + 2) i left k := by
      rcases conditional_isRead hi hw hleft with hread | ⟨hread, -⟩
      · rw [hread.stops.kind.assign (Nat.le_refl _)] at hop
        cases hop
      · exact hread
    refine ⟨.of_written ?_ ⟨Nat.lt_succ_of_le hread.level_le, hread'.level_le⟩ .assignment
      (hread.phrase.spells ⟨⟨hne, hkind⟩, hread'.phrase.spells rfl⟩) ?_, Nat.le_refl _,
      hread'.stops⟩
    · rw [hread.place, hread'.place]
      rfl
    · simpa [Part.fields, Part.expressionFields] using ⟨hread.phrase.holds, hread'.phrase.holds⟩

/-- An expression is read up to where it cannot go on. -/
theorem expression_isRead (h : (expression inner).Gives scope i e j) :
    scope.lexemes.IsRead wholeLevel i e j :=
  assignment_isRead hi hw h.named

end Grammar

end SolidityParser
