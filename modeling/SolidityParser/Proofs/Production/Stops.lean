import SolidityParser.Proofs.Production.Phrase

/-!
# Where an expression stops

`Lexemes.Stops` says that the token at an index does not go on with an expression that is read at a
level. Every rule for expressions stops at such a token, and reads all that stands before one.
-/

namespace SolidityParser

/-! ### Tokens -/

/-- A token of this kind does not go on with an expression read at a level. A brace goes on only
with options for a call, which depend on the tokens after it. -/
structure Kind.Stops (kind : Kind) (level : Nat) : Prop where
  /-- It follows no operand. -/
  bracket : kind ≠ .dot ∧ kind ≠ .lbracket ∧ kind ≠ .lparen
  /-- It is no operator after an operand. -/
  trailing : UnaryOp.trailing? kind = none
  /-- It is no `**` where powers are read. -/
  power : 2 ≤ level → kind ≠ .starStar
  /-- It is no operator that groups to the left of a level that is read. -/
  binary : ∀ l, Expression.binaryLevel l ≤ level → BinaryOp.ofKind? l kind = none
  /-- It goes on with no choice. -/
  question : Expression.wholeLevel ≤ level → kind ≠ .question
  /-- It goes on with no assignment. -/
  assign : Expression.wholeLevel ≤ level → AssignOp.ofKind? kind = none

/-- The kinds that may follow a whole expression, or begin the block after one. -/
def Kind.ends (kind : Kind) : Bool :=
  kind matches .rparen | .rbracket | .rbrace | .comma | .colon | .semicolon | .eof | .lbrace
    | .kwReturns

/-- The token at an index does not go on with an expression read at a level. -/
structure Lexemes.Stops (lexemes : Lexemes) (level i : Nat) : Prop where
  /-- It does not by its kind. -/
  kind : (lexemes.kindAt i).Stops level
  /-- It begins no options for a call. -/
  options : ¬ lexemes.Ahead i .options

namespace BinaryOp

/-- The operator that is found for a kind is of that kind and level. -/
theorem ofKind?_eq_some {level : Nat} {kind : Kind} {operator : BinaryOp} :
    ofKind? level kind = some operator ↔
      operator.kind = kind ∧ operator.level? = some level := by
  constructor
  · intro h
    have h' := List.find?_some h
    simpa using h'
  · rintro ⟨rfl, hlevel⟩
    cases operator <;> cases hlevel <;> rfl

/-- There are no operators beyond the last level. -/
theorem level?_lt {operator : BinaryOp} {level : Nat} (h : operator.level? = some level) :
    level < levels := by
  cases operator <;> cases h <;> decide

/-- No operator is found for a kind that none has. -/
theorem ofKind?_eq_none {kind : Kind} (h : ∀ operator : BinaryOp, operator.kind ≠ kind)
    (level : Nat) : ofKind? level kind = none := by
  cases hop : ofKind? level kind with
  | none => rfl
  | some operator => exact absurd (ofKind?_eq_some.mp hop).1 (h operator)

end BinaryOp

namespace Kind.Stops

variable {kind : Kind} {level level' : Nat}

/-- What stops a loose expression stops a tighter one. -/
theorem mono (h : kind.Stops level') (hle : level ≤ level') : kind.Stops level where
  bracket := h.bracket
  trailing := h.trailing
  power := fun hl => h.power (Nat.le_trans hl hle)
  binary := fun l hl => h.binary l (Nat.le_trans hl hle)
  question := fun hl => h.question (Nat.le_trans hl hle)
  assign := fun hl => h.assign (Nat.le_trans hl hle)

/-- What ends an expression stops it at every level. -/
theorem of_ends (h : kind.ends = true) : kind.Stops level := by
  unfold Kind.ends at h
  split at h <;> first
    | exact ⟨by decide, rfl, fun _ => by decide,
        fun l _ => BinaryOp.ofKind?_eq_none (fun op => by cases op <;> decide) l,
        fun _ => by decide, fun _ => rfl⟩
    | cases h

/-- An operator that groups to the left stops the expressions that bind more tightly. -/
theorem of_binary {operator : BinaryOp} {l : Nat} (hl : operator.level? = some l)
    (hlevel : level < Expression.binaryLevel l) : operator.kind.Stops level := by
  have hbinary : ∀ l', Expression.binaryLevel l' ≤ level →
      BinaryOp.ofKind? l' operator.kind = none := by
    intro l' hl'
    cases hop : BinaryOp.ofKind? l' operator.kind with
    | none => rfl
    | some other =>
      obtain ⟨hkind, hother⟩ := BinaryOp.ofKind?_eq_some.mp hop
      have heq : other = operator := by cases other <;> cases operator <;> first | rfl | cases hkind
      subst heq
      rw [hl] at hother
      cases hother
      omega
  cases operator <;> cases hl <;>
    exact ⟨by decide, rfl, fun _ => by decide, hbinary, fun _ => by decide, fun _ => rfl⟩

/-- `**` stops an operand. -/
theorem of_power (hlevel : level < 2) : BinaryOp.pow.kind.Stops level := by
  refine ⟨by decide, rfl, fun h => by omega, fun l h => ?_, fun _ => by decide, fun _ => rfl⟩
  unfold Expression.binaryLevel at h
  omega

/-- An assignment stops what may stand on its left. -/
theorem of_assign {operator : AssignOp} (hlevel : level < Expression.wholeLevel) :
    operator.kind.Stops level := by
  cases operator <;>
    exact ⟨by decide, rfl, fun _ => by decide,
      fun l _ => BinaryOp.ofKind?_eq_none (fun op => by cases op <;> decide) l,
      fun _ => by decide, fun h => absurd hlevel (Nat.not_lt.mpr h)⟩

/-- A choice stops what is tested. -/
theorem of_question (hlevel : level < Expression.wholeLevel) : Kind.question.Stops level :=
  ⟨by decide, rfl, fun _ => by decide,
    fun l _ => BinaryOp.ofKind?_eq_none (fun op => by cases op <;> decide) l,
    fun h => absurd hlevel (Nat.not_lt.mpr h), fun _ => rfl⟩

end Kind.Stops

namespace Lexemes

variable {lexemes : Lexemes} {level level' i : Nat}

/-- What stops at one level stops at tighter ones. -/
theorem Stops.mono (h : lexemes.Stops level' i) (hle : level ≤ level') : lexemes.Stops level i :=
  ⟨h.kind.mono hle, h.options⟩

/-- A token that is no brace begins no options. -/
theorem Stops.of_kind (h : (lexemes.kindAt i).Stops level)
    (hbrace : lexemes.kindAt i ≠ .lbrace) : lexemes.Stops level i := by
  exact ⟨h, fun hahead => hbrace (ahead_options.mp hahead).1⟩

end Lexemes

/-- An expression that is read at a level: it stands from one index up to another, binds at least
as tightly, and stops there. -/
structure Lexemes.IsRead (lexemes : Lexemes) (level i : Nat) (e : Expression Extent) (j : Nat) :
    Prop where
  /-- It is a phrase. -/
  phrase : lexemes.IsPhrase i (.expression e) j
  /-- It binds at least as tightly. -/
  level_le : e.level ≤ level
  /-- The next token does not go on with it. -/
  stops : lexemes.Stops level j

/-- It stands there. -/
theorem Lexemes.IsRead.place {lexemes : Lexemes} {level i j : Nat} {e : Expression Extent}
    (h : lexemes.IsRead level i e j) : e.place = ⟨i, j⟩ := h.phrase.place

/-- What is read at one level is read at a looser one, if that is stopped too. -/
theorem Lexemes.IsRead.mono {lexemes : Lexemes} {level level' i j : Nat} {e : Expression Extent}
    (h : lexemes.IsRead level i e j) (hle : level ≤ level') (hstops : lexemes.Stops level' j) :
    lexemes.IsRead level' i e j :=
  ⟨h.phrase, Nat.le_trans h.level_le hle, hstops⟩

/-- An operand with some of what follows it: a phrase that binds as tightly as any, or one of the
words that are names only where they are called. -/
def Lexemes.IsOperand (lexemes : Lexemes) (i : Nat) (e : Expression Extent) (j : Nat) : Prop :=
  lexemes.IsPhrase i (.expression e) j ∧
    (e.level = 0 ∨ e.IsCalledWord ∧ lexemes.kindAt j = .lparen)

end SolidityParser
