import SolidityParser.Proofs.Tree.Relocation

/-!
# Levels of expressions

How tightly an expression binds, and the table of what may be an operand of what. The level of an
operand and of all that may follow one is `0`; operators before an operand come next, then powers,
then the operators that group to the left, then assignments and choices. `Expression.Tight` is the
table: an operand may bind more tightly than it has to, never less.

The levels of the operators between two operands are written out here (`BinaryOp.precedence`), as
they are documented. The parser has a table of its own, which leaves out powers and counts from
`* / %`; the two agree (`BinaryOp.precedence_eq_binaryLevel`).
-/

namespace SolidityParser

variable {σ : Type} {F : Form}

/-- The documented levels of the operators between two operands, the tightest first: `**`, which
groups to the right; `* / %`; `+ -`; `<< >> >>>`; `&`; `^`; `|`; `< > <= >=`; `== !=`; `&&`; and
`||`. -/
def BinaryOp.precedence : BinaryOp → Nat
  | pow => 2
  | mul | div | mod => 3
  | add | sub => 4
  | shl | shr | sar => 5
  | bitAnd => 6
  | bitXor => 7
  | bitOr => 8
  | lt | gt | ltEq | gtEq => 9
  | eq | notEq => 10
  | and => 11
  | or => 12

namespace Expression

/-- The level of the operators that group to the left and have a level of the parser's table. -/
def binaryLevel (level : Nat) : Nat := level + 3

/-- The level of assignments and choices, which is that of a whole expression. -/
def wholeLevel : Nat := 13

/-- How loosely an expression binds. The words `payable` and `type`, which are names only where
they are called, are no expressions by themselves, and bind more loosely than any. -/
def level : Expression σ → Nat
  | identifier _ name => if Kind.ofWord name = .ident then 0 else wholeLevel + 1
  | number .. | string .. | boolean .. | tuple .. | new .. => 0
  | member .. | index .. | slice .. | call .. | callOptions .. => 0
  | unary _ _ leading _ => if leading then 1 else 0
  | binary _ operator _ _ => operator.precedence
  | assignment .. | conditional .. => wholeLevel

/-- An expression that may stand by itself. -/
def IsWhole (e : Expression σ) : Prop := e.level ≤ wholeLevel

/-- The words `payable` and `type`, where they are called. -/
def IsCalledWord : Expression σ → Prop
  | identifier _ name => Kind.ofWord name ≠ .ident
  | _ => False

end Expression

/-- Arguments by position may stand by themselves. -/
def Arguments.AreWhole : Arguments σ → Prop
  | positional values => ∀ e ∈ values, e.IsWhole
  | named _ => True

/-! ### The documented table and the parser's -/

/-- The operators that the parser's table leaves out are powers. -/
theorem BinaryOp.level?_eq_none_iff {operator : BinaryOp} :
    operator.level? = none ↔ operator = .pow := by
  cases operator <;> decide

/-- For the other operators the parser's table gives the documented level. -/
theorem BinaryOp.precedence_eq_binaryLevel {operator : BinaryOp} {l : Nat}
    (h : operator.level? = some l) : operator.precedence = Expression.binaryLevel l := by
  cases operator <;> cases h <;> rfl

namespace Expression

/-! ### What the expressions of a level are -/

section Levels

variable {e : Expression σ}

/-- The parser's tables have levels of their own. -/
theorem binaryLevel_inj {l l' : Nat} (h : binaryLevel l = binaryLevel l') : l = l' := by
  unfold binaryLevel at h
  omega

/-- The operators that group to the left come before assignments and choices. -/
theorem binaryLevel_lt {operator : BinaryOp} {l : Nat} (h : operator.level? = some l) :
    binaryLevel l < wholeLevel := by
  cases operator <;> cases h <;> decide

/-- A name is an operand, unless it is one of the words that are names only where they are
called. -/
theorem level_identifier (place : σ) (name : String) :
    (identifier place name).level = 0 ∧ Kind.ofWord name = .ident ∨
      (identifier place name).level = wholeLevel + 1 ∧ Kind.ofWord name ≠ .ident := by
  by_cases h : Kind.ofWord name = .ident
  · exact .inl ⟨if_pos h, h⟩
  · exact .inr ⟨if_neg h, h⟩

/-- An operator between operands makes a power, or an expression of its documented level. -/
theorem level_binary (place : σ) (operator : BinaryOp) (left right : Expression σ) :
    operator = .pow ∧ (binary place operator left right).level = 2 ∨
      ∃ l, operator.level? = some l ∧ (binary place operator left right).level = binaryLevel l := by
  cases h : operator.level? with
  | none =>
    obtain rfl := BinaryOp.level?_eq_none_iff.mp h
    exact .inl ⟨rfl, rfl⟩
  | some l => exact .inr ⟨l, rfl, BinaryOp.precedence_eq_binaryLevel h⟩

/-- What is above powers is an operator in front of its operand. -/
theorem unary_of_level (h : e.level = 1) :
    ∃ place operator argument, e = .unary place operator true argument := by
  cases e with
  | unary place operator leading argument =>
    cases leading with
    | true => exact ⟨place, operator, argument, rfl⟩
    | false => cases h
  | identifier place name =>
    rcases level_identifier place name with h' | h' <;>
      cases h'.1.symm.trans h
  | binary place operator left right => cases operator <;> cases h
  | _ => cases h

/-- Powers are of a level of their own. -/
theorem pow_of_level (h : e.level = 2) :
    ∃ place left right, e = .binary place .pow left right := by
  cases e with
  | unary place operator leading argument => cases leading <;> cases h
  | identifier place name =>
    rcases level_identifier place name with h' | h' <;>
      cases h'.1.symm.trans h
  | binary place operator left right =>
    rcases level_binary place operator left right with ⟨rfl, -⟩ | ⟨l, -, h'⟩
    · exact ⟨place, left, right, rfl⟩
    · cases h'.symm.trans h
  | _ => cases h

/-- So are the expressions of each of the parser's tables. -/
theorem binary_of_level {l : Nat} (hl : binaryLevel l < wholeLevel)
    (h : e.level = binaryLevel l) :
    ∃ place operator left right, e = .binary place operator left right ∧
      operator.level? = some l := by
  cases e with
  | unary place operator leading argument => cases leading <;> cases h
  | identifier place name =>
    rcases level_identifier place name with h' | h'
    · cases h'.1.symm.trans h
    · have := h'.1.symm.trans h
      omega
  | binary place operator left right =>
    rcases level_binary place operator left right with ⟨-, h'⟩ | ⟨l', hl', h'⟩
    · cases h'.symm.trans h
    · obtain rfl := binaryLevel_inj (h'.symm.trans h)
      exact ⟨place, operator, left, right, rfl, hl'⟩
  | assignment | conditional => exact absurd h (Nat.ne_of_gt hl)
  | _ => cases h

/-- A whole expression that is of no operator is an assignment or a choice. -/
theorem of_wholeLevel (h : e.level = wholeLevel) :
    (∃ place operator left right, e = .assignment place operator left right) ∨
      ∃ place test consequent alternate, e = .conditional place test consequent alternate := by
  cases e with
  | unary place operator leading argument => cases leading <;> cases h
  | identifier place name =>
    rcases level_identifier place name with h' | h' <;>
      cases h'.1.symm.trans h
  | binary place operator left right =>
    rcases level_binary place operator left right with ⟨-, h'⟩ | ⟨l, hl, h'⟩
    · cases h'.symm.trans h
    · exact absurd (h'.symm.trans h) (Nat.ne_of_lt (binaryLevel_lt hl))
  | assignment place operator left right => exact .inl ⟨place, operator, left, right, rfl⟩
  | conditional place test consequent alternate =>
    exact .inr ⟨place, test, consequent, alternate, rfl⟩
  | _ => cases h

end Levels

/-- The operands of an expression bind as tightly as the table asks. -/
def Tight : Expression σ → Prop
  | identifier .. | number .. | string .. | boolean .. | new .. => True
  | member _ object _ => object.level = 0
  | index _ object subscript => object.level = 0 ∧ ∀ e ∈ subscript, e.IsWhole
  | slice _ object first last =>
    object.level = 0 ∧ (∀ e ∈ first, e.IsWhole) ∧ ∀ e ∈ last, e.IsWhole
  | call _ callee arguments => (callee.level = 0 ∨ callee.IsCalledWord) ∧ arguments.AreWhole
  | callOptions _ callee _ => callee.level = 0
  | unary _ _ leading argument => if leading then argument.level ≤ 1 else argument.level = 0
  | binary _ operator left right =>
    if operator = .pow then left.level ≤ 1 ∧ right.level ≤ 2
    else left.level ≤ operator.precedence ∧ right.level < operator.precedence
  | assignment _ _ left right => left.level < wholeLevel ∧ right.IsWhole
  | conditional _ test consequent alternate =>
    test.level < wholeLevel ∧ consequent.IsWhole ∧ alternate.IsWhole
  | tuple _ components _ => ∀ e, some e ∈ components → e.IsWhole

/-- A power takes what is tighter on its left, and may have a power on its right: it groups to the
right. -/
theorem tight_pow (place : σ) (left right : Expression σ) :
    (binary place .pow left right).Tight ↔ left.level ≤ 1 ∧ right.level ≤ 2 := by
  rw [Tight, if_pos rfl]

/-- The operands of an operator that groups to the left: the one before it may be of its level. -/
theorem tight_binary {operator : BinaryOp} {l : Nat} (h : operator.level? = some l) (place : σ)
    (left right : Expression σ) :
    (binary place operator left right).Tight ↔
      left.level ≤ binaryLevel l ∧ right.level < binaryLevel l := by
  have hne : operator ≠ .pow := by
    rintro rfl
    cases h
  rw [Tight, if_neg hne, BinaryOp.precedence_eq_binaryLevel h]

/-! ### Levels do not depend on places -/

section Places

variable {τ : Type} (f : σ → τ) (e : Expression σ)

@[simp] theorem level_relocate : (e.relocate f).level = e.level := by
  cases e <;> rfl

@[simp] theorem isWhole_relocate : (e.relocate f).IsWhole ↔ e.IsWhole := by
  unfold IsWhole
  rw [level_relocate]

@[simp] theorem isCalledWord_relocate : (e.relocate f).IsCalledWord ↔ e.IsCalledWord := by
  cases e <;> rfl

@[simp] theorem areWhole_relocate (arguments : Arguments σ) :
    (arguments.relocate f).AreWhole ↔ arguments.AreWhole := by
  cases arguments <;> simp [Arguments.relocate, Arguments.AreWhole]

/-- How tightly operands bind does not depend on where they stand. -/
theorem tight_relocate : (e.relocate f).Tight ↔ e.Tight := by
  cases e with
  | tuple place components isArray =>
    simp only [relocate, relocateSlots_eq, Tight, List.mem_map, Option.map_eq_some_iff]
    constructor
    · exact fun h e he => (isWhole_relocate f e).mp (h _ ⟨some e, he, e, rfl, rfl⟩)
    · rintro h _ ⟨_, hslot, e, rfl, rfl⟩
      exact (isWhole_relocate f e).mpr (h e hslot)
  | _ => simp [relocate, Tight]

end Places

end Expression

namespace Part

/-- The expressions right below a part bind as tightly as they have to: in an expression as the
table asks, elsewhere so that they may stand by themselves. -/
def Tight : Part F → Prop
  | expression value => value.Tight
  | part => ∀ field ∈ part.fields, ∀ e, expression e ∈ field → e.IsWhole

/-- How tightly the expressions in a part bind does not depend on its form. -/
theorem tight_relocate {G : Form} (r : Relocation F G) (part : Part F) :
    (part.relocate r).Tight ↔ part.Tight := by
  have hfields : (∀ field ∈ (part.relocate r).fields, ∀ e, expression e ∈ field → e.IsWhole) ↔
      ∀ field ∈ part.fields, ∀ e, expression e ∈ field → e.IsWhole := by
    rw [fields_relocate, List.forall_mem_map]
    simp only [List.mem_map]
    constructor
    · intro h field hfield e he
      exact (Expression.isWhole_relocate r.place e).mp (h field hfield _ ⟨_, he, rfl⟩)
    · rintro h field hfield e ⟨child, hchild, heq⟩
      cases child <;> cases heq
      exact (Expression.isWhole_relocate r.place _).mpr (h field hfield _ hchild)
  cases part with
  | expression value => exact Expression.tight_relocate r.place value
  | _ => exact hfields

end Part

end SolidityParser
