import SolidityParser.Proofs.Complete.Whole
import SolidityParser.Proofs.Lexer.Spaced
import SolidityParser.Proofs.Tree.Relocation

/-!
# Operator trees are read from their words

**Theorem** (`Source.parseExpression_words`): an expression made of operators, operands and what
follows operands, in which every operand binds as tightly as the table of `Expression.Tight` asks,
is read from its words in order with spaces between, if these are not too long. And whatever is read
from a source is such that all operands in it bind as tightly as the table asks.

The words of a well-formed tree are a phrase of the input that they make (`Stands`): by induction
over the tree, each node is written by its production between the places of its operands. What is
left is that an input which is a phrase is read as that phrase (`parseExpression_eq_ok_iff`). Since
completeness holds of phrases in general, no case of the induction has to look at the rules.
-/

namespace SolidityParser

/-! ### The words of a tree -/

section Words

variable {σ : Type}

mutual

/-- The words of an expression in order. Strings, options of calls, arguments by name and `new` are
not written out. -/
def Expression.words : Expression σ → List String
  | .identifier _ name => [name]
  | .number _ _ raw unit => raw :: unit.toList
  | .boolean _ value => [if value then "true" else "false"]
  | .member _ object property => object.words ++ [".", property.name]
  | .index _ object subscript => object.words ++ "[" :: Expression.wordsOfOption subscript ++ ["]"]
  | .slice _ object first last =>
    object.words ++ "[" :: Expression.wordsOfOption first ++ ":" :: Expression.wordsOfOption last ++
      ["]"]
  | .call _ callee arguments => callee.words ++ "(" :: arguments.words ++ [")"]
  | .unary _ operator leading argument =>
    if leading then operator.symbol :: argument.words else argument.words ++ [operator.symbol]
  | .binary _ operator left right => left.words ++ operator.symbol :: right.words
  | .assignment _ operator left right => left.words ++ operator.symbol :: right.words
  | .conditional _ test consequent alternate =>
    test.words ++ "?" :: consequent.words ++ ":" :: alternate.words
  | .tuple _ components isArray =>
    (if isArray then "[" else "(") :: Expression.wordsOfSlots components ++
      [if isArray then "]" else ")"]
  | .string .. | .callOptions .. | .new .. => []

/-- The words of an expression that may be missing. -/
def Expression.wordsOfOption : Option (Expression σ) → List String
  | none => []
  | some e => e.words

/-- The words of the components of a tuple, with commas between. -/
def Expression.wordsOfSlots : List (Option (Expression σ)) → List String
  | [] => []
  | [slot] => Expression.wordsOfOption slot
  | slot :: slots => Expression.wordsOfOption slot ++ "," :: Expression.wordsOfSlots slots

/-- The words of expressions, with commas between. -/
def Expression.wordsOfList : List (Expression σ) → List String
  | [] => []
  | [e] => e.words
  | e :: es => e.words ++ "," :: Expression.wordsOfList es

/-- The words of arguments by position, with commas between. -/
def Arguments.words : Arguments σ → List String
  | .positional values => Expression.wordsOfList values
  | .named _ => []

end

end Words

/-! ### Well-formed trees -/

/-- A node of the kinds that operator trees are made of, as it can be written: names and numbers
are single words, a number has the value that its word says, only `++` and `--` follow their
operand, arguments are given by position, and only a tuple in parentheses leaves components out,
and not its only one. -/
def Expression.OfOperators {σ : Type} : Expression σ → Prop
  | .identifier _ name => Lexeme.StandsAlone ⟨.ident, name⟩
  | .number _ value raw unit =>
    (Lexeme.StandsAlone ⟨.number, raw⟩ ∨ Lexeme.StandsAlone ⟨.hexNumber, raw⟩) ∧
      value = NumberValue.ofLiteral raw ∧ ∀ word ∈ unit, isNumberUnit word = true
  | .member _ _ property => Lexeme.StandsAlone ⟨.ident, property.name⟩
  | .unary _ operator leading _ => leading = true ∨ operator = .increment ∨ operator = .decrement
  | .call _ _ arguments => ∃ values, arguments = .positional values
  | .tuple _ components isArray => if isArray then none ∉ components else components ≠ [none]
  | .boolean .. | .index .. | .slice .. | .binary .. | .assignment .. | .conditional .. => True
  | .string .. | .callOptions .. | .new .. => False

/-- A node of an operator tree, with operands that bind as tightly as they have to. -/
def Part.OfOperators {F : Form} : Part F → Prop
  | expression value => value.OfOperators ∧ value.Tight
  | identifier _ => True
  | _ => False

/-- Every node is one of an operator tree, with operands that bind as tightly as they have to. -/
def Expression.WellFormed (e : Expression Unit) : Prop :=
  (Part.expression e : Part .bare).All Part.OfOperators

/-! ### Words as symbols -/

/-- A text as the symbol that stands for it. -/
def Symbol.ofText (text : String) : Symbol := .word (Lexeme.ofText text).kind text

namespace Lexemes

variable {lexemes : Lexemes} {i j k : Nat} {rest : List Symbol}

/-- A word that stands alone is spelled by its text. -/
theorem spells_ofText {word : Lexeme} (hword : word.StandsAlone) :
    lexemes.Spells i (Symbol.ofText word.text :: rest) j ↔
      lexemes.Spells i (.word word.kind word.text :: rest) j := by
  unfold Symbol.ofText
  rw [hword.ofText_eq]

/-- A keyword or symbol is spelled by its text. -/
theorem Spells.kind (kind : Kind) (hk : kind ∈ Kind.keywords ++ Kind.symbols)
    (h : lexemes.Spells i (Symbol.ofText kind.text :: rest) j) :
    (kind ≠ .eof ∧ lexemes.kindAt i = kind) ∧ lexemes.Spells (i + 1) rest j := by
  obtain ⟨⟨hne, hkind, -⟩, hrest⟩ := (spells_ofText (Lexeme.standsAlone_kind hk)).mp h
  exact ⟨⟨hne, hkind⟩, hrest⟩

/-! ### Trees that stand in an input -/

/-- From one index up to another the input is a tree, once its nodes have places. -/
def Stands (lexemes : Lexemes) (i : Nat) (e : Expression Unit) (j : Nat) : Prop :=
  ∃ placed : Expression Extent, placed.relocate (fun _ => ()) = e ∧
    lexemes.IsPhrase i (.expression placed) j

/-- An expression stands in an input if it is written by a production between its ends, all parts of
it hold where they are, and it is built as tightly as it has to be. -/
theorem Stands.of_written (placed : Expression Extent) {symbols : List Symbol}
    (hplace : placed.place = ⟨i, j⟩) (htight : (placed.relocate fun _ => ()).Tight)
    (hphrased : (Part.expression placed).Phrased symbols) (hspells : lexemes.Spells i symbols j)
    (hbelow : ∀ field ∈ (Part.expression placed : Part .parsed).fields, ∀ child ∈ field,
      child.All lexemes.Holds) : lexemes.Stands i (placed.relocate fun _ => ()) j :=
  ⟨placed, rfl,
    .of_written hplace ((Expression.tight_relocate _ placed).mp htight) hphrased hspells hbelow⟩

/-- Where its words stand in an input, and no unit of a number comes next, there stands the tree. -/
def StandsByWords (lexemes : Lexemes) (e : Expression Unit) : Prop :=
  ∀ i j, lexemes.Spells i (e.words.map Symbol.ofText) j → lexemes.kindAt j ≠ .ident →
    lexemes.Stands i e j

end Lexemes

namespace Expression

variable {lexemes : Lexemes} {i j : Nat}

/-! ### The words of each kind of node -/

section Words

variable {σ : Type} {place : σ}

theorem words_member (object : Expression σ) (property : Identifier σ) :
    (member place object property).words = object.words ++ [".", property.name] := rfl

theorem words_index (object : Expression σ) (subscript : Option (Expression σ)) :
    (index place object subscript).words =
      object.words ++ "[" :: wordsOfOption subscript ++ ["]"] := rfl

theorem words_slice (object : Expression σ) (first last : Option (Expression σ)) :
    (slice place object first last).words =
      object.words ++ "[" :: wordsOfOption first ++ ":" :: wordsOfOption last ++ ["]"] := rfl

theorem words_binary (operator : BinaryOp) (left right : Expression σ) :
    (binary place operator left right).words =
      left.words ++ operator.symbol :: right.words := rfl

theorem words_assignment (operator : AssignOp) (left right : Expression σ) :
    (assignment place operator left right).words =
      left.words ++ operator.symbol :: right.words := rfl

theorem words_conditional (test consequent alternate : Expression σ) :
    (conditional place test consequent alternate).words =
      test.words ++ "?" :: consequent.words ++ ":" :: alternate.words := rfl

theorem words_tuple (components : List (Option (Expression σ))) (isArray : Bool) :
    (tuple place components isArray).words = (if isArray then "[" else "(") ::
      wordsOfSlots components ++ [if isArray then "]" else ")"] := rfl

theorem wordsOfSlots_cons_cons (slot next : Option (Expression σ))
    (slots : List (Option (Expression σ))) :
    wordsOfSlots (slot :: next :: slots) =
      wordsOfOption slot ++ "," :: wordsOfSlots (next :: slots) := rfl

/-- Expressions with commas between are components that are all there. -/
theorem wordsOfList_eq : (es : List (Expression σ)) → wordsOfList es = wordsOfSlots (es.map some)
  | [] | [_] => rfl
  | e :: next :: es => congrArg (e.words ++ "," :: ·) (wordsOfList_eq (next :: es))

theorem words_call (callee : Expression σ) (values : List (Expression σ)) :
    (call place callee (.positional values)).words =
      callee.words ++ "(" :: wordsOfSlots (values.map some) ++ [")"] :=
  wordsOfList_eq values ▸ rfl

end Words

/-! ### One case for each kind of node -/

section Cases

variable {object left right : Expression Unit}

/-- A component of a tuple, or nothing where it is left out. -/
theorem stands_option {slot : Option (Expression Unit)}
    (hslot : ∀ e ∈ slot, lexemes.StandsByWords e)
    (h : lexemes.Spells i ((wordsOfOption slot).map Symbol.ofText) j)
    (hj : lexemes.kindAt j ≠ .ident) :
    ∃ placed : Option (Expression Extent), placed.map (·.relocate fun _ => ()) = slot ∧
      lexemes.Spells i (Symbol.option (placed.map (·.place))) j ∧
      ∀ e ∈ placed, (Part.expression e).All lexemes.Holds := by
  cases slot with
  | none => exact ⟨none, rfl, h, by simp⟩
  | some e =>
    obtain ⟨placed, rfl, hphrase⟩ := hslot e rfl i j h hj
    exact ⟨some placed, rfl, hphrase.spells rfl, by simpa using hphrase.holds⟩

/-- The components of a tuple, with commas between. -/
theorem stands_slots {slots : List (Option (Expression Unit))}
    (hslots : ∀ e, some e ∈ slots → lexemes.StandsByWords e)
    (h : lexemes.Spells i ((wordsOfSlots slots).map Symbol.ofText) j)
    (hj : lexemes.kindAt j ≠ .ident) :
    ∃ placed : List (Option (Expression Extent)),
      placed.map (Option.map (·.relocate fun _ => ())) = slots ∧
      lexemes.Spells i (Symbol.separated (placed.map fun e => Symbol.option (e.map (·.place)))) j ∧
      ∀ slot ∈ placed, ∀ e, slot = some e → (Part.expression e).All lexemes.Holds := by
  induction slots generalizing i with
  | nil => exact ⟨[], rfl, h, by simp⟩
  | cons slot slots ih =>
    have hslot : ∀ e ∈ slot, lexemes.StandsByWords e := by
      rintro e rfl
      exact hslots e (by simp)
    cases slots with
    | nil =>
      obtain ⟨placed, rfl, hspells, hall⟩ := stands_option hslot h hj
      exact ⟨[placed], rfl, hspells, by simpa using hall⟩
    | cons next slots =>
      change lexemes.Spells i
        ((wordsOfOption slot ++ "," :: wordsOfSlots (next :: slots)).map Symbol.ofText) j at h
      rw [List.map_append] at h
      obtain ⟨k, hfirst, hrest⟩ := Lexemes.spells_append.mp h
      obtain ⟨hcomma, hrest⟩ := hrest.kind .comma (by decide)
      obtain ⟨placed, rfl, hspells, hall⟩ := stands_option hslot hfirst (by rw [hcomma.2]; decide)
      obtain ⟨others, hothers, hspells', hall'⟩ :=
        ih (fun e he => hslots e (List.mem_cons_of_mem _ he)) hrest
      obtain ⟨other, others, rfl⟩ : ∃ other rest, others = other :: rest :=
        List.exists_cons_of_ne_nil (by rintro rfl; cases hothers)
      exact ⟨placed :: other :: others, by rw [List.map_cons, hothers],
        hspells.append ⟨hcomma, hspells'⟩, List.forall_mem_cons.mpr ⟨hall, hall'⟩⟩

/-- The operands of a node between two of them. -/
theorem stands_pair (kind : Kind) (hkind : kind ∈ Kind.keywords ++ Kind.symbols)
    (hleft : lexemes.StandsByWords left) (hright : lexemes.StandsByWords right)
    (h : lexemes.Spells i ((left.words ++ kind.text :: right.words).map Symbol.ofText) j)
    (hj : lexemes.kindAt j ≠ .ident) :
    ∃ l r : Expression Extent, l.relocate (fun _ => ()) = left ∧ r.relocate (fun _ => ()) = right ∧
      lexemes.Spells i [.part l.place, .token kind, .part r.place] j ∧
      (Part.expression l).All lexemes.Holds ∧ (Part.expression r).All lexemes.Holds := by
  rw [List.map_append] at h
  obtain ⟨k, hfirst, hrest⟩ := Lexemes.spells_append.mp h
  obtain ⟨hk, hrest⟩ := hrest.kind _ hkind
  have hident : kind ≠ .ident := by
    rintro rfl
    revert hkind
    decide
  obtain ⟨l, rfl, hl⟩ := hleft i k hfirst (by rwa [hk.2])
  obtain ⟨r, rfl, hr⟩ := hright (k + 1) j hrest hj
  exact ⟨l, r, rfl, rfl, hl.spells ⟨hk, hr.spells rfl⟩, hl.holds, hr.holds⟩

/-- Each operator is spelled by a word of the fixed spelling, so that its text alone tells it. -/
theorem binary_kind (operator : BinaryOp) : operator.kind ∈ Kind.keywords ++ Kind.symbols := by
  cases operator <;> decide

/-- So is each assignment. -/
theorem assign_kind (operator : AssignOp) : operator.kind ∈ Kind.keywords ++ Kind.symbols := by
  cases operator <;> decide

/-- So is each operator with one operand, on whichever side. -/
theorem unary_kind (operator : UnaryOp) : operator.kind ∈ Kind.keywords ++ Kind.symbols := by
  cases operator <;> decide

/-- Two operands that stand by their words, with an operator between them, stand by theirs. -/
theorem stands_binary {operator : BinaryOp} (hleft : lexemes.StandsByWords left)
    (hright : lexemes.StandsByWords right)
    (htight : (binary () operator left right).Tight) :
    lexemes.StandsByWords (binary () operator left right) := by
  intro i j h hj
  obtain ⟨l, r, rfl, rfl, hspells, hl, hr⟩ :=
    stands_pair _ (binary_kind operator) hleft hright h hj
  exact .of_written (binary ⟨i, j⟩ operator l r) rfl htight .binary hspells
    (by simpa [Part.fields, Part.expressionFields] using ⟨hl, hr⟩)

/-- The same for an assignment. -/
theorem stands_assignment {operator : AssignOp} (hleft : lexemes.StandsByWords left)
    (hright : lexemes.StandsByWords right)
    (htight : (assignment () operator left right).Tight) :
    lexemes.StandsByWords (assignment () operator left right) := by
  intro i j h hj
  obtain ⟨l, r, rfl, rfl, hspells, hl, hr⟩ :=
    stands_pair _ (assign_kind operator) hleft hright h hj
  exact .of_written (assignment ⟨i, j⟩ operator l r) rfl htight .assignment hspells
    (by simpa [Part.fields, Part.expressionFields] using ⟨hl, hr⟩)

/-- A choice between two expressions has two words between its three operands. -/
theorem stands_conditional {test : Expression Unit} (htest : lexemes.StandsByWords test)
    (hleft : lexemes.StandsByWords left) (hright : lexemes.StandsByWords right)
    (htight : (conditional () test left right).Tight) :
    lexemes.StandsByWords (conditional () test left right) := by
  intro i j h hj
  rw [words_conditional, List.append_assoc, List.map_append] at h
  obtain ⟨k, hfirst, hrest⟩ := Lexemes.spells_append.mp h
  obtain ⟨hk, hrest⟩ := hrest.kind .question (by decide)
  obtain ⟨t, rfl, ht⟩ := htest i k hfirst (by rw [hk.2]; decide)
  obtain ⟨l, r, rfl, rfl, hspells, hl, hr⟩ :=
    stands_pair .colon (by decide) hleft hright hrest hj
  exact .of_written (conditional ⟨i, j⟩ t l r) rfl htight .conditional
    (ht.spells ⟨hk, hspells⟩)
    (by simpa [Part.fields, Part.expressionFields] using ⟨ht.holds, hl, hr⟩)

/-- An operator stands in front of its operand, or after it where it counts up or down. -/
theorem stands_unary {operator : UnaryOp} {leading : Bool} {argument : Expression Unit}
    (hoperator : leading = true ∨ operator = .increment ∨ operator = .decrement)
    (hargument : lexemes.StandsByWords argument)
    (htight : (unary () operator leading argument).Tight) :
    lexemes.StandsByWords (unary () operator leading argument) := by
  intro i j h hj
  have hkind := unary_kind operator
  cases leading with
  | true =>
    obtain ⟨hi, hrest⟩ := Lexemes.Spells.kind _ hkind h
    obtain ⟨a, rfl, ha⟩ := hargument (i + 1) j hrest hj
    exact .of_written (unary ⟨i, j⟩ operator true a) rfl htight .before
      ⟨hi, ha.spells rfl⟩ (by simpa [Part.fields, Part.expressionFields] using ha.holds)
  | false =>
    change lexemes.Spells i ((argument.words ++ [operator.kind.text]).map Symbol.ofText) j at h
    rw [List.map_append] at h
    obtain ⟨k, hfirst, hrest⟩ := Lexemes.spells_append.mp h
    obtain ⟨hk, rfl⟩ := Lexemes.Spells.kind _ hkind hrest
    have htrailing : UnaryOp.trailing? operator.kind = some operator := by
      rcases hoperator with h | rfl | rfl
      · cases h
      · rfl
      · rfl
    obtain ⟨a, rfl, ha⟩ := hargument i k hfirst (by
      rw [hk.2]
      cases operator <;> decide)
    exact .of_written (unary ⟨i, k + 1⟩ operator false a) rfl htight (.after htrailing)
      (ha.spells ⟨hk, rfl⟩) (by simpa [Part.fields, Part.expressionFields] using ha.holds)

/-- A name that stands alone. -/
theorem spells_name {name : String} {rest : List Symbol} (hname : Lexeme.StandsAlone ⟨.ident, name⟩)
    (h : lexemes.Spells i (Symbol.ofText name :: rest) j) :
    lexemes.Spells i (.word .ident name :: rest) j :=
  (Lexemes.spells_ofText hname).mp h

/-- A name that is no keyword stands by itself. -/
theorem stands_identifier {name : String} (hname : Lexeme.StandsAlone ⟨.ident, name⟩) :
    lexemes.StandsByWords (identifier () name) := by
  intro i j h _
  have hword := hname.ofWord_eq
  refine .of_written (identifier ⟨i, j⟩ name) rfl trivial (.name (.inl hword)) ?_
    (by simp [Part.fields, Part.expressionFields])
  rw [hword]
  exact spells_name hname h

/-- So does a truth value. -/
theorem stands_boolean {value : Bool} : lexemes.StandsByWords (boolean () value) := by
  intro i j h _
  refine .of_written (boolean ⟨i, j⟩ value) rfl trivial .boolean ?_
    (by simp [Part.fields, Part.expressionFields])
  cases value
  · exact Lexemes.Spells.kind .kwFalse (by decide) h
  · exact Lexemes.Spells.kind .kwTrue (by decide) h

/-- A number stands by its text, and by its unit if it has one. -/
theorem stands_number {value : NumberValue} {raw : String} {unit : Option String}
    (h : (number () value raw unit).OfOperators) :
    lexemes.StandsByWords (number () value raw unit) := by
  obtain ⟨hraw, rfl, hunit⟩ := h
  obtain ⟨kind, hkind, hword⟩ :
      ∃ kind, (kind = .number ∨ kind = .hexNumber) ∧ Lexeme.StandsAlone ⟨kind, raw⟩ := by
    rcases hraw with h | h
    · exact ⟨_, .inl rfl, h⟩
    · exact ⟨_, .inr rfl, h⟩
  intro i j h hj
  have hspells := (Lexemes.spells_ofText hword).mp h
  cases unit with
  | none =>
    have hahead : ¬ lexemes.Ahead j .unit := fun hahead => hj (Lexemes.ahead_unit.mp hahead).1
    obtain ⟨hi, rfl⟩ := hspells
    exact .of_written (number ⟨i, i + 1⟩ (.ofLiteral raw) raw none) rfl trivial
      (.number hkind) ⟨hi, hahead, rfl⟩ (by simp [Part.fields, Part.expressionFields])
  | some word =>
    have hword := Lexeme.standsAlone_unit (hunit word rfl)
    obtain ⟨hi, hrest⟩ := hspells
    exact .of_written (number ⟨i, j⟩ (.ofLiteral raw) raw (some word)) rfl trivial
      (.numberWithUnit hkind (hunit word rfl)) ⟨hi, spells_name hword hrest⟩
      (by simp [Part.fields, Part.expressionFields])

/-! What follows an operand. -/

/-- A member is its object, a dot and a name, which has to be one that stands alone. -/
theorem stands_member {property : Identifier Unit} (hobject : lexemes.StandsByWords object)
    (hproperty : Lexeme.StandsAlone ⟨.ident, property.name⟩)
    (htight : (member () object property).Tight) :
    lexemes.StandsByWords (member () object property) := by
  intro i j h _
  obtain ⟨⟨⟩, name⟩ := property
  change lexemes.Spells i ((object.words ++ [".", name]).map Symbol.ofText) j at h
  rw [List.map_append] at h
  obtain ⟨k, hfirst, hrest⟩ := Lexemes.spells_append.mp h
  obtain ⟨hk, hrest⟩ := hrest.kind .dot (by decide)
  have hname := spells_name hproperty hrest
  obtain rfl : k + 1 + 1 = j := hname.2
  obtain ⟨o, rfl, ho⟩ := hobject i k hfirst (by rw [hk.2]; decide)
  have hphrase : lexemes.IsPhrase (k + 1) (.identifier ⟨⟨k + 1, k + 2⟩, name⟩) (k + 2) :=
    .of_written rfl (by simp [Part.Tight, Part.fields]) .identifier hname (by simp [Part.fields])
  exact .of_written (member ⟨i, k + 2⟩ o ⟨⟨k + 1, k + 2⟩, name⟩) rfl htight .member
    (ho.spells ⟨hk, hphrase.spells rfl⟩)
    (by simpa [Part.fields, Part.expressionFields] using ⟨ho.holds, hphrase.holds⟩)

/-- An index is its object and brackets, with nothing between them or an expression. -/
theorem stands_index {subscript : Option (Expression Unit)}
    (hobject : lexemes.StandsByWords object)
    (hsubscript : ∀ e ∈ subscript, lexemes.StandsByWords e)
    (htight : (index () object subscript).Tight) :
    lexemes.StandsByWords (index () object subscript) := by
  intro i j h _
  simp only [words_index, List.append_assoc, List.cons_append, List.map_append, List.map_cons] at h
  obtain ⟨k, hfirst, hrest⟩ := Lexemes.spells_append.mp h
  obtain ⟨hk, hrest⟩ := hrest.kind .lbracket (by decide)
  obtain ⟨l, hmid, hlast⟩ := Lexemes.spells_append.mp hrest
  obtain ⟨hl, rfl⟩ := Lexemes.Spells.kind .rbracket (by decide) hlast
  obtain ⟨o, rfl, ho⟩ := hobject i k hfirst (by rw [hk.2]; decide)
  obtain ⟨b, rfl, hspells, hall⟩ := stands_option hsubscript hmid (by rw [hl.2]; decide)
  rw [← relocateOption_eq] at htight ⊢
  refine .of_written (index ⟨i, l + 1⟩ o b) rfl htight .index
    (ho.spells ⟨hk, hspells.append ⟨hl, rfl⟩⟩) ?_
  simp only [Part.fields, Part.expressionFields, List.forall_mem_cons, List.forall_mem_map,
    Part.forall_mem_toList]
  simpa using ⟨ho.holds, hall⟩

/-- A slice has a colon between its brackets, and each bound may be left out. -/
theorem stands_slice {first last : Option (Expression Unit)}
    (hobject : lexemes.StandsByWords object) (hfirst : ∀ e ∈ first, lexemes.StandsByWords e)
    (hlast : ∀ e ∈ last, lexemes.StandsByWords e)
    (htight : (slice () object first last).Tight) :
    lexemes.StandsByWords (slice () object first last) := by
  intro i j h _
  simp only [words_slice, List.append_assoc, List.cons_append, List.map_append,
    List.map_cons] at h
  obtain ⟨k, hobjectWords, hrest⟩ := Lexemes.spells_append.mp h
  obtain ⟨hk, hrest⟩ := hrest.kind .lbracket (by decide)
  obtain ⟨l, hfirstWords, hrest⟩ := Lexemes.spells_append.mp hrest
  obtain ⟨hl, hrest⟩ := hrest.kind .colon (by decide)
  obtain ⟨m, hlastWords, hclose⟩ := Lexemes.spells_append.mp hrest
  obtain ⟨hm, rfl⟩ := Lexemes.Spells.kind .rbracket (by decide) hclose
  obtain ⟨o, rfl, ho⟩ := hobject i k hobjectWords (by rw [hk.2]; decide)
  obtain ⟨a, rfl, hspells, hall⟩ := stands_option hfirst hfirstWords (by rw [hl.2]; decide)
  obtain ⟨b, rfl, hspells', hall'⟩ := stands_option hlast hlastWords (by rw [hm.2]; decide)
  rw [← relocateOption_eq, ← relocateOption_eq] at htight ⊢
  refine .of_written (slice ⟨i, m + 1⟩ o a b) rfl htight .slice
    (ho.spells ⟨hk, ?_⟩) ?_
  · have hrest : lexemes.Spells l
        (.token .colon :: Symbol.option (b.map (·.place)) ++ [.token .rbracket]) (m + 1) :=
      Lexemes.Spells.append ⟨hl, hspells'⟩ ⟨hm, rfl⟩
    simpa using hspells.append hrest
  · simp only [Part.fields, Part.expressionFields, List.forall_mem_cons, List.forall_mem_map,
      Part.forall_mem_toList]
    simpa using ⟨ho.holds, hall, hall'⟩

/-- Values with commas between: components of which none is left out. -/
theorem stands_values {values : List (Expression Unit)}
    (hvalues : ∀ e ∈ values, lexemes.StandsByWords e)
    (h : lexemes.Spells i ((wordsOfSlots (values.map some)).map Symbol.ofText) j)
    (hj : lexemes.kindAt j ≠ .ident) :
    ∃ placed : List (Expression Extent), placed.map (·.relocate fun _ => ()) = values ∧
      lexemes.Spells i (Symbol.separated (placed.map fun e => [.part e.place])) j ∧
      ∀ e ∈ placed, (Part.expression e).All lexemes.Holds := by
  obtain ⟨slots, hslots, hspells, hall⟩ := stands_slots (by simpa using hvalues) h hj
  obtain ⟨placed, rfl⟩ := exists_map_some (l := slots) fun slot hslot => by
    have hmem := hslots ▸ List.mem_map_of_mem hslot
    cases slot with
    | none => simp at hmem
    | some e => exact ⟨e, rfl⟩
  refine ⟨placed, ?_, ?_, fun e he => hall _ (List.mem_map_of_mem he) e rfl⟩
  · refine (List.map_inj_right fun _ _ h => Option.some.inj h).mp ?_
    simpa [Function.comp_def] using hslots
  · simpa [Function.comp_def, Symbol.option] using hspells

/-- A call is what is called, and values between parentheses. -/
theorem stands_call {values : List (Expression Unit)}
    (hobject : lexemes.StandsByWords object) (hvalues : ∀ e ∈ values, lexemes.StandsByWords e)
    (htight : (call () object (.positional values)).Tight) :
    lexemes.StandsByWords (call () object (.positional values)) := by
  intro i j h _
  simp only [words_call, List.append_assoc, List.cons_append, List.map_append, List.map_cons] at h
  obtain ⟨k, hobjectWords, hrest⟩ := Lexemes.spells_append.mp h
  obtain ⟨hk, hrest⟩ := hrest.kind .lparen (by decide)
  obtain ⟨l, hwords, hclose⟩ := Lexemes.spells_append.mp hrest
  obtain ⟨hl, rfl⟩ := Lexemes.Spells.kind .rparen (by decide) hclose
  obtain ⟨o, rfl, ho⟩ := hobject i k hobjectWords (by rw [hk.2]; decide)
  obtain ⟨placed, rfl, hspells, hall⟩ := stands_values hvalues hwords (by rw [hl.2]; decide)
  rw [← relocateList_eq] at htight ⊢
  refine .of_written (call ⟨i, l + 1⟩ o (.positional placed)) rfl htight .call
    (ho.spells ⟨hk, hspells.append ⟨hl, rfl⟩⟩) ?_
  simpa [Part.fields, Part.expressionFields] using ⟨ho.holds, hall⟩

/-- An array has all of its components. -/
theorem stands_array {values : List (Expression Unit)}
    (hvalues : ∀ e ∈ values, lexemes.StandsByWords e)
    (htight : (tuple () (values.map some) true).Tight) :
    lexemes.StandsByWords (tuple () (values.map some) true) := by
  intro i j h _
  simp only [words_tuple, List.cons_append, List.map_append, List.map_cons] at h
  obtain ⟨hi, hrest⟩ := Lexemes.Spells.kind .lbracket (by decide) h
  obtain ⟨l, hwords, hclose⟩ := Lexemes.spells_append.mp hrest
  obtain ⟨hl, rfl⟩ := Lexemes.Spells.kind .rbracket (by decide) hclose
  obtain ⟨placed, rfl, hspells, hall⟩ := stands_values hvalues hwords (by rw [hl.2]; decide)
  have hcomponents : (tuple ⟨i, l + 1⟩ (placed.map some) true).relocate (fun _ => ()) =
      tuple () ((placed.map (·.relocate fun _ => ())).map some) true := by
    simp [relocate, Function.comp_def]
  rw [← hcomponents] at htight ⊢
  refine .of_written _ rfl htight .array ⟨hi, hspells.append ⟨hl, rfl⟩⟩ ?_
  simpa [Part.fields, Part.expressionFields, Part.forall_mem_reduceOption] using hall

/-- A tuple may leave components out, though not its only one. -/
theorem stands_tuple {components : List (Option (Expression Unit))}
    (hne : components ≠ [none]) (hcomponents : ∀ e, some e ∈ components → lexemes.StandsByWords e)
    (htight : (tuple () components false).Tight) :
    lexemes.StandsByWords (tuple () components false) := by
  intro i j h _
  simp only [words_tuple, List.cons_append, List.map_append, List.map_cons] at h
  obtain ⟨hi, hrest⟩ := Lexemes.Spells.kind .lparen (by decide) h
  obtain ⟨l, hwords, hclose⟩ := Lexemes.spells_append.mp hrest
  obtain ⟨hl, rfl⟩ := Lexemes.Spells.kind .rparen (by decide) hclose
  obtain ⟨placed, rfl, hspells, hall⟩ :=
    stands_slots hcomponents hwords (by rw [hl.2]; decide)
  rw [← relocateSlots_eq] at htight ⊢
  refine .of_written (tuple ⟨i, l + 1⟩ placed false) rfl htight (.tuple ?_)
    ⟨hi, hspells.append ⟨hl, rfl⟩⟩ ?_
  · rintro rfl
    exact hne rfl
  · simpa only [Part.fields, Part.expressionFields, List.forall_mem_singleton,
      List.forall_mem_map, Part.forall_mem_reduceOption] using hall

end Cases

/-- Where the words of a well-formed tree stand, there stands the tree. -/
theorem standsByWords_of_all (part : Part .bare) (h : part.All Part.OfOperators) :
    ∀ e, part = .expression e → lexemes.StandsByWords e := by
  induction part using Part.induction with
  | step part ih =>
    rintro e rfl
    have hbelow {child : Expression Unit}
        (hchild : ∃ field ∈ Part.expressionFields e, Part.expression child ∈ field) :
        lexemes.StandsByWords child := by
      obtain ⟨field, hfield, hchild⟩ := hchild
      exact ih field hfield _ hchild (h.below hfield hchild) child rfl
    obtain ⟨hnode, htight⟩ := h.here
    cases e with
    | identifier place name => exact stands_identifier hnode
    | number place value raw unit => exact stands_number hnode
    | boolean place value => exact stands_boolean
    | string | callOptions | new => exact hnode.elim
    | member place object property =>
      exact stands_member (hbelow (by simp [Part.expressionFields])) hnode htight
    | index place object subscript =>
      refine stands_index (hbelow (by simp [Part.expressionFields])) ?_ htight
      rintro e rfl
      exact hbelow (by simp [Part.expressionFields])
    | slice place object first last =>
      refine stands_slice (hbelow (by simp [Part.expressionFields])) ?_ ?_ htight
      · rintro e rfl
        exact hbelow (by simp [Part.expressionFields])
      · rintro e rfl
        exact hbelow (by simp [Part.expressionFields])
    | call place callee arguments =>
      obtain ⟨values, rfl⟩ := hnode
      exact stands_call (hbelow (by simp [Part.expressionFields]))
        (fun e he => hbelow (by simp [Part.expressionFields, he])) htight
    | unary place operator leading argument =>
      exact stands_unary hnode (hbelow (by simp [Part.expressionFields])) htight
    | binary place operator left right =>
      exact stands_binary (hbelow (by simp [Part.expressionFields]))
        (hbelow (by simp [Part.expressionFields])) htight
    | assignment place operator left right =>
      exact stands_assignment (hbelow (by simp [Part.expressionFields]))
        (hbelow (by simp [Part.expressionFields])) htight
    | conditional place test consequent alternate =>
      exact stands_conditional (hbelow (by simp [Part.expressionFields]))
        (hbelow (by simp [Part.expressionFields])) (hbelow (by simp [Part.expressionFields]))
        htight
    | tuple place components isArray =>
      have hcomponents : ∀ e, some e ∈ components → lexemes.StandsByWords e := fun e he =>
        hbelow (by simpa [Part.expressionFields, List.reduceOption_mem_iff] using he)
      cases isArray with
      | false => exact stands_tuple hnode hcomponents htight
      | true =>
        obtain ⟨values, rfl⟩ := exists_map_some fun slot (hslot : slot ∈ components) => by
          cases slot with
          | none => exact absurd hslot hnode
          | some e => exact ⟨e, rfl⟩
        exact stands_array (fun e he => hcomponents e (List.mem_map_of_mem he)) htight

/-! ### The words stand alone -/

/-- What holds of the words of an expression holds of the words of one that may be missing. -/
theorem forall_mem_wordsOfOption {σ : Type} {p : String → Prop} {slot : Option (Expression σ)}
    (h : ∀ e, slot = some e → ∀ word ∈ e.words, p word) : ∀ word ∈ wordsOfOption slot, p word := by
  cases slot with
  | none => exact nofun
  | some e => exact h e rfl

/-- The words of components are those of each of them, and commas. -/
theorem forall_mem_wordsOfSlots {σ : Type} {p : String → Prop} (hcomma : p ",") :
    {slots : List (Option (Expression σ))} →
      (∀ e, some e ∈ slots → ∀ word ∈ e.words, p word) → ∀ word ∈ wordsOfSlots slots, p word
  | [], _ => nofun
  | [slot], h => forall_mem_wordsOfOption fun e heq => h e (by simp [heq])
  | slot :: next :: slots, h => by
    simp only [wordsOfSlots_cons_cons, List.forall_mem_append, List.forall_mem_cons]
    exact ⟨forall_mem_wordsOfOption fun e heq => h e (by simp [heq]), hcomma,
      forall_mem_wordsOfSlots hcomma fun e he => h e (List.mem_cons_of_mem _ he)⟩

/-- The keywords and symbols that are written out. -/
theorem standsAlone_mark {word : String}
    (h : word ∈ [".", "[", "]", ":", "(", ")", "?", ",", "true", "false"]) :
    (Lexeme.ofText word).StandsAlone := by
  have hall : ∀ word ∈ [".", "[", "]", ":", "(", ")", "?", ",", "true", "false"],
      ∃ kind ∈ Kind.keywords ++ Kind.symbols, kind.text = word := by decide
  obtain ⟨kind, hkind, rfl⟩ := hall word h
  exact (Lexeme.standsAlone_kind hkind).ofText

/-- Every word of a well-formed tree is a token by itself. -/
theorem standsAlone_of_all (part : Part .bare) (h : part.All Part.OfOperators) :
    ∀ e, part = .expression e → ∀ word ∈ e.words, (Lexeme.ofText word).StandsAlone := by
  induction part using Part.induction with
  | step part ih =>
    rintro e rfl
    have hbelow {child : Expression Unit}
        (hchild : ∃ field ∈ Part.expressionFields e, Part.expression child ∈ field) :
        ∀ word ∈ child.words, (Lexeme.ofText word).StandsAlone := by
      obtain ⟨field, hfield, hchild⟩ := hchild
      exact ih field hfield _ hchild (h.below hfield hchild) child rfl
    have hcomma : (Lexeme.ofText ",").StandsAlone := standsAlone_mark (by decide)
    obtain ⟨hnode, -⟩ := h.here
    cases e with
    | string | callOptions | new => exact hnode.elim
    | identifier place name => exact List.forall_mem_singleton.mpr hnode.ofText
    | number place value raw unit =>
      obtain ⟨hraw, -, hunit⟩ := hnode
      refine List.forall_mem_cons.mpr ⟨hraw.elim (·.ofText) (·.ofText), fun word hword => ?_⟩
      exact (Lexeme.standsAlone_unit (hunit word (Option.mem_toList.mp hword))).ofText
    | boolean place value =>
      cases value <;> exact List.forall_mem_singleton.mpr (standsAlone_mark (by decide))
    | member place object property =>
      simp only [words_member, List.forall_mem_append, List.forall_mem_cons]
      exact ⟨hbelow (by simp [Part.expressionFields]), standsAlone_mark (by decide),
        hnode.ofText, nofun⟩
    | index place object subscript =>
      simp only [words_index, List.forall_mem_append, List.forall_mem_cons]
      refine ⟨⟨hbelow (by simp [Part.expressionFields]), standsAlone_mark (by decide), ?_⟩,
        standsAlone_mark (by decide), nofun⟩
      exact forall_mem_wordsOfOption fun e he => hbelow (by simp [Part.expressionFields, he])
    | slice place object first last =>
      simp only [words_slice, List.forall_mem_append, List.forall_mem_cons]
      refine ⟨⟨⟨hbelow (by simp [Part.expressionFields]), standsAlone_mark (by decide), ?_⟩,
        standsAlone_mark (by decide), ?_⟩, standsAlone_mark (by decide), nofun⟩
      · exact forall_mem_wordsOfOption fun e he => hbelow (by simp [Part.expressionFields, he])
      · exact forall_mem_wordsOfOption fun e he => hbelow (by simp [Part.expressionFields, he])
    | call place callee arguments =>
      obtain ⟨values, rfl⟩ := hnode
      simp only [words_call, List.forall_mem_append, List.forall_mem_cons]
      refine ⟨⟨hbelow (by simp [Part.expressionFields]), standsAlone_mark (by decide), ?_⟩,
        standsAlone_mark (by decide), nofun⟩
      exact forall_mem_wordsOfSlots hcomma fun child hchild =>
        hbelow ⟨values.map .expression, by simp [Part.expressionFields], by simpa using hchild⟩
    | unary place operator leading argument =>
      have hoperator := (Lexeme.standsAlone_kind (unary_kind operator)).ofText
      have hargument : ∀ word ∈ argument.words, (Lexeme.ofText word).StandsAlone :=
        hbelow (by simp [Part.expressionFields])
      cases leading with
      | true => exact List.forall_mem_cons.mpr ⟨hoperator, hargument⟩
      | false =>
        exact List.forall_mem_append.mpr ⟨hargument, List.forall_mem_singleton.mpr hoperator⟩
    | binary place operator left right =>
      simp only [words_binary, List.forall_mem_append, List.forall_mem_cons]
      exact ⟨hbelow (by simp [Part.expressionFields]),
        (Lexeme.standsAlone_kind (binary_kind operator)).ofText,
        hbelow (by simp [Part.expressionFields])⟩
    | assignment place operator left right =>
      simp only [words_assignment, List.forall_mem_append, List.forall_mem_cons]
      exact ⟨hbelow (by simp [Part.expressionFields]),
        (Lexeme.standsAlone_kind (assign_kind operator)).ofText,
        hbelow (by simp [Part.expressionFields])⟩
    | conditional place test consequent alternate =>
      simp only [words_conditional, List.forall_mem_append, List.forall_mem_cons]
      exact ⟨⟨hbelow (by simp [Part.expressionFields]), standsAlone_mark (by decide),
        hbelow (by simp [Part.expressionFields])⟩, standsAlone_mark (by decide),
        hbelow (by simp [Part.expressionFields])⟩
    | tuple place components isArray =>
      simp only [words_tuple, List.forall_mem_append, List.forall_mem_cons]
      refine ⟨⟨by cases isArray <;> exact standsAlone_mark (by decide), ?_⟩,
        by cases isArray <;> exact standsAlone_mark (by decide), nofun⟩
      exact forall_mem_wordsOfSlots hcomma fun child hchild => hbelow
        (by simpa [Part.expressionFields, List.reduceOption_mem_iff] using hchild)

/-- A node is well-formed if it is so itself, and all expressions right below are. -/
theorem WellFormed.of_below {e : Expression Unit} (below : List (Expression Unit))
    (h : e.OfOperators ∧ e.Tight)
    (hfields : (Part.expressionFields e).flatten = below.map (Part.expression (F := .bare)))
    (hbelow : ∀ child ∈ below, child.WellFormed) : e.WellFormed := by
  refine Part.all_iff.mpr ⟨h, fun field hfield part hpart => ?_⟩
  have hmem : part ∈ below.map (Part.expression (F := .bare)) :=
    hfields ▸ List.mem_flatten.mpr ⟨field, hfield, hpart⟩
  obtain ⟨child, hchild, rfl⟩ := List.mem_map.mp hmem
  exact hbelow child hchild

/-- A well-formed tree may stand by itself. -/
theorem WellFormed.isWhole {e : Expression Unit} (h : e.WellFormed) : e.IsWhole := by
  obtain ⟨hnode, -⟩ : e.OfOperators ∧ e.Tight := h.here
  unfold IsWhole
  cases e with
  | identifier place name =>
    rw [level, if_pos hnode.ofWord_eq]
    exact Nat.zero_le _
  | binary place operator left right =>
    rcases level_binary place operator left right with ⟨-, hlevel⟩ | ⟨l, hl, hlevel⟩ <;> rw [hlevel]
    · decide
    · exact Nat.le_of_lt (binaryLevel_lt hl)
  | unary place operator leading argument => cases leading <;> exact Nat.le_of_ble_eq_true rfl
  | assignment | conditional => exact Nat.le_refl _
  | _ => exact Nat.zero_le _

/-- The words of a well-formed tree with spaces between are the words of the input they make. -/
theorem lex_words {e : Expression Unit} (h : e.WellFormed) :
    (lex (" ".intercalate e.words)).tokens.lexemes =
      (e.words.map Lexeme.ofText ++ [(⟨.eof, ""⟩ : Lexeme)]).toArray := by
  have hlex := lex_spaced (e.words.map Lexeme.ofText) (by
    simpa using standsAlone_of_all (.expression e) h e rfl)
  rwa [List.map_map, show (·.text) ∘ Lexeme.ofText = id from rfl, List.map_id] at hlex

end Expression

/-! ### Reading operator trees -/

/-- The words of a row, with the end after them, are spelled by their texts. -/
theorem Lexemes.spells_row (before words after : List Lexeme)
    (hwords : ∀ word ∈ words, word.kind ≠ .eof) :
    Lexemes.Spells (before ++ words ++ after).toArray before.length
      (words.map fun word => .word word.kind word.text) (before.length + words.length) := by
  induction words generalizing before with
  | nil => rfl
  | cons word words ih =>
    have hnext := ih (before ++ [word]) fun w hw => hwords w (List.mem_cons_of_mem _ hw)
    rw [List.append_assoc before, List.singleton_append] at hnext
    refine ⟨⟨hwords word (by simp), ?_, ?_⟩, ?_⟩
    · simp [kindAt]
    · simp [textAt]
    · simpa [Nat.add_assoc, Nat.add_comm 1] using hnext

namespace Source

/-- A well-formed operator tree is read from its words with spaces between, if these are not too
long; and whatever is read from a source is a tree in which all operands bind as tightly as they
have to. -/
theorem parseExpression_words :
    (∀ e : Expression Unit, e.WellFormed → WithinLimit (" ".intercalate e.words) →
      (parseExpression (" ".intercalate e.words)).map (·.relocate fun _ => ()) = .ok e) ∧
    ∀ (source : String) (e : Expression Span), parseExpression source = .ok e →
      e.IsWhole ∧ (Part.expression e : Part .located).All Part.Tight := by
  constructor
  · intro e h hsize
    have hlex := Expression.lex_words h
    generalize " ".intercalate e.words = source at hlex hsize
    -- the words are a phrase of the input, up to its end
    have hne : ∀ word ∈ e.words.map Lexeme.ofText, word.kind ≠ .eof := by
      simpa using fun word hword => Lexer.ne_eof_of_standsAlone
        (Expression.standsAlone_of_all (.expression e) h e rfl word hword)
    have hspells := Lexemes.spells_row [] (e.words.map Lexeme.ofText) [⟨.eof, ""⟩] hne
    rw [List.nil_append, ← hlex, List.map_map] at hspells
    have hend : (lex source).tokens.lexemes.kindAt (0 + e.words.length) = .eof := by
      rw [hlex]
      simp [Lexemes.kindAt]
    simp only [List.length_nil, List.length_map] at hspells
    obtain ⟨placed, hplaced, hphrase⟩ := Expression.standsByWords_of_all (.expression e) h e rfl
      0 _ hspells (by rw [hend]; decide)
    have hwhole : placed.IsWhole :=
      (Expression.isWhole_relocate (fun _ => ()) placed).mp (hplaced ▸ h.isWhole)
    rw [parseExpression_eq_ok_iff.mpr ⟨hsize, placed, _, hphrase, hwhole, hend, rfl⟩]
    simp only [Except.map, Expression.relocate_relocate]
    exact congrArg Except.ok hplaced
  · intro source e h
    obtain ⟨-, v, n, hphrase, hwhole, -, rfl⟩ := parseExpression_eq_ok_iff.mp h
    refine ⟨(Expression.isWhole_relocate _ v).mpr hwhole, ?_⟩
    have htight := hphrase.holds.mono fun part hpart =>
      (Part.tight_relocate (layout source).relocation part).mpr hpart.1
    exact (Part.all_relocate (layout source).relocation).mpr htight

/-- A choice whose last branch is an assignment, read from its words. In its test two subtractions
group to the left, and operators of five levels meet. -/
theorem parseExpression_words_choice :
    let name := Expression.identifier ()
    let power := Expression.binary () .pow (.unary () .neg true (name "a"))
      (.number () (.integer 2) "2" (some "wei"))
    let difference := Expression.binary () .sub (.binary () .sub power (name "b"))
      (.binary () .mul (name "c") (name "d"))
    let test := Expression.binary () .or difference
      (.binary () .notEq (name "g") (.binary () .bitAnd (name "h") (name "i")))
    let e := Expression.conditional () test (.index () (name "b") none)
      (.assignment () .add (.tuple () [some (name "c"), none] false)
        (.call () (name "d") (.positional [.unary () .increment false (name "f")])))
    " ".intercalate e.words = "- a ** 2 wei - b - c * d || g != h & i ? b [ ] : ( c , ) += d ( f ++ )" ∧
      e.WellFormed ∧ WithinLimit (" ".intercalate e.words) ∧
      (parseExpression (" ".intercalate e.words)).map (·.relocate fun _ => ()) = .ok e := by
  intro name power difference test e
  have binary {operator : BinaryOp} {left right : Expression Unit} (hleft : left.WellFormed)
      (hright : right.WellFormed) (htight : (Expression.binary () operator left right).Tight) :
      (Expression.binary () operator left right).WellFormed :=
    .of_below [_, _] ⟨trivial, htight⟩ rfl (by simpa using ⟨hleft, hright⟩)
  have hname (word : String) (h : word ∈ ["a", "b", "c", "d", "f", "g", "h", "i"]) :
      (name word).WellFormed :=
    .of_below [] ⟨⟨by revert word; decide +kernel, Kind.noConfusion, rfl⟩, trivial⟩ rfl (by simp)
  -- the test
  have htwo : (Expression.number () (.integer 2) "2" (some "wei")).WellFormed :=
    .of_below [] ⟨⟨.inl ⟨by decide +kernel, by decide, rfl⟩, by decide, by decide⟩, trivial⟩ rfl
      (by simp)
  have hnegative : (Expression.unary () .neg true (name "a")).WellFormed :=
    .of_below [name "a"] ⟨.inl rfl, Nat.zero_le 1⟩ rfl (by simpa using hname "a" (by decide))
  have hpower : power.WellFormed :=
    binary hnegative htwo ((Expression.tight_pow _ _ _).mpr ⟨by decide, by decide⟩)
  have hproduct : (Expression.binary () .mul (name "c") (name "d")).WellFormed :=
    binary (hname "c" (by decide)) (hname "d" (by decide))
      ((Expression.tight_binary rfl _ _ _).mpr ⟨by decide, by decide⟩)
  have hfirst : (Expression.binary () .sub power (name "b")).WellFormed :=
    binary hpower (hname "b" (by decide))
      ((Expression.tight_binary rfl _ _ _).mpr ⟨by decide, by decide⟩)
  have hdifference : difference.WellFormed :=
    binary hfirst hproduct ((Expression.tight_binary rfl _ _ _).mpr ⟨by decide, by decide⟩)
  have hbits : (Expression.binary () .bitAnd (name "h") (name "i")).WellFormed :=
    binary (hname "h" (by decide)) (hname "i" (by decide))
      ((Expression.tight_binary rfl _ _ _).mpr ⟨by decide, by decide⟩)
  have hcompared : (Expression.binary () .notEq (name "g")
      (.binary () .bitAnd (name "h") (name "i"))).WellFormed :=
    binary (hname "g" (by decide)) hbits
      ((Expression.tight_binary rfl _ _ _).mpr ⟨by decide, by decide⟩)
  have htest : test.WellFormed :=
    binary hdifference hcompared ((Expression.tight_binary rfl _ _ _).mpr ⟨by decide, by decide⟩)
  -- the branches
  have hindex : (Expression.index () (name "b") none).WellFormed :=
    .of_below [name "b"] ⟨trivial, by decide, by simp⟩ rfl (by simpa using hname "b" (by decide))
  have hlast : (Expression.unary () .increment false (name "f")).WellFormed :=
    .of_below [name "f"] ⟨.inr (.inl rfl), rfl⟩ rfl (by simpa using hname "f" (by decide))
  have hcall : (Expression.call () (name "d")
      (.positional [.unary () .increment false (name "f")])).WellFormed :=
    .of_below [name "d", _]
      ⟨⟨_, rfl⟩, .inl (by decide), by simpa [Arguments.AreWhole] using hlast.isWhole⟩ rfl
      (by simpa using ⟨hname "d" (by decide), hlast⟩)
  have hpair : (Expression.tuple () [some (name "c"), none] false).WellFormed :=
    .of_below [name "c"]
      ⟨by simp [Expression.OfOperators],
        by simpa [Expression.Tight] using (hname "c" (by decide)).isWhole⟩ rfl
      (by simpa using hname "c" (by decide))
  have hassigned : (Expression.assignment () .add (.tuple () [some (name "c"), none] false)
      (.call () (name "d")
        (.positional [.unary () .increment false (name "f")]))).WellFormed :=
    .of_below [_, _] ⟨trivial, by decide, hcall.isWhole⟩ rfl (by simpa using ⟨hpair, hcall⟩)
  have h : e.WellFormed :=
    .of_below [_, _, _] ⟨trivial, by decide, hindex.isWhole, Nat.le_refl _⟩ rfl
      (by simpa using ⟨htest, hindex, hassigned⟩)
  have hwords : " ".intercalate e.words =
      "- a ** 2 wei - b - c * d || g != h & i ? b [ ] : ( c , ) += d ( f ++ )" := by decide
  have hsize : WithinLimit (" ".intercalate e.words) := by
    rw [hwords, withinLimit_ofList]
    decide
  exact ⟨hwords, h, hsize, parseExpression_words.1 e h hsize⟩

end Source

end SolidityParser
