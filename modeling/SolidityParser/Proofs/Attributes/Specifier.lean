import SolidityParser.Proofs.Attributes.Sort
import SolidityParser.Proofs.Complete.Declaration
import SolidityParser.Proofs.Production.Carry
import SolidityParser.Proofs.Production.Unread
import SolidityParser.Proofs.Imports.State
import SolidityParser.Proofs.Rows

/-!
# The words of attributes

A `Specifier` is an attribute of a function by its words, with parentheses around a group in which
all brackets are matched. Attributes that are spelled where specifiers stand take up one of them
each (`Lexemes.HasRow.specifier_row`): a group ends at the first bracket that closes it, and
attributes go on at the next word that begins one. A specifier says the same wherever it stands
(`Specifier.Says`), since what is inside parentheses does not see what comes after them.
-/

namespace SolidityParser

open SolidityParser.Symbol (separated series)
open Grammar (EndsAttribute)

/-! ### Groups -/

/-- Words among which all brackets are matched. -/
structure Lexeme.Group where
  /-- The words. -/
  words : List Lexeme
  /-- They close what they open. -/
  nested : Kind.Nested (words.map (·.kind))

/-- A group between parentheses, if there is one. -/
def Lexeme.parenthesized : Option Group → List Lexeme
  | none => []
  | some group => .of .lparen :: (group.words ++ [.of .rparen])

/-- Items between parentheses, if there are any. -/
def Symbol.parenthesized : Option (List (List Symbol)) → List Symbol
  | none => []
  | some items => .token .lparen :: series .rparen items

namespace Lexemes

variable {lexemes other : Lexemes} {i i' j j' k : Nat} {words more : List Lexeme}
  {symbols : List Symbol} {items : List (List Symbol)} {given : Option (List (List Symbol))}

/-- The kinds of a row are those of its words. -/
theorem HasRow.kinds_eq (h : lexemes.HasRow i words j) :
    lexemes.kinds ⟨i, j⟩ = words.map (·.kind) := by
  induction words generalizing i with
  | nil =>
    obtain rfl : i = j := h
    exact kinds_self ..
  | cons word words ih =>
    have hj := h.length
    rw [kinds_cons (by rw [List.length_cons] at hj; omega), h.1.1, ih h.2, List.map_cons]

/-- The words of a row are kept where the row stands in another input. -/
theorem HasRow.keeps (h : lexemes.HasRow i words j) (h' : other.HasRow i' words j') {n : Nat}
    (hn : i ≤ n) (hlt : n < j) : lexemes.Keeps other (fun n => n - i + i') n := by
  obtain ⟨rfl, hwords⟩ := hasRow_iff.mp h
  obtain ⟨-, hwords'⟩ := hasRow_iff.mp h'
  obtain ⟨d, rfl⟩ := Nat.exists_eq_add_of_le hn
  have hd : d < words.length := by omega
  refine ⟨?_, by omega⟩
  rw [hwords d hd, ← hwords' d hd, Nat.add_sub_cancel_left, Nat.add_comm]

/-- All brackets of the symbols are matched, and so are those of the parts that they name. -/
structure Closes (lexemes : Lexemes) (symbols : List Symbol) : Prop where
  /-- Those of the symbols are. -/
  paired : Symbol.Paired symbols
  /-- Each part stands in the input, and is one that leaves nothing unread. -/
  parts : ∀ place, .part place ∈ symbols → ∃ part : Part .parsed, part.place = place ∧
    part.IsOpen ∧ part.All lexemes.Holds

/-- A part that is no statement closes what it opens. -/
theorem Closes.part (part : Part .parsed) (hopen : part.IsOpen)
    (h : part.All lexemes.Holds) : lexemes.Closes [.part part.place] :=
  ⟨Symbol.paired_part, by simpa using ⟨part, rfl, hopen, h⟩⟩

/-- So does a path, which opens nothing. -/
theorem Closes.path (written : WrittenPath) : lexemes.Closes [written.symbol] :=
  ⟨Symbol.paired_path, by simp [WrittenPath.symbol]⟩

/-- So do items with commas between them. -/
theorem Closes.separated (h : ∀ item ∈ items, lexemes.Closes item) :
    lexemes.Closes (separated items) := by
  refine ⟨Symbol.paired_separated fun item hitem => (h item hitem).paired, fun place hplace => ?_⟩
  obtain ⟨item, hitem, hplace⟩ := (Symbol.mem_separated (by simp)).mp hplace
  exact (h item hitem).parts place hplace

/-- What they stand for is nested. -/
theorem Spells.nested (h : lexemes.Spells i symbols j) (hcloses : lexemes.Closes symbols) :
    Kind.Nested (lexemes.kinds ⟨i, j⟩) := by
  have henters : lexemes.Enters (fun _ => False) [] i [] j := by
    refine h.enters (hcloses.paired []) (fun place hplace closers => ?_) (by simp)
    obtain ⟨part, rfl, hopen, hall⟩ := hcloses.parts place hplace
    exact (enters_of_all (hall.mono fun _ => .phrase) closers).congr fun n _ _ =>
      iff_of_false hopen.not_hides id
  refine Kind.nested_of_enterAll? ?_
  simpa [kinds] using henters.enterAll?

/-- Between parentheses stands a group. -/
theorem Spells.exists_close (h : lexemes.Spells i (Symbol.parenthesized (some items)) k)
    (hitems : ∀ item ∈ items, lexemes.Closes item) :
    ∃ m, lexemes.kindAt i = .lparen ∧ i < m ∧ Kind.Nested (lexemes.kinds ⟨i + 1, m⟩) ∧
      lexemes.kindAt m = .rparen ∧ m + 1 = k := by
  obtain ⟨⟨-, hopen⟩, hseries⟩ := h
  obtain ⟨m, hinner, ⟨-, hclose⟩, hm⟩ := spells_append.mp hseries
  exact ⟨m, hopen, hinner.inside.1, hinner.nested (.separated hitems), hclose, hm⟩

/-- What is spelled between parentheses takes up the group that stands there. -/
theorem HasRow.group {group : Lexeme.Group}
    (hrow : lexemes.HasRow i (Lexeme.parenthesized (some group) ++ more) j)
    (hspells : lexemes.Spells i (Symbol.parenthesized (some items)) k)
    (hitems : ∀ item ∈ items, lexemes.Closes item) : lexemes.HasRow k more j := by
  rw [Lexeme.parenthesized, List.cons_append, List.append_assoc] at hrow
  obtain ⟨-, hrow⟩ := hrow
  obtain ⟨m, hinner, ⟨hclose, -⟩, hmore⟩ := hasRow_append.mp hrow
  obtain ⟨l, -, hl, hnested, hclose', rfl⟩ := hspells.exists_close hitems
  have hnested' : Kind.Nested (lexemes.kinds ⟨i + 1, m⟩) := hinner.kinds_eq ▸ group.nested
  have hm := hinner.length
  suffices heq : lexemes.kinds ⟨i + 1, l⟩ = lexemes.kinds ⟨i + 1, m⟩ by
    have hlength := congrArg List.length heq
    simp only [kinds, List.length_map, List.length_range'] at hlength
    obtain rfl : l = m := by omega
    exact hmore
  -- both go on with a closing bracket, and from there to the same end
  have hsplit {n : Nat} (hn : i + 1 ≤ n) (hkind : lexemes.kindAt n = .rparen)
      (hle : n ≤ max l m) :
      lexemes.kinds ⟨i + 1, n⟩ ++ .rparen :: lexemes.kinds ⟨n + 1, max l m + 1⟩ =
        lexemes.kinds ⟨i + 1, max l m + 1⟩ := by
    rw [← hkind, ← kinds_cons (by omega), kinds_append hn (by omega)]
  have hleft := hsplit hl hclose' (Nat.le_max_left ..)
  have hright := hsplit (by omega) hclose (Nat.le_max_right ..)
  exact hnested.eq_of_close hnested' rfl (hleft.trans hright.symm)

/-- So it does where there may be none, if what comes next cannot be one. -/
theorem HasRow.parenthesized {group : Option Lexeme.Group}
    (hrow : lexemes.HasRow i (Lexeme.parenthesized group ++ more) j)
    (hspells : lexemes.Spells i (Symbol.parenthesized given) k)
    (hgiven : ∀ items ∈ given, ∀ item ∈ items, lexemes.Closes item)
    (hmore : ∀ l, lexemes.HasRow l more j → EndsAttribute (lexemes.kindAt l))
    (hk : EndsAttribute (lexemes.kindAt k)) : lexemes.HasRow k more j := by
  cases group with
  | none =>
    cases given with
    | none =>
      obtain rfl : i = k := hspells
      exact hrow
    | some items => exact absurd hspells.1.2 (hmore i hrow).2
  | some group =>
    cases given with
    | none =>
      obtain rfl : i = k := hspells
      exact absurd hrow.1.1 hk.2
    | some items => exact hrow.group hspells (hgiven items rfl)

/-- What is spelled between parentheses is a group between them. -/
theorem Spells.exists_group (hspelled : lexemes.Spelled)
    (hspells : lexemes.Spells i (Symbol.parenthesized (some items)) k)
    (hitems : ∀ item ∈ items, lexemes.Closes item) :
    ∃ group, lexemes.HasRow i (Lexeme.parenthesized (some group)) k := by
  obtain ⟨m, hopen, hm, hnested, hclose, rfl⟩ := hspells.exists_close hitems
  obtain ⟨words, hwords⟩ := exists_hasRow lexemes hm
  exact ⟨⟨words, hwords.kinds_eq ▸ hnested⟩, .of hspelled (by decide) ⟨by decide, hopen⟩
    (hwords.append (.of hspelled (by decide) ⟨by decide, hclose⟩ rfl))⟩

/-- What is spelled in parentheses, or without any, is a group or none. -/
theorem Spells.exists_parenthesized (hspelled : lexemes.Spelled)
    (hspells : lexemes.Spells i (Symbol.parenthesized given) k)
    (hgiven : ∀ items ∈ given, ∀ item ∈ items, lexemes.Closes item) :
    ∃ group, lexemes.HasRow i (Lexeme.parenthesized group) k := by
  cases given with
  | none => exact ⟨none, hspells⟩
  | some items =>
    obtain ⟨group, hgroup⟩ := hspells.exists_group hspelled (hgiven items rfl)
    exact ⟨some group, hgroup⟩

/-- What is spelled as a path takes up the path that stands there, if neither goes on. -/
theorem HasRow.path_end {first first' : String} {names names' : List String}
    (hrow : lexemes.HasRow i (Lexeme.ofPath first names ++ more) j)
    (hspells : lexemes.Spells i (Symbol.names first' names') k)
    (hmore : ∀ l, lexemes.HasRow l more j → lexemes.kindAt l ≠ .dot)
    (hk : lexemes.kindAt k ≠ .dot) : lexemes.HasRow k more j := by
  obtain ⟨-, hrow⟩ := hrow
  obtain ⟨-, hspells⟩ := hspells
  induction names generalizing i names' with
  | nil =>
    cases names' with
    | nil =>
      obtain rfl : i + 1 = k := hspells
      exact hrow
    | cons name names' => exact absurd hspells.1.2 (hmore _ hrow)
  | cons name names ih =>
    obtain ⟨⟨hdot, -⟩, -, hrow⟩ := hrow
    cases names' with
    | nil =>
      obtain rfl : i + 1 = k := hspells
      exact absurd hdot hk
    | cons name' names' =>
      obtain ⟨-, -, hspells⟩ := hspells
      exact ih hrow hspells

/-! ### Lists in parentheses -/

/-- After `override` come the bases, if they are listed. -/
theorem Spells.overrides_split {listed : Option (List WrittenPath)}
    (h : lexemes.Spells i (Attribute.overrides listed).symbols k) :
    lexemes.kindAt i = .kwOverride ∧ lexemes.Spells (i + 1)
      (Symbol.parenthesized (listed.map (List.map fun base => [base.symbol]))) k := by
  obtain ⟨⟨-, hk⟩, hlisted⟩ := h
  exact ⟨hk, by cases listed <;> exact hlisted⟩

/-- A list of bases closes what it opens. -/
theorem closes_bases {listed : Option (List WrittenPath)} :
    ∀ items ∈ listed.map (List.map fun base => [base.symbol]), ∀ item ∈ items,
      lexemes.Closes item := by
  simp only [Option.mem_def, Option.map_eq_some_iff, forall_exists_index, and_imp,
    forall_apply_eq_imp_iff₂, List.forall_mem_map]
  exact fun _ _ base _ => .path base

/-- A modifier is a path, and arguments after it if they are given. -/
theorem Holds.invocation_split {v : Invocation Extent}
    (h : (Part.invocation v : Part .parsed).All lexemes.Holds) :
    ∃ first names m given, lexemes.Spells v.place.first (Symbol.names first names) m ∧
      lexemes.Spells m (Symbol.parenthesized given) v.place.next ∧
      ∀ items ∈ given, ∀ item ∈ items, lexemes.Closes item := by
  obtain ⟨-, symbols, hphrased, hspells⟩ := h.here
  cases hphrased with
  | @invocation place first names values =>
    obtain ⟨m, hpath, harguments⟩ := spells_append.mp hspells
    refine ⟨first, names, m, values.map (List.map fun e => [.part e.place]), hpath, ?_, ?_⟩
    · cases values <;> exact harguments
    · simp only [Option.mem_def, Option.map_eq_some_iff, forall_exists_index, and_imp,
        forall_apply_eq_imp_iff₂, List.forall_mem_map]
      rintro values rfl e he
      exact .part (.expression e) trivial
        (h.below (List.mem_singleton_self _) (List.mem_map_of_mem he))

/-- A modifier is where its words are. -/
theorem carry_invocation {v : Invocation Extent} {f : Nat → Nat}
    (h : (Part.invocation v : Part .parsed).All lexemes.Holds)
    (hkept : ∀ n, v.place.first ≤ n → n < v.place.next → lexemes.Keeps other f n) :
    (Part.invocation (v.relocate (Extent.move f)) : Part .parsed).All other.Holds := by
  obtain ⟨htight, symbols, hphrased, hspells⟩ := h.here
  change ((Part.invocation v : Part .parsed).relocate (.move f)).All other.Holds
  cases hphrased with
  | @invocation place first names values =>
    cases values with
    | none =>
      refine Part.all_iff.mpr ⟨Holds.carry htight .invocation hspells hkept ?_, by
        simp [Part.fields, Part.relocate, Invocation.relocate]⟩
      intro front tests rest k hsplit
      have hmem : .no tests ∈ front ++ .no tests :: rest := by simp
      rw [← hsplit] at hmem
      simp at hmem
    | some values =>
      have hsymbols : Symbol.names first names ++ Symbol.arguments (some values) =
          (Symbol.names first names ++ .token .lparen ::
            Symbol.separated (values.map fun e => [.part e.place])) ++ [.token .rparen] := by
        simp [Symbol.arguments, series]
      rw [hsymbols] at hspells
      exact carry_holds_of_last h (hsymbols ▸ .invocation) hspells (by decide) hkept

/-- A path that is spelled in a row is a phrase. -/
theorem Spells.path_holds {written : WrittenPath} (h : lexemes.Spells i symbols j)
    (hmem : written.symbol ∈ symbols) :
    (Part.path written.path : Part .parsed).All lexemes.Holds := by
  obtain ⟨front, rest, rfl⟩ := List.append_of_mem hmem
  obtain ⟨k, -, hpath⟩ := spells_append.mp h
  obtain ⟨rfl, hnames, -⟩ := spells_path_iff.mp hpath
  have hphrase : lexemes.IsPhrase written.place.first (.path written.path) written.place.next :=
    .of_written rfl (by simp [Part.Tight, Part.fields]) .path hnames (by simp [Part.fields])
  exact hphrase.holds

end Lexemes

/-! ### Attributes in a row -/

/-- An attribute of a function stands in the input, from one index up to another. -/
structure Lexemes.HasAttribute (lexemes : Lexemes) (i : Nat) (item : Attribute) (j : Nat) :
    Prop where
  /-- It is written there. -/
  spells : lexemes.Spells i item.symbols j
  /-- It is one of a function. -/
  ofFunction : item.IsOfFunction
  /-- A modifier stands there. -/
  invocation : ∀ v, item = .modifier v → (Part.invocation v : Part .parsed).All lexemes.Holds

/-- From one index up to another, the attributes of a row stand one after the other. -/
def Lexemes.HasAttributes (lexemes : Lexemes) : Nat → List Attribute → Nat → Prop
  | i, [], j => i = j
  | i, item :: items, j => ∃ k, lexemes.HasAttribute i item k ∧ lexemes.HasAttributes k items j

namespace Lexemes

variable {lexemes other : Lexemes} {i j : Nat} {item : Attribute} {items : List Attribute}

/-- Attributes in a row are those that are spelled one after the other, each of a function, and with
modifiers that hold. -/
theorem hasAttributes_iff :
    lexemes.HasAttributes i items j ↔ lexemes.Spells i (Symbol.attributes items) j ∧
      (∀ item ∈ items, item.IsOfFunction) ∧
      ∀ v, .modifier v ∈ items → (Part.invocation v : Part .parsed).All lexemes.Holds := by
  induction items generalizing i with
  | nil => simp [HasAttributes, Symbol.attributes]
  | cons item items ih =>
    have hsymbols : Symbol.attributes (item :: items) =
      item.symbols ++ Symbol.attributes items := rfl
    simp only [HasAttributes, ih, hsymbols, spells_append, List.forall_mem_cons]
    constructor
    · rintro ⟨k, ⟨hspells, hitem, hone⟩, hrest, hitems, hall⟩
      exact ⟨⟨k, hspells, hrest⟩, ⟨hitem, hitems⟩,
        fun v hv => (List.mem_cons.mp hv).elim (fun hv => hone v hv.symm) (hall v)⟩
    · rintro ⟨⟨k, hspells, hrest⟩, ⟨hitem, hitems⟩, hall⟩
      exact ⟨k, ⟨hspells, hitem, fun v hv => hall v (hv ▸ List.mem_cons_self ..)⟩, hrest, hitems,
        fun v hv => hall v (.tail _ hv)⟩

/-- What attributes keep is where they stand. -/
theorem HasAttributes.holds (h : lexemes.HasAttributes i items j) :
    lexemes.HoldsAttributes (FunctionAttributes.ofItems items) := by
  obtain ⟨hspells, -, hholds⟩ := hasAttributes_iff.mp h
  refine ⟨fun v hv => hholds v (FunctionAttributes.mem_modifiers_ofItems.mp hv), fun p hp => ?_⟩
  obtain ⟨listed, hmem, hp⟩ := FunctionAttributes.exists_of_mem_overrides hp
  cases listed with
  | none => cases hp
  | some bases =>
    obtain ⟨written, hwritten, rfl⟩ := List.mem_map.mp hp
    refine hspells.path_holds (List.mem_flatMap.mpr ⟨_, hmem, ?_⟩)
    simp only [Attribute.symbols, Attribute.baseSymbols, List.mem_cons]
    refine .inr (.inr ?_)
    rw [Symbol.mem_series (by simp [WrittenPath.symbol]) (by simp [WrittenPath.symbol])]
    exact ⟨[written.symbol], List.mem_map_of_mem hwritten, List.mem_singleton_self _⟩

/-- A modifier begins with a name. -/
theorem HasAttribute.ident (h : lexemes.HasAttribute i item j) (v : Invocation Extent)
    (hv : item = .modifier v) : lexemes.kindAt v.place.first = .ident := by
  have hphrase : lexemes.IsPhrase v.place.first (.invocation v) v.place.next :=
    ⟨rfl, h.invocation v hv⟩
  exact hphrase.invocation_begins

/-- An attribute begins with a token that may begin one. -/
theorem HasAttribute.begins (h : lexemes.HasAttribute i item j) :
    (lexemes.kindAt i).beginsAttribute = true :=
  Attribute.begins h.spells h.ident

/-- The first word of an attribute tells its sort. -/
theorem HasAttribute.sort? (h : lexemes.HasAttribute i item j) :
    item.sort? = some (lexemes.kindAt i).attributeSort := by
  have hspells := h.spells
  cases item with
  | visibility value | mutability value =>
    rw [hspells.1.2]
    cases value <;> rfl
  | isVirtual | overrides =>
    rw [hspells.1.2]
    rfl
  | modifier v =>
    rw [← hspells.1.1, h.ident v rfl]
    rfl
  | isConstant | isImmutable => exact h.ofFunction.elim

/-- An attribute is where its words are. -/
theorem HasAttribute.carry {f : Nat → Nat} (h : lexemes.HasAttribute i item j)
    (hkept : ∀ n, i ≤ n → n < j → lexemes.Keeps other f n) :
    other.HasAttribute (f i) (item.move f) (f j) where
  spells := by
    rw [Attribute.move_symbols]
    refine h.spells.carry (fun n hn hlt _ => hkept n hn hlt) (fun place hplace => ?_)
      fun front tests rest k hsplit => ?_
    · obtain ⟨hfirst, hnext, hcovers⟩ := h.spells.part_inside (mem_parts_of_part hplace)
      exact hcovers.carry fun n hn hlt => hkept n (by omega) (by omega)
    · have hno : .no tests ∉ Symbol.attributes [item] := Symbol.no_not_mem_attributes
      simp [Symbol.attributes, hsplit] at hno
  ofFunction := Attribute.isOfFunction_move.mpr h.ofFunction
  invocation v hv := by
    cases item with
    | modifier value =>
      cases hv
      obtain ⟨⟨hfirst, -⟩, hnext⟩ := h.spells
      have hnext : value.place.next = j := hnext
      exact carry_invocation (h.invocation value rfl) fun n hn hlt => hkept n (by omega) (by omega)
    | _ => cases hv

end Lexemes

/-! ### Specifiers -/

/-- An attribute of a function, by its words. -/
inductive Specifier
  /-- Who may use the function. -/
  | visibility (value : Visibility)
  /-- What it does with the state. -/
  | mutability (value : StateMutability)
  /-- It may be overridden. -/
  | isVirtual
  /-- It overrides what it has from its bases, or from those that are listed. -/
  | overrides (bases : Option Lexeme.Group)
  /-- A modifier, with its arguments if there are parentheses. -/
  | modifier (first : String) (more : List String) (arguments : Option Lexeme.Group)

namespace Specifier

/-- The words of a specifier. -/
def words : Specifier → List Lexeme
  | visibility value => [.of value.kind]
  | mutability value => [.of value.kind]
  | isVirtual => [.of .kwVirtual]
  | overrides bases => .of .kwOverride :: Lexeme.parenthesized bases
  | modifier first more arguments => Lexeme.ofPath first more ++ Lexeme.parenthesized arguments

/-- What a specifier says something about. -/
def sort : Specifier → AttributeSort
  | visibility _ => .visibility
  | mutability _ => .mutability
  | isVirtual => .isVirtual
  | overrides _ => .overrides
  | modifier .. => .modifier

/-- Wherever the words of a specifier stand, they are an attribute, which is always the same but for
its places. -/
structure Says (s : Specifier) (said : Attribute) : Prop where
  /-- It is of the same sort. -/
  sort : said.sort? = some s.sort
  /-- It stands wherever the words do. -/
  stands : ∀ {lexemes : Lexemes} {i j : Nat}, lexemes.HasRow i s.words j →
    ∃ item, item.move (fun _ => 0) = said ∧ lexemes.HasAttribute i item j

end Specifier

namespace Lexemes

variable {lexemes : Lexemes} {i j k : Nat} {s : Specifier} {specifiers : List Specifier}
  {item : Attribute} {items : List Attribute} {more : List Lexeme}

/-- A specifier begins as an attribute of its sort does. -/
theorem HasRow.begins (h : lexemes.HasRow i (s.words ++ more) j) :
    (lexemes.kindAt i).beginsAttribute = true ∧ (lexemes.kindAt i).attributeSort = s.sort := by
  cases s with
  | visibility value | mutability value =>
    rw [show lexemes.kindAt i = value.kind from h.1.1]
    cases value <;> exact ⟨rfl, rfl⟩
  | isVirtual | overrides | modifier =>
    rw [h.1.1]
    exact ⟨rfl, rfl⟩

/-- The words of an attribute are a specifier. -/
theorem HasAttribute.exists_specifier (hspelled : lexemes.Spelled)
    (h : lexemes.HasAttribute i item j) : ∃ s : Specifier, lexemes.HasRow i s.words j := by
  have hspells := h.spells
  cases item with
  | visibility value =>
    exact ⟨.visibility value, .of hspelled (by cases value <;> decide) hspells.1 hspells.2⟩
  | mutability value =>
    exact ⟨.mutability value, .of hspelled (by cases value <;> decide) hspells.1 hspells.2⟩
  | isVirtual => exact ⟨.isVirtual, .of hspelled (by decide) hspells.1 hspells.2⟩
  | overrides listed =>
    obtain ⟨hk, hlisted⟩ := hspells.overrides_split
    obtain ⟨group, hgroup⟩ := hlisted.exists_parenthesized hspelled closes_bases
    exact ⟨.overrides group, .of hspelled (by decide) ⟨by decide, hk⟩ hgroup⟩
  | modifier v =>
    obtain ⟨⟨rfl, -⟩, rfl⟩ := hspells
    obtain ⟨first, names, m, given, hpath, hgiven, hcloses⟩ :=
      Holds.invocation_split (h.invocation v rfl)
    obtain ⟨group, hgroup⟩ := hgiven.exists_parenthesized hspelled hcloses
    exact ⟨.modifier first names group, (hpath.path_hasRow hspelled).append hgroup⟩
  | isConstant | isImmutable => exact h.ofFunction.elim

/-- An attribute takes up the specifier that stands where it does. -/
theorem HasRow.specifier (hrow : lexemes.HasRow i (s.words ++ more) j)
    (h : lexemes.HasAttribute i item k)
    (hmore : ∀ l, lexemes.HasRow l more j → EndsAttribute (lexemes.kindAt l))
    (hk : EndsAttribute (lexemes.kindAt k)) : lexemes.HasRow k more j := by
  have hsort : item.sort? = some s.sort := by rw [h.sort?, hrow.begins.2]
  have hspells := h.spells
  cases s with
  | visibility value | mutability value | isVirtual =>
    cases item <;> cases hsort
    obtain ⟨-, rfl⟩ := hspells
    exact hrow.2
  | overrides bases =>
    cases item <;> cases hsort
    exact hrow.2.parenthesized hspells.overrides_split.2 closes_bases hmore hk
  | modifier first names arguments =>
    cases item <;> cases hsort
    rename_i v
    obtain ⟨⟨rfl, -⟩, rfl⟩ := hspells
    obtain ⟨first', names', m, given, hpath, hgiven, hcloses⟩ :=
      Holds.invocation_split (h.invocation v rfl)
    rw [Specifier.words, List.append_assoc] at hrow
    refine (hrow.path_end hpath (fun l hl => ?_) ?_).parenthesized hgiven hcloses hmore hk
    · cases arguments with
      | none => exact (hmore l hl).1
      | some _ =>
        rw [hl.1.1]
        decide
    · cases given with
      | none =>
        obtain rfl : m = v.place.next := hgiven
        exact hk.1
      | some _ =>
        rw [hgiven.1.2]
        decide

/-- A specifier that is an attribute somewhere says that one. -/
theorem HasRow.tells (hrow : lexemes.HasRow i s.words j) (h : lexemes.HasAttribute i item j) :
    s.Says (item.move fun _ => 0) where
  sort := by
    rw [← List.append_nil s.words] at hrow
    rw [Attribute.sort?_move, h.sort?, hrow.begins.2]
  stands {other i' j'} hrow' := by
    have hlength := hrow.length
    have hlength' := hrow'.length
    have hcarried := h.carry fun n hn hlt => hrow.keeps hrow' hn hlt
    rw [show i - i + i' = i' by omega, show j - i + i' = j' by omega] at hcarried
    exact ⟨_, Attribute.move_move .., hcarried⟩

end Lexemes

/-! ### Specifiers in a row -/

/-- Does a token end the attributes of a function? -/
def Kind.endsAttributes (k : Kind) : Bool := k matches .kwReturns | .lbrace | .semicolon

/-- A token that ends attributes goes on with none and begins none. -/
theorem Kind.endsAttributes_spec {k : Kind} (h : k.endsAttributes = true) :
    EndsAttribute k ∧ k.beginsAttribute = false := by
  cases k <;> first | exact ⟨⟨by decide, by decide⟩, rfl⟩ | cases h

namespace Lexemes

variable {lexemes : Lexemes} {i j k : Nat} {specifiers : List Specifier}
  {items : List Attribute} {more : List Lexeme}

/-- The words of attributes in a row are specifiers in a row. -/
theorem HasAttributes.exists_specifiers (hspelled : lexemes.Spelled)
    (h : lexemes.HasAttributes i items j) :
    ∃ specifiers : List Specifier, lexemes.HasRow i (specifiers.flatMap (·.words)) j := by
  induction items generalizing i with
  | nil => exact ⟨[], h⟩
  | cons item items ih =>
    obtain ⟨k, hitem, hitems⟩ := h
    obtain ⟨s, hs⟩ := hitem.exists_specifier hspelled
    obtain ⟨specifiers, hspecifiers⟩ := ih hitems
    exact ⟨s :: specifiers, hs.append hspecifiers⟩

/-- Attributes take up the specifiers that stand where they do, one each, so that each of these says
something. -/
theorem HasRow.specifier_row (hrow : lexemes.HasRow i (specifiers.flatMap (·.words) ++ more) j)
    (h : lexemes.HasAttributes i items k)
    (hmore : ∀ l, lexemes.HasRow l more j → (lexemes.kindAt l).endsAttributes = true)
    (hk : (lexemes.kindAt k).endsAttributes = true) :
    lexemes.HasRow k more j ∧ ∀ s ∈ specifiers, ∃ said, s.Says said := by
  have hmixed {l : Nat} (hbegin : (lexemes.kindAt l).beginsAttribute = true)
      (hend : (lexemes.kindAt l).endsAttributes = true) : False := by
    rw [(Kind.endsAttributes_spec hend).2] at hbegin
    cases hbegin
  induction specifiers generalizing i items with
  | nil =>
    cases items with
    | nil =>
      obtain rfl : i = k := h
      exact ⟨hrow, by simp⟩
    | cons item items =>
      obtain ⟨_, hitem, -⟩ := h
      exact (hmixed hitem.begins (hmore i hrow)).elim
  | cons s specifiers ih =>
    rw [List.flatMap_cons, List.append_assoc] at hrow
    cases items with
    | nil =>
      obtain rfl : i = k := h
      exact (hmixed hrow.begins.1 hk).elim
    | cons item items =>
      obtain ⟨m, hitem, hitems⟩ := h
      have hnext (l) (hl : lexemes.HasRow l (specifiers.flatMap (·.words) ++ more) j) :
          EndsAttribute (lexemes.kindAt l) := by
        cases specifiers with
        | nil => exact (Kind.endsAttributes_spec (hmore l hl)).1
        | cons next specifiers =>
          rw [List.flatMap_cons, List.append_assoc] at hl
          exact Grammar.endsAttribute_of_begins hl.begins.1
      have hm : EndsAttribute (lexemes.kindAt m) := by
        cases items with
        | nil =>
          obtain rfl : m = k := hitems
          exact (Kind.endsAttributes_spec hk).1
        | cons next items =>
          obtain ⟨_, hnext, -⟩ := hitems
          exact Grammar.endsAttribute_of_begins hnext.begins
      have hrow' := hrow.specifier hitem hnext hm
      obtain ⟨hlast, hsays⟩ := ih hrow' hitems
      exact ⟨hlast, List.forall_mem_cons.mpr ⟨⟨_, (hrow.front hrow').tells hitem⟩, hsays⟩⟩

/-- Specifiers that stand in a row are attributes there, the ones they say. -/
theorem HasRow.exists_attributes {said : Specifier → Attribute}
    (hsaid : ∀ s ∈ specifiers, s.Says (said s))
    (hrow : lexemes.HasRow i (specifiers.flatMap (·.words)) j) :
    ∃ items : List Attribute, items.map (·.move fun _ => 0) = specifiers.map said ∧
      lexemes.HasAttributes i items j := by
  induction specifiers generalizing i with
  | nil => exact ⟨[], rfl, hrow⟩
  | cons s specifiers ih =>
    obtain ⟨hs, hsaid⟩ := List.forall_mem_cons.mp hsaid
    obtain ⟨k, hfirst, hrest⟩ := hasRow_append.mp hrow
    obtain ⟨item, hitem, hstands⟩ := hs.stands hfirst
    obtain ⟨items, hitems, hstands'⟩ := ih hsaid hrest
    exact ⟨item :: items, by rw [List.map_cons, List.map_cons, hitem, hitems], k, hstands,
      hstands'⟩

end Lexemes

end SolidityParser
