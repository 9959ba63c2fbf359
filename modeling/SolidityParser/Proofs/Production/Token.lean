import SolidityParser.Proofs.Production.Carry

/-!
# The tokens of a phrase

Each token of what is written by a production is one that the production names, or stands in one of
its parts (`Spells.cases_at`). So no semicolon stands in an expression or a type, and a declaration
ends with its only one; and a brace opens in either only after a parenthesis, or before a name and a
colon (`IsPhrase.plain`).
-/

namespace SolidityParser

open SolidityParser.Symbol (option separated series parts)

/-! ### Tokens that are named -/

/-- The kinds of tokens that no list of parameters, attributes or arguments has of its own. -/
def Kind.divides (k : Kind) : Bool := k matches .semicolon | .lbrace | .colon | .dot

/-- These are the semicolon, the opening brace, the colon and the dot. -/
theorem Kind.divides_iff {k : Kind} :
    k.divides = true ↔ k = .semicolon ∨ k = .lbrace ∨ k = .colon ∨ k = .dot := by
  unfold divides
  split <;> simp_all

namespace Symbol

/-- The kind of the token that a symbol stands for, if it stands for one. -/
def kind? : Symbol → Option Kind
  | token kind | word kind _ => some kind
  | _ => none

/-- One of the symbols stands for a token of a kind. -/
def Names (k : Kind) (symbols : List Symbol) : Prop := ∃ symbol ∈ symbols, symbol.kind? = some k

section Names

variable {k : Kind} {left right : List Symbol} {items : List (List Symbol)}

@[simp] theorem names_nil : ¬ Names k [] := by simp [Names]

@[simp] theorem names_token {kind : Kind} : Names k (.token kind :: right) ↔
    kind = k ∨ Names k right := by
  simp [Names, kind?]

@[simp] theorem names_word {kind : Kind} {text : String} :
    Names k (.word kind text :: right) ↔ kind = k ∨ Names k right := by
  simp [Names, kind?]

@[simp] theorem names_part {place : Extent} : Names k (.part place :: right) ↔ Names k right := by
  simp [Names, kind?]

@[simp] theorem names_path {place : Extent} {first : String} {more : List String} :
    Names k (.path place first more :: right) ↔ Names k right := by
  simp [Names, kind?]

@[simp] theorem names_no {tests : Lookahead} : Names k (.no tests :: right) ↔ Names k right := by
  simp [Names, kind?]

@[simp] theorem names_here {index : Nat} : Names k (.here index :: right) ↔ Names k right := by
  simp [Names, kind?]

@[simp] theorem names_append : Names k (left ++ right) ↔ Names k left ∨ Names k right := by
  simp [Names, or_and_right, exists_or]

@[simp] theorem names_flatMap {α : Type} {values : List α} {symbols : α → List Symbol} :
    Names k (values.flatMap symbols) ↔ ∃ v ∈ values, Names k (symbols v) := by
  simp only [Names, List.mem_flatMap]
  grind

/-- A row of symbols names what one of them does. -/
theorem names_map {α : Type} {values : List α} {symbol : α → Symbol} :
    Names k (values.map symbol) ↔ ∃ v ∈ values, (symbol v).kind? = some k := by
  simp [Names]

@[simp] theorem names_option {place : Option Extent} : ¬ Names k (option place) := by
  cases place <;> simp [option]

/-- What is separated by commas names a comma besides, and nothing else. -/
theorem names_separated (hk : k ≠ .comma) :
    Names k (separated items) ↔ ∃ item ∈ items, Names k item := by
  constructor
  · rintro ⟨symbol, hmem, hkind⟩
    have hcomma : symbol ≠ .token .comma := by
      rintro rfl
      exact hk (Option.some.inj hkind).symm
    obtain ⟨item, hitem, hmem⟩ := (mem_separated hcomma).mp hmem
    exact ⟨item, hitem, symbol, hmem, hkind⟩
  · rintro ⟨item, hitem, symbol, hmem, hkind⟩
    refine ⟨symbol, (mem_separated ?_).mpr ⟨item, hitem, hmem⟩, hkind⟩
    rintro rfl
    exact hk (Option.some.inj hkind).symm

/-- A list that is closed names the token that closes it, and what its items name. -/
theorem names_series (hk : k ≠ .comma) {close : Kind} :
    Names k (series close items) ↔ (∃ item ∈ items, Names k item) ∨ close = k := by
  simp [series, names_separated hk]

end Names

section Divides

variable {k : Kind} (hk : k.divides = true)

include hk

/-- A name is no such token. -/
theorem not_names_name {name : Option String} : ¬ Names k (Symbol.name name) := by
  rcases Kind.divides_iff.mp hk with rfl | rfl | rfl | rfl <;> simp [Symbol.name, names_map, kind?]

/-- Nor is a storage location. -/
theorem not_names_location {location : Option StorageLocation} :
    ¬ Names k (Symbol.location location) := by
  cases location with
  | none => simp [Symbol.location]
  | some location =>
    rcases Kind.divides_iff.mp hk with rfl | rfl | rfl | rfl <;> cases location <;>
      simp [Symbol.location, StorageLocation.kind]

/-- Of these a path has only dots. -/
theorem not_names_path (hdot : k ≠ .dot) {first : String} {more : List String} :
    ¬ Names k (names first more) := by
  rcases Kind.divides_iff.mp hk with rfl | rfl | rfl | rfl <;> simp_all [names]

/-- Parameters are between parentheses, with commas. -/
theorem not_names_parameters {parameters : List (Parameter Extent)} :
    ¬ Names k (Symbol.parameters parameters) := by
  rcases Kind.divides_iff.mp hk with rfl | rfl | rfl | rfl <;> simp [Symbol.parameters, names_series]

/-- So are results, after their keyword. -/
theorem not_names_returns {parameters : Option (List (Parameter Extent))} :
    ¬ Names k (Symbol.returns parameters) := by
  cases parameters <;> simp [Symbol.returns, not_names_parameters hk]
  rcases Kind.divides_iff.mp hk with rfl | rfl | rfl | rfl <;> simp

/-- So are arguments. -/
theorem not_names_arguments {values : Option (List (Expression Extent))} :
    ¬ Names k (Symbol.arguments values) := by
  rcases Kind.divides_iff.mp hk with rfl | rfl | rfl | rfl <;> cases values <;>
    simp [Symbol.arguments, names_series]

/-- Attributes are words, lists in parentheses and parts. -/
theorem not_names_attributes {items : List Attribute} : ¬ Names k (Symbol.attributes items) := by
  simp only [Symbol.attributes, names_flatMap, not_exists, not_and]
  intro item _
  cases item with
  | visibility v | mutability v =>
    rcases Kind.divides_iff.mp hk with rfl | rfl | rfl | rfl <;> cases v <;>
      simp [Attribute.symbols, Visibility.kind, StateMutability.kind]
  | overrides bases =>
    rcases Kind.divides_iff.mp hk with rfl | rfl | rfl | rfl <;> cases bases <;>
      simp [Attribute.symbols, Attribute.baseSymbols, names_series, WrittenPath.symbol]
  | _ => rcases Kind.divides_iff.mp hk with rfl | rfl | rfl | rfl <;> simp [Attribute.symbols]

end Divides

end Symbol

namespace Lexemes

variable {lexemes : Lexemes} {i j n : Nat} {symbols : List Symbol}

/-- Names with points between are all that a path is made of. -/
theorem Steps.cases_at {names : List String} (h : lexemes.Steps i names j) (hi : i ≤ n)
    (hj : n < j) : lexemes.kindAt n = .ident ∨ lexemes.kindAt n = .dot := by
  induction names generalizing i with
  | nil =>
    have : i = j := h
    omega
  | cons name names ih =>
    obtain ⟨⟨hdot, hident, -⟩, hrest⟩ := h
    obtain rfl | rfl | hlt : n = i ∨ n = i + 1 ∨ i + 2 ≤ n := by omega
    · exact .inr hdot
    · exact .inl hident
    · exact ih hrest hlt

/-- A token that symbols spell is that of one of them, or stands in a path or a smaller
construct. -/
theorem Spells.cases_at (h : lexemes.Spells i symbols j) (hi : i ≤ n) (hj : n < j) :
    Symbol.Names (lexemes.kindAt n) symbols ∨
      (lexemes.kindAt n = .ident ∨ lexemes.kindAt n = .dot) ∨
        ∃ place, .part place ∈ symbols ∧ place.first ≤ n ∧ n < place.next := by
  induction symbols generalizing i with
  | nil =>
    have : i = j := h
    omega
  | cons symbol symbols ih =>
    have later {k : Nat} (hspells : lexemes.Spells k symbols j) (hk : k ≤ n) :
        Symbol.Names (lexemes.kindAt n) (symbol :: symbols) ∨
          (lexemes.kindAt n = .ident ∨ lexemes.kindAt n = .dot) ∨
            ∃ place, .part place ∈ symbol :: symbols ∧ place.first ≤ n ∧ n < place.next := by
      rcases ih hspells hk with ⟨s, hs, hkind⟩ | hpath | ⟨place, hplace, hinside⟩
      · exact .inl ⟨s, List.mem_cons_of_mem _ hs, hkind⟩
      · exact .inr (.inl hpath)
      · exact .inr (.inr ⟨place, List.mem_cons_of_mem _ hplace, hinside⟩)
    cases symbol with
    | token kind =>
      obtain ⟨⟨-, hkind⟩, hspells⟩ := h
      rcases Nat.eq_or_lt_of_le hi with rfl | hlt
      · exact .inl ⟨_, List.mem_cons_self .., congrArg some hkind.symm⟩
      · exact later hspells hlt
    | word kind text =>
      obtain ⟨⟨-, hkind, -⟩, hspells⟩ := h
      rcases Nat.eq_or_lt_of_le hi with rfl | hlt
      · exact .inl ⟨_, List.mem_cons_self .., congrArg some hkind.symm⟩
      · exact later hspells hlt
    | part place =>
      obtain ⟨⟨rfl, -⟩, hspells⟩ := h
      by_cases hlt : n < place.next
      · exact .inr (.inr ⟨place, List.mem_cons_self .., hi, hlt⟩)
      · exact later hspells (by omega)
    | path place first more =>
      obtain ⟨⟨rfl, ⟨hident, -⟩, hsteps⟩, hspells⟩ := h
      by_cases hlt : n < place.next
      · refine .inr (.inl ?_)
        rcases Nat.eq_or_lt_of_le hi with rfl | hlt'
        · exact .inl hident
        · exact hsteps.cases_at hlt' hlt
      · exact later hspells (by omega)
    | no | here =>
      obtain ⟨-, hspells⟩ := h
      exact later (by simpa using hspells) hi

end Lexemes

/-! ### Parts that are named -/

/-- Of the attributes, only modifiers are smaller constructs. -/
theorem Symbol.part_mem_attributes {items : List Attribute} {place : Extent} :
    .part place ∈ Symbol.attributes items ↔ ∃ value, .modifier value ∈ items ∧
      value.place = place := by
  simp only [Symbol.attributes, List.mem_flatMap]
  constructor
  · rintro ⟨item, hitem, hplace⟩
    cases item with
    | modifier value => exact ⟨value, hitem, by simpa [Attribute.symbols, eq_comm] using hplace⟩
    | overrides bases =>
      cases bases <;>
        simp [Attribute.symbols, Attribute.baseSymbols, mem_series, WrittenPath.symbol] at hplace
    | _ => simp [Attribute.symbols] at hplace
  · rintro ⟨value, hitem, rfl⟩
    exact ⟨_, hitem, List.mem_singleton_self _⟩

namespace Part

variable {part : Part .parsed} {symbols : List Symbol} {place : Extent}

/-- If the parts that are named are the fields of a node, each is the place of one of them. -/
theorem child_of_parts_eq (h : parts symbols = part.fields.flatten.map Part.place)
    (hplace : .part place ∈ symbols) : ∃ field ∈ part.fields, ∃ child ∈ field,
      child.place = place := by
  have hmem := Lexemes.mem_parts_of_part hplace
  rw [h, List.mem_map] at hmem
  obtain ⟨child, hchild, hfirst⟩ := hmem
  obtain ⟨field, hfield, hchild⟩ := List.mem_flatten.mp hchild
  exact ⟨field, hfield, child, hchild, hfirst⟩

/-- What a production names as a smaller construct is a part of the node. -/
theorem Phrased.child_of_part (h : part.Phrased symbols) (hplace : .part place ∈ symbols) :
    ∃ field ∈ part.fields, ∃ child ∈ field, child.place = place := by
  induction h with
  | unit hmember _ ih => exact SourceUnit.fields_of_member? hmember ▸ ih hplace
  | @stateVariable _ _ _ items value h =>
    have hattributes : .part place ∉ Symbol.attributes items := by
      rw [Symbol.part_mem_attributes]
      rintro ⟨invocation, hitem, -⟩
      exact h _ hitem
    cases value <;> simp [Symbol.initialValue, hattributes] at hplace
    · exact ⟨_, List.mem_cons_self .., _, List.mem_cons_self .., hplace.symm⟩
    · rcases hplace with hplace | hplace
      · exact ⟨_, List.mem_cons_self .., _, List.mem_cons_self .., hplace.symm⟩
      · exact ⟨_, .tail _ (.tail _ (List.mem_cons_self ..)), _, List.mem_cons_self ..,
          hplace.symm⟩
  | @usingFunctions _ _ target =>
    cases target <;>
      simp [Symbol.mem_series, WrittenPath.symbol, Symbol.attachment] at hplace
    exact ⟨_, List.mem_cons_self .., _, List.mem_cons_self .., hplace.symm⟩
  | _ =>
    refine child_of_parts_eq ?_ hplace
    simp [fields, expressionFields, typeFields, statementFields, memberFields, unitFields,
      baseField, parts, Part.place, Function.comp_def, List.flatMap_map, flatMap_toList_map,
      ← List.map_eq_flatMap, Option.toList_map, List.reduceOption, Symbol.parts_flatMap,
      TypeName.place, apply_ite parts]

end Part

/-! ### Semicolons and braces -/

namespace Part

/-- Is this a part of a statement or a declaration, and not one itself? -/
def IsOpen {F : Form} : Part F → Prop
  | statement _ | block _ | clause _ | member _ | unit _ => False
  | _ => True

/-- What is a part of these is a phrase. -/
theorem IsOpen.isPhrasal {F : Form} {part : Part F} (h : part.IsOpen) : part.IsPhrasal := by
  cases part <;> trivial

/-- Below what only productions for phrases write there are only such parts. -/
theorem IsPhrasal.below_isOpen {F : Form} {part : Part F} (h : part.IsPhrasal) :
    ∀ field ∈ part.fields, ∀ child ∈ field, child.IsOpen := by
  cases part with
  | expression value =>
    cases value
    case call given => cases given <;> simp [fields, expressionFields, IsOpen]
    all_goals simp [fields, expressionFields, IsOpen]
  | typeName value => cases value <;> simp [fields, typeFields, IsOpen]
  | statement value =>
    cases value <;> first | exact h.elim | simp [fields, statementFields, IsOpen]
  | namedArgument value | parameter value =>
    cases value
    simp [fields, IsOpen]
  | member value =>
    cases value <;> first
      | exact h.elim
      | simp [fields, memberFields, overridesField, baseField, IsOpen]
  | unit value =>
    cases value <;> first
      | exact h.elim
      | simp [fields, unitFields, baseField, IsOpen]
  | _ => first | exact h.elim | simp [fields, IsOpen]

/-- Is this a call whose arguments or options stand between braces? -/
def HasBraces {F : Form} : Part F → Prop
  | expression (.call _ _ (.named _)) | expression (.callOptions ..) => True
  | _ => False

/-- Only such a call has arguments with names. -/
theorem IsOpen.namedArgument_not_mem {F : Form} {part : Part F} (h : part.IsOpen)
    (hbraces : ¬ part.HasBraces) : ∀ field ∈ part.fields, ∀ a, .namedArgument a ∉ field := by
  cases part with
  | expression value =>
    cases value
    case call given => cases given <;> simp_all [fields, expressionFields, HasBraces]
    case callOptions => exact absurd trivial hbraces
    all_goals simp [fields, expressionFields]
  | typeName value => cases value <;> simp [fields, typeFields]
  | namedArgument value | parameter value =>
    cases value
    simp [fields]
  | _ => first | exact h.elim | simp [fields]

/-- Is this a choice, a slice or an argument with a name? -/
def HasColon {F : Form} : Part F → Prop
  | expression (.conditional ..) | expression (.slice ..) | namedArgument _ => True
  | _ => False

/-- Below statements and declarations, few parts have braces or a colon of their own, and none has
a semicolon. -/
theorem Phrased.divided {part : Part .parsed} {symbols : List Symbol} {k : Kind}
    (h : part.Phrased symbols) (hopen : part.IsOpen) (hk : k.divides = true) (hdot : k ≠ .dot)
    (hnames : Symbol.Names k symbols) : k = .lbrace ∧ part.HasBraces ∨ k = .colon ∧ part.HasColon := by
  have hkinds : k = .semicolon ∨ k = .lbrace ∨ k = .colon := by
    simpa [hdot] using Kind.divides_iff.mp hk
  cases h with
  | callByName | callOptions =>
    rcases hkinds with rfl | rfl | rfl
    · simp [Symbol.names_series] at hnames
    · exact .inl ⟨rfl, trivial⟩
    · simp [Symbol.names_series] at hnames
  | conditional | slice | namedArgument =>
    rcases hkinds with rfl | rfl | rfl
    · simp at hnames
    · simp at hnames
    · exact .inr ⟨rfl, trivial⟩
  | name hname =>
    rcases hkinds with rfl | rfl | rfl <;> rcases hname with hname | hname | hname <;>
      simp [hname] at hnames
  | number hkind | numberWithUnit hkind =>
    rcases hkinds with rfl | rfl | rfl <;> rcases hkind with rfl | rfl <;> simp at hnames
  | string hstrings =>
    rcases Symbol.names_append.mp hnames with hnames | hnames
    · obtain ⟨lexeme, hmem, hkind⟩ := Symbol.names_map.mp hnames
      have hstring := hstrings lexeme hmem
      rw [Option.some.inj hkind] at hstring
      rcases hkinds with rfl | rfl | rfl <;> cases hstring
    · simp at hnames
  | @boolean _ value => rcases hkinds with rfl | rfl | rfl <;> cases value <;> simp at hnames
  | @before _ operator | @after _ operator =>
    rcases hkinds with rfl | rfl | rfl <;> cases operator <;> simp [UnaryOp.kind] at hnames
  | @binary _ operator =>
    rcases hkinds with rfl | rfl | rfl <;> cases operator <;> simp [BinaryOp.kind] at hnames
  | @assignment _ operator =>
    rcases hkinds with rfl | rfl | rfl <;> cases operator <;> simp [AssignOp.kind] at hnames
  | @elementary _ name =>
    by_cases hname : name = "address" <;> rcases hkinds with rfl | rfl | rfl <;>
      simp [hname] at hnames
  | @parameter _ _ _ _ indexed =>
    cases indexed <;> simp [Symbol.not_names_location hk, Symbol.not_names_name hk] at hnames
    rcases hkinds with rfl | rfl | rfl <;> cases hnames
  | @functionType _ _ _ kinds attributes =>
    have htokens : ¬ Symbol.Names k (kinds.map .token) := by
      rw [Symbol.names_map]
      rintro ⟨kind, hmem, hkind⟩
      have := attributes kind hmem
      rw [Option.some.inj hkind] at this
      rcases hkinds with rfl | rfl | rfl <;> cases this
    simp [Symbol.not_names_parameters hk, Symbol.not_names_returns hk, htokens] at hnames
    rcases hkinds with rfl | rfl | rfl <;> cases hnames
  | _ => first
    | exact hopen.elim
    | rcases hkinds with rfl | rfl | rfl <;>
      simp [Symbol.names_series, Symbol.not_names_name hk, Symbol.not_names_location hk,
        Symbol.not_names_path hk, Symbol.not_names_arguments hk, Symbol.newName] at hnames

/-- Does this declare a variable? -/
def IsVariable {F : Form} : Part F → Prop
  | statement (.declaration ..) | member (.stateVariable _) => True
  | _ => False

/-- A declared variable is a phrase. -/
theorem IsVariable.isPhrasal {F : Form} {part : Part F} (h : part.IsVariable) :
    part.IsPhrasal := by
  cases part with
  | statement value | member value => cases value <;> trivial
  | _ => exact h.elim

/-- The semicolon after a variable is the only one that its production names. -/
theorem Phrased.variable {part : Part .parsed} {symbols : List Symbol} (h : part.Phrased symbols)
    (hpart : part.IsVariable) : ∃ front, symbols = front ++ [.token .semicolon] ∧
      ∀ k, k.divides = true → ¬ Symbol.Names k front := by
  cases h with
  | @declaration _ declared initial =>
    refine ⟨_, rfl, fun k hk => ?_⟩
    rcases Kind.divides_iff.mp hk with rfl | rfl | rfl | rfl <;> simp
  | @declarationList _ slots value =>
    refine ⟨.token .lparen :: separated (slots.map fun v => option (v.map (·.place))) ++
        [.token .rparen, .token .eq, .part value.place], by simp, fun k hk => ?_⟩
    rcases Kind.divides_iff.mp hk with rfl | rfl | rfl | rfl <;> simp [Symbol.names_separated]
  | stateVariable =>
    refine ⟨_, rfl, fun k hk => ?_⟩
    rcases Kind.divides_iff.mp hk with rfl | rfl | rfl | rfl <;>
      simp [Symbol.not_names_attributes hk, Symbol.initialValue]
  | _ => exact hpart.elim

end Part

namespace Lexemes

variable {lexemes : Lexemes} {i j n : Nat} {part : Part .parsed}

/-- No semicolon stands below statements and declarations. -/
theorem kindAt_ne_semicolon (h : part.All lexemes.Holds) (hopen : part.IsOpen)
    (hn : part.place.first ≤ n) (hlt : n < part.place.next) : lexemes.kindAt n ≠ .semicolon := by
  induction part using Part.induction with
  | step part ih =>
    intro hkind
    obtain ⟨-, symbols, hphrased, hspells⟩ := h.here
    rcases hspells.cases_at hn hlt with hnames | hpath | ⟨place, hplace, hinside⟩
    · rw [hkind] at hnames
      rcases hphrased.divided hopen rfl (by decide) hnames with ⟨hk, -⟩ | ⟨hk, -⟩ <;> cases hk
    · rw [hkind] at hpath
      rcases hpath with hpath | hpath <;> cases hpath
    · obtain ⟨field, hfield, child, hchild, rfl⟩ := hphrased.child_of_part hplace
      exact ih field hfield child hchild (h.below hfield hchild)
        (hopen.isPhrasal.below_isOpen field hfield child hchild) hinside.1 hinside.2 hkind

/-- A brace that opens at an index has a parenthesis before it, or a name and a colon after it. -/
def CallsAt (lexemes : Lexemes) (i n : Nat) : Prop :=
  i < n ∧ lexemes.kindAt (n - 1) = .lparen ∨ lexemes.Ahead n .options

/-- Below statements and declarations, braces open only for the arguments or options of calls. -/
theorem callsAt_of_lbrace (h : part.All lexemes.Holds) (hopen : part.IsOpen)
    (hn : part.place.first ≤ n) (hlt : n < part.place.next) (hbrace : lexemes.kindAt n = .lbrace) :
    lexemes.CallsAt part.place.first n := by
  induction part using Part.induction with
  | step part ih =>
    obtain ⟨-, symbols, hphrased, hspells⟩ := h.here
    -- what holds of a part holds of what it is part of
    have below {place : Extent} (hplace : .part place ∈ symbols) (hi : place.first ≤ n)
        (hj : n < place.next) : lexemes.CallsAt part.place.first n := by
      have hfirst := (hspells.part_inside (mem_parts_of_part hplace)).1
      obtain ⟨field, hfield, child, hchild, rfl⟩ := hphrased.child_of_part hplace
      rcases ih field hfield child hchild (h.below hfield hchild)
        (hopen.isPhrasal.below_isOpen field hfield child hchild) hi hj with ⟨hlt, hparen⟩ | hoptions
      · exact .inl ⟨by omega, hparen⟩
      · exact .inr hoptions
    -- and of what is spelled by symbols that name no brace
    have plain {k : Nat} {rest : List Symbol} (hrest : lexemes.Spells k rest part.place.next)
        (hk : k ≤ n) (hsub : ∀ symbol ∈ rest, symbol ∈ symbols)
        (hnames : ¬ Symbol.Names .lbrace rest) : lexemes.CallsAt part.place.first n := by
      rcases hrest.cases_at hk hlt with hnamed | hpath | ⟨place, hplace, hi, hj⟩
      · exact absurd (hbrace ▸ hnamed) hnames
      · rw [hbrace] at hpath
        rcases hpath with hpath | hpath <;> cases hpath
      · exact below (hsub _ hplace) hi hj
    by_cases hbraces : part.HasBraces
    · cases hphrased with
      | @callByName place callee values =>
        obtain ⟨⟨hfirst, hcovers⟩, ⟨-, hparen⟩, ⟨-, -⟩, hrest⟩ := hspells
        have hnonempty := hcovers.nonempty
        obtain hlt | rfl | rfl | hle : n < callee.place.next ∨ n = callee.place.next ∨
            n = callee.place.next + 1 ∨ callee.place.next + 1 + 1 ≤ n := by omega
        · exact below (List.mem_cons_self ..) (hfirst ▸ hn) hlt
        · rw [hparen] at hbrace
          cases hbrace
        · exact .inl ⟨by omega, hparen⟩
        · refine plain hrest hle (fun symbol hsymbol => by simp_all) ?_
          simp [Symbol.names_series]
      | @callOptions place callee options hoptions =>
        obtain ⟨⟨hfirst, hcovers⟩, ⟨-, -⟩, hrest⟩ := hspells
        obtain hlt | rfl | hle : n < callee.place.next ∨ n = callee.place.next ∨
            callee.place.next + 1 ≤ n := by omega
        · exact below (List.mem_cons_self ..) (hfirst ▸ hn) hlt
        · cases options with
          | nil => exact absurd rfl hoptions
          | cons option options =>
            obtain ⟨k, ⟨⟨hoption, -⟩, -⟩, -⟩ := hrest.series_cons
            have hfield : (option :: options).map Part.namedArgument ∈
                (Part.expression (.callOptions place callee (option :: options)) :
                  Part .parsed).fields := .tail _ (List.mem_cons_self ..)
            have hphrase := h.below hfield (List.mem_map_of_mem (List.mem_cons_self ..))
            obtain ⟨-, _, hwritten, hspelled⟩ := hphrase.here
            cases hwritten with
            | namedArgument =>
              obtain ⟨⟨-, hname, -⟩, ⟨-, hcolon⟩, -⟩ := hspelled
              rw [show (Part.namedArgument _ : Part .parsed).place.first = callee.place.next + 1
                from hoption] at hname hcolon
              exact .inr (ahead_options.mpr ⟨hbrace, hname, hcolon⟩)
        · refine plain hrest hle (fun symbol hsymbol => by simp_all) ?_
          simp [Symbol.names_series]
      | _ => exact hbraces.elim
    · refine plain hspells hn (fun _ => id) fun hnames => ?_
      rcases hphrased.divided hopen rfl (by decide) hnames with ⟨-, h⟩ | ⟨hk, -⟩
      · exact hbraces h
      · cases hk

/-- No part has a colon after its first token, but for an argument with a name. -/
theorem kindAt_succ_ne_colon (h : part.All lexemes.Holds) (hopen : part.IsOpen)
    (hname : ∀ a, part ≠ .namedArgument a) (hlt : part.place.first + 1 < part.place.next) :
    lexemes.kindAt (part.place.first + 1) ≠ .colon := by
  induction part using Part.induction with
  | step part ih =>
    intro hcolon
    obtain ⟨-, symbols, hphrased, hspells⟩ := h.here
    -- a part that begins before the colon begins as what it is part of does
    have below {field : List (Part .parsed)} {child : Part .parsed} (hfield : field ∈ part.fields)
        (hchild : child ∈ field) (hi : child.place.first ≤ part.place.first + 1)
        (hj : part.place.first + 1 < child.place.next)
        (hname : ∀ a, child ≠ .namedArgument a) : False := by
      have hholds := h.below hfield hchild
      have hfirst := (hphrased.outlined.inside hspells hfield hchild).1
      rcases Nat.lt_or_ge part.place.first child.place.first with hlt | hle
      · have hbegins := begins_of_all hholds
        rw [show child.place.first = part.place.first + 1 by omega, hcolon] at hbegins
        cases hbegins
      · have heq : child.place.first = part.place.first := by omega
        exact ih field hfield child hchild hholds
          (hopen.isPhrasal.below_isOpen field hfield child hchild) hname (by omega)
          (heq ▸ hcolon)
    -- so a colon is not what comes after it
    have left {child : Part .parsed} {k : Kind} {rest : List Symbol}
        (hchild : [child] ∈ part.fields) (hk : k ≠ .colon) (hname : ∀ a, child ≠ .namedArgument a)
        (hspells : lexemes.Spells part.place.first (.part child.place :: .token k :: rest)
          part.place.next) : False := by
      obtain ⟨⟨hfirst, hcovers⟩, ⟨-, hkind⟩, -⟩ := hspells
      have hnonempty := hcovers.nonempty
      rcases Nat.lt_or_ge (part.place.first + 1) child.place.next with hlt | hle
      · exact below hchild (List.mem_singleton_self _) (by omega) hlt hname
      · rw [show child.place.next = part.place.first + 1 by omega, hcolon] at hkind
        exact hk hkind.symm
    by_cases hdivided : part.HasBraces ∨ part.HasColon
    · cases hphrased with
      | conditional | slice | callByName | callOptions =>
        exact left (List.mem_cons_self ..) (by decide) nofun hspells
      | namedArgument => exact hname _ rfl
      | _ => exact hdivided.elim id id
    · rcases hspells.cases_at (Nat.le_succ _) hlt with hnamed | hpath | ⟨place, hplace, hi, hj⟩
      · rcases hphrased.divided hopen (by rw [hcolon]; rfl) (by rw [hcolon]; decide) hnamed with
          ⟨-, h⟩ | ⟨-, h⟩
        · exact hdivided (.inl h)
        · exact hdivided (.inr h)
      · rw [hcolon] at hpath
        rcases hpath with hpath | hpath <;> cases hpath
      · obtain ⟨field, hfield, child, hchild, rfl⟩ := hphrased.child_of_part hplace
        exact below hfield hchild hi hj fun a ha => hopen.namedArgument_not_mem
          (fun h => hdivided (.inl h)) field hfield a (ha ▸ hchild)

namespace IsPhrase

/-- Of the variable that is declared, the last token is the only semicolon. -/
theorem kindAt_ne_semicolon (h : lexemes.IsPhrase i part j) (hpart : part.IsVariable) (hn : i ≤ n)
    (hlt : n + 1 < j) : lexemes.kindAt n ≠ .semicolon := by
  intro hkind
  obtain ⟨symbols, hphrased, hspells⟩ := h.written
  obtain ⟨front, rfl, hnames⟩ := hphrased.variable hpart
  obtain ⟨k, hfront, ⟨-, -⟩, rfl⟩ := spells_append.mp hspells
  rcases hfront.cases_at hn (by omega) with hnamed | hpath | ⟨place, hplace, hinside⟩
  · exact hnames _ rfl (hkind ▸ hnamed)
  · rw [hkind] at hpath
    rcases hpath with hpath | hpath <;> cases hpath
  · obtain ⟨field, hfield, child, hchild, rfl⟩ :=
      hphrased.child_of_part (List.mem_append_left _ hplace)
    exact Lexemes.kindAt_ne_semicolon (h.holds.below hfield hchild)
      (hpart.isPhrasal.below_isOpen field hfield child hchild) hinside.1 hinside.2 hkind

/-- Where a variable is declared, braces open only for the arguments or options of calls. -/
theorem callsAt_of_lbrace (h : lexemes.IsPhrase i part j) (hpart : part.IsVariable) (hn : i ≤ n)
    (hlt : n < j) (hbrace : lexemes.kindAt n = .lbrace) : lexemes.CallsAt i n := by
  obtain ⟨symbols, hphrased, hspells⟩ := h.written
  obtain ⟨front, rfl, hnames⟩ := hphrased.variable hpart
  rcases hspells.cases_at hn hlt with hnamed | hpath | ⟨place, hplace, hi, hj⟩
  · rw [hbrace, Symbol.names_append] at hnamed
    rcases hnamed with hnamed | hnamed
    · exact absurd hnamed (hnames _ rfl)
    · simp at hnamed
  · rw [hbrace] at hpath
    rcases hpath with hpath | hpath <;> cases hpath
  · have hfirst := (hspells.part_inside (mem_parts_of_part hplace)).1
    obtain ⟨field, hfield, child, hchild, rfl⟩ := hphrased.child_of_part hplace
    rcases Lexemes.callsAt_of_lbrace (h.holds.below hfield hchild)
      (hpart.isPhrasal.below_isOpen field hfield child hchild) hi hj hbrace with
      ⟨hlt, hparen⟩ | hoptions
    · exact .inl ⟨by omega, hparen⟩
    · exact .inr hoptions

end IsPhrase

end Lexemes

end SolidityParser
