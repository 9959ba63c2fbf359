import SolidityParser.Proofs.Parser.Ledger
import SolidityParser.Proofs.Production.Outline

/-!
# How statements and declarations are written

`Part.Composed` has a production for each statement, for blocks and for the clauses of `try`, and
for every declaration that has a block or other declarations in it. What can be written in two ways
is read in the first that the grammar tries: a declaration before an expression, `_` and `revert` as
words before either, and a variable before a fallback function without a name (`Lexemes.Decided`).

Where broken statements are skipped, a tree may hold what was skipped, and blocks without a closing
brace (`Lexemes.Recovered`); `Repairs` says which of these are allowed. `Lexemes.Supports` is any of
this, and `Lexemes.Lays` says it of a whole tree.
-/

namespace SolidityParser

open SolidityParser.Symbol (option separated series parts)

/-! ### Symbols of statements -/

/-- Tokens that close so many open braces, and stop there. -/
def Kind.Close : Nat → List Kind → Prop
  | 0, kinds => kinds = []
  | _ + 1, [] => False
  | depth + 1, k :: kinds => Close (k.bracesAfter (depth + 1)) kinds

namespace Symbol

/-- The other branch of a choice, or no `else`. -/
def orElse : Option Extent → List Symbol
  | none => [.no (.kinds [.kwElse])]
  | some place => [.token .kwElse, .part place]

/-- What a `for` loop does first, with the semicolon after it. -/
def initial : Option Extent → List Symbol
  | none => [.token .semicolon]
  | some place => [.part place]

/-- The flags of an assembly block. -/
def flags : Option (List String) → List Symbol
  | none => []
  | some flags => .token .lparen :: series .rparen (flags.map fun flag => [.word .string flag])

/-- The parameters of a clause, if there are parentheses. -/
def given : Option (List (Parameter Extent)) → List Symbol
  | none => []
  | some parameters => Symbol.parameters parameters

/-- Parts in a row. -/
def row (places : List Extent) : List Symbol := places.map .part

/-- The body of a function, or a semicolon where it is only declared. -/
def body : Option Extent → List Symbol
  | none => [.token .semicolon]
  | some place => [.part place]

/-- Parameters, attributes and results of a function. -/
def signature (parameters : List (Parameter Extent)) (items : List Attribute)
    (returns : Option (List (Parameter Extent))) : List Symbol :=
  Symbol.parameters parameters ++ Symbol.attributes items ++ Symbol.returns returns

/-- The bases of a contract, if it has any. -/
def bases (values : List (Invocation Extent)) : List Symbol :=
  if values = [] then [] else .token .kwIs :: separated (values.map fun v => [.part v.place])

end Symbol

/-! ### Productions -/

/-- A statement that a `for` loop may begin with. -/
def Statement.IsSimple {F : Form} : Statement F → Prop
  | .declaration .. | .expression .. => True
  | _ => False

namespace Part

/-- How a statement or a declaration is written, but for declarations of variables. -/
inductive Composed : Part .parsed → List Symbol → Prop
  | blockStatement {body : Block .parsed} : Composed (.statement (.block body)) [.part body.place]
  | expression {place : Extent} {value : Expression Extent} :
    Composed (.statement (.expression place value)) [.part value.place, .token .semicolon]
  | ifElse {place : Extent} {test : Expression Extent} {consequent : Statement .parsed}
      {alternate : Option (Statement .parsed)} :
    Composed (.statement (.ifElse place test consequent alternate))
      (.token .kwIf :: .token .lparen :: .part test.place :: .token .rparen ::
        .part consequent.place :: Symbol.orElse (alternate.map (·.place)))
  | forLoop {place : Extent} {initial : Option (Statement .parsed)}
      {test update : Option (Expression Extent)} {body : Statement .parsed}
      (h : ∀ s ∈ initial, s.IsSimple) :
    Composed (.statement (.forLoop place initial test update body))
      (.token .kwFor :: .token .lparen :: Symbol.initial (initial.map (·.place)) ++
        option (test.map (·.place)) ++ .token .semicolon :: option (update.map (·.place)) ++
        [.token .rparen, .part body.place])
  | whileLoop {place : Extent} {test : Expression Extent} {body : Statement .parsed} :
    Composed (.statement (.whileLoop place test body))
      [.token .kwWhile, .token .lparen, .part test.place, .token .rparen, .part body.place]
  | doWhile {place : Extent} {body : Statement .parsed} {test : Expression Extent} :
    Composed (.statement (.doWhile place body test))
      [.token .kwDo, .part body.place, .token .kwWhile, .token .lparen, .part test.place,
        .token .rparen, .token .semicolon]
  | tryCatch {place : Extent} {call : Expression Extent}
      {returns : Option (List (Parameter Extent))} {body : Block .parsed}
      {clauses : List (CatchClause .parsed)}
      (hreturns : ∀ p ∈ returns.getD [], p.isIndexed = false) (hclauses : clauses ≠ []) :
    Composed (.statement (.tryCatch place call returns body clauses))
      (.token .kwTry :: .part call.place :: .no .options :: Symbol.returns returns ++
        .part body.place :: Symbol.row (clauses.map (·.place)) ++ [.no (.kinds [.kwCatch])])
  | clause {place : Extent} {kind : Option String} {given : Option (List (Parameter Extent))}
      {body : Block .parsed} (hgiven : ∀ p ∈ given.getD [], p.isIndexed = false) :
    Composed (.clause (.mk place kind given body))
      (.token .kwCatch :: Symbol.name kind ++ Symbol.given given ++ [.part body.place])
  | returned {place : Extent} {argument : Option (Expression Extent)} :
    Composed (.statement (.returned place argument))
      (.token .kwReturn :: option (argument.map (·.place)) ++ [.token .semicolon])
  | emit {place : Extent} {event : Expression Extent} :
    Composed (.statement (.emit place event))
      [.token .kwEmit, .part event.place, .token .semicolon]
  | revert {place : Extent} {error : Expression Extent} :
    Composed (.statement (.revert place error))
      [.word .ident "revert", .part error.place, .token .semicolon]
  | breakLoop {place : Extent} :
    Composed (.statement (.breakLoop place)) [.token .kwBreak, .token .semicolon]
  | continueLoop {place : Extent} :
    Composed (.statement (.continueLoop place)) [.token .kwContinue, .token .semicolon]
  | throwError {place : Extent} :
    Composed (.statement (.throwError place)) [.token .kwThrow, .token .semicolon]
  | unchecked {place : Extent} {body : Block .parsed} :
    Composed (.statement (.unchecked place body)) [.token .kwUnchecked, .part body.place]
  | assembly {place body : Extent} {language : Option String} {flags : Option (List String)}
      {kinds : List Kind} (h : Kind.Close 1 kinds) :
    Composed
      (.statement (.assembly place (language.map Quoted.valueOf)
        ((flags.getD []).map Quoted.valueOf) body))
      (.token .kwAssembly :: language.toList.map (.word .string) ++ Symbol.flags flags ++
        .here body.first :: .token .lbrace :: kinds.map .token ++ [.here body.next])
  | placeholder {place : Extent} :
    Composed (.statement (.placeholder place)) [.word .ident "_", .token .semicolon]
  | block {place : Extent} {body : List (Statement .parsed)} :
    Composed (.block (.mk place body))
      (.token .lbrace :: Symbol.row (body.map (·.place)) ++ [.token .rbrace])
  -- members of contracts
  | constructor {place : Extent} {parameters : List (Parameter Extent)} {items : List Attribute}
      {body : Block .parsed} (hparameters : ∀ p ∈ parameters, p.isIndexed = false)
      (hitems : ∀ item ∈ items, item.IsOfFunction) :
    Composed
      (.member (.constructor ⟨place, parameters, (FunctionAttributes.ofItems items).modifiers,
        (FunctionAttributes.ofItems items).visibility,
        (FunctionAttributes.ofItems items).mutability, body⟩))
      (.token .kwConstructor :: Symbol.parameters parameters ++ Symbol.attributes items ++
        [.part body.place])
  | receive {place : Extent} {items : List Attribute} {body : Option (Block .parsed)}
      (hitems : ∀ item ∈ items, item.IsOfFunction) :
    Composed (.member (.receive ⟨place, FunctionAttributes.ofItems items, body⟩))
      (.word .ident "receive" :: .token .lparen :: .token .rparen :: Symbol.attributes items ++
        Symbol.body (body.map (·.place)))
  | fallback {place : Extent} {word : Symbol} {parameters : List (Parameter Extent)}
      {returns : Option (List (Parameter Extent))} {items : List Attribute}
      {body : Option (Block .parsed)}
      (hword : word = .token .kwFunction ∨ word = .word .ident "fallback")
      (hparameters : ∀ p ∈ parameters ++ returns.getD [], p.isIndexed = false)
      (hitems : ∀ item ∈ items, item.IsOfFunction) :
    Composed
      (.member (.fallback ⟨place, parameters, returns, FunctionAttributes.ofItems items, body⟩))
      (word :: Symbol.signature parameters items returns ++ Symbol.body (body.map (·.place)))
  | function {place : Extent} {name : String} {parameters : List (Parameter Extent)}
      {returns : Option (List (Parameter Extent))} {items : List Attribute}
      {body : Option (Block .parsed)}
      (hparameters : ∀ p ∈ parameters ++ returns.getD [], p.isIndexed = false)
      (hitems : ∀ item ∈ items, item.IsOfFunction) :
    Composed
      (.member (.function
        ⟨place, name, parameters, returns, FunctionAttributes.ofItems items, body⟩))
      (.token .kwFunction :: .word .ident name :: Symbol.signature parameters items returns ++
        Symbol.body (body.map (·.place)))
  | modifier {place : Extent} {name : String} {given : Option (List (Parameter Extent))}
      {items : List Attribute} {body : Option (Block .parsed)}
      (hgiven : ∀ p ∈ given.getD [], p.isIndexed = false)
      (hitems : ∀ item ∈ items, item.IsOfModifier) :
    Composed
      (.member (.modifier ⟨place, name, given, (FunctionAttributes.ofItems items).isVirtual,
        (FunctionAttributes.ofItems items).overrides, body⟩))
      (.token .kwModifier :: .word .ident name :: Symbol.given given ++ Symbol.attributes items ++
        Symbol.body (body.map (·.place)))
  -- units of a source
  | contract {place : Extent} {name : String} {kind : ContractKind} {isAbstract : Bool}
      {bases : List (Invocation Extent)} {body : List (ContractPart .parsed)} :
    Composed (.unit (.contract ⟨place, name, kind, isAbstract, bases, body⟩))
      ((if isAbstract then [.token .kwAbstract] else []) ++ .token kind.kind ::
        .word .ident name :: Symbol.bases bases ++ .token .lbrace ::
        Symbol.row (body.map (·.place)) ++ [.token .rbrace])
  | unit {unit : SourceUnit .parsed} {member : ContractPart .parsed} {symbols : List Symbol}
      (h : unit.member? = some member) (hmember : Composed (.member member) symbols) :
    Composed (.unit unit) symbols

/-! ### Parts that may be read in several ways -/

/-- The statements right below a part that stand where any statement may, but in no block. -/
def branches {F : Form} : Part F → List (Statement F)
  | statement (.ifElse _ _ consequent alternate) => consequent :: alternate.toList
  | statement (.forLoop _ _ _ _ body) | statement (.whileLoop _ _ body)
  | statement (.doWhile _ body _) => [body]
  | _ => []

/-- The statements right below a part that stand where any statement may. -/
def choices {F : Form} : Part F → List (Statement F)
  | block (.mk _ body) => body
  | part => part.branches

/-- What a `for` loop does first. -/
def initial? {F : Form} : Part F → Option (Statement F)
  | statement (.forLoop _ initial _ _ _) => initial
  | _ => none

/-- The members of a contract. -/
def members {F : Form} : Part F → List (ContractPart F)
  | unit (.contract declaration) => declaration.body
  | _ => []

/-- A statement that could not be read. -/
def IsIncomplete {F : Form} : Part F → Prop
  | statement (.incomplete _) => True
  | _ => False

end Part

namespace Lexemes

variable (lexemes : Lexemes)

/-- A declaration of variables stands at an index. -/
def Declares (i : Nat) : Prop :=
  ∃ place slots initial j,
    lexemes.IsPhrase i (.statement (.declaration place slots initial)) j

/-- A statement that no declaration could be read for. -/
def Preferred : Statement .parsed → Prop
  | .expression place _ => ¬ lexemes.Declares place.first
  | _ => True

/-- Neither the place of the modified function nor an error that is raised by name begins at an
index. -/
def NoWord (i : Nat) : Prop :=
  ¬ (lexemes.isWordAt i "_" = true ∧ lexemes.kindAt (i + 1) = .semicolon) ∧
    ¬ (lexemes.isWordAt i "revert" = true ∧ lexemes.kindAt (i + 1) = .ident)

/-- A statement that is the first way to read what it is written as. -/
def Chosen (statement : Statement .parsed) : Prop :=
  lexemes.Preferred statement ∧
    match statement with
    | .expression place _ | .declaration place _ _ => lexemes.NoWord place.first
    | .revert place _ => lexemes.kindAt (place.first + 1) = .ident
    | _ => True

/-- The definition of an error begins at an index. -/
def DefinesError (i : Nat) : Prop :=
  lexemes.isWordAt i "error" = true ∧ lexemes.kindAt (i + 1) = .ident

/-- A variable of a contract stands at an index. -/
def DeclaresState (i : Nat) : Prop :=
  ∃ declaration j, lexemes.IsPhrase i (.member (.stateVariable declaration)) j

/-- A member of a contract that is the first way to read what it is written as. -/
def ChosenMember : ContractPart .parsed → Prop
  | .stateVariable declaration => ¬ lexemes.DefinesError declaration.place.first
  | .fallback declaration =>
    lexemes.kindAt declaration.place.first = .kwFunction →
      ¬ lexemes.DeclaresState declaration.place.first
  | _ => True

/-- A unit of a source that is the first way to read what it is written as. -/
def ChosenUnit : SourceUnit .parsed → Prop
  | .constant declaration => ¬ lexemes.DefinesError declaration.place.first ∧
    lexemes.kindAt declaration.place.first ≠ .kwFunction
  | _ => True

/-- What is right below a part is the first way to read what it is written as. -/
structure Decided (part : Part .parsed) : Prop where
  /-- Statements are, where any may stand. -/
  chosen : ∀ s ∈ part.choices, lexemes.Chosen s
  /-- A statement that could not be read stands in blocks only. -/
  complete : ∀ s ∈ part.branches, ¬ (Part.statement s).IsIncomplete
  /-- So is what a loop does first. -/
  initial : ∀ s ∈ part.initial?, lexemes.Preferred s
  /-- So are the members of a contract. -/
  members : ∀ m ∈ part.members, lexemes.ChosenMember m

end Lexemes

/-- A part with nothing right below that could be read in several ways. -/
theorem Lexemes.Decided.of_none {lexemes : Lexemes} {part : Part .parsed}
    (h : part.choices = [] ∧ part.branches = [] ∧ part.initial? = none ∧ part.members = []) :
    lexemes.Decided part := by
  obtain ⟨hchoices, hbranches, hinitial, hmembers⟩ := h
  exact ⟨by simp [hchoices], by simp [hbranches], by simp [hinitial], by simp [hmembers]⟩

/-! ### Broken statements -/

/-- What a tree may show of broken statements. -/
inductive Repairs
  /-- There are none. -/
  | none
  /-- Blocks may be cut short. -/
  | cuts
  /-- Blocks may be cut short, and statements skipped in them. -/
  | all
deriving DecidableEq

namespace Repairs

/-- May blocks be cut short? -/
def cutsBlocks (repairs : Repairs) : Bool := repairs matches cuts | all

/-- What may be shown where broken statements are tolerated, or not. -/
def ofTolerance (tolerant : Bool) : Repairs := if tolerant then all else none

end Repairs

namespace Lexemes

variable (lexemes : Lexemes)

/-- What is left where a broken statement is skipped: the statement, which does not stand where a
member of the contract begins, or a block that the next member cut short. -/
inductive Recovered (repairs : Repairs) : Part .parsed → Prop
  | skipped {place : Extent} (allowed : repairs = .all) (covers : lexemes.Covers place)
      (member : Grammar.atMember lexemes place.first = false) :
    Recovered repairs (.statement (.incomplete place))
  | cut {place : Extent} {body : List (Statement .parsed)} (allowed : repairs.cutsBlocks = true)
      (chosen : ∀ s ∈ body, lexemes.Chosen s)
      (spells : lexemes.Spells place.first
        (.token .lbrace :: Symbol.row (body.map (·.place))) place.next)
      (member : Grammar.atMember lexemes place.next = true) :
    Recovered repairs (.block (.mk place body))

/-! ### Trees of an input -/

/-- A part stands in the input, for what is right below it. -/
inductive Supports (repairs : Repairs) (part : Part .parsed) : Prop
  | phrase (holds : lexemes.Holds part)
  | composed {symbols : List Symbol} (tight : part.Tight) (decided : lexemes.Decided part)
      (composed : part.Composed symbols)
      (spells : lexemes.Spells part.place.first symbols part.place.next)
  | recovered (recovered : lexemes.Recovered repairs part)

/-- From one index up to another, a part stands in the input, with all that is below it. Of broken
statements it shows no more than is allowed. -/
structure Lays (repairs : Repairs) (i : Nat) (part : Part .parsed) (j : Nat) : Prop where
  /-- It stands there. -/
  place : part.place = ⟨i, j⟩
  /-- Each part stands where it is written. -/
  stands : part.All (lexemes.Supports repairs)

/-- A statement stands in the input, and is the first way to read what it is written as. -/
structure IsStatement (repairs : Repairs) (i : Nat) (statement : Statement .parsed) (j : Nat) :
    Prop where
  /-- It stands there. -/
  lays : lexemes.Lays repairs i (.statement statement) j
  /-- There is no earlier way to read it. -/
  chosen : lexemes.Chosen statement

end Lexemes

/-! ### What stands in an input -/

namespace Symbol

@[simp] theorem parts_row (places : List Extent) : parts (row places) = places := by
  simpa [row] using parts_map_part places id

@[simp] theorem parts_orElse (place : Option Extent) : parts (orElse place) = place.toList := by
  cases place <;> rfl

@[simp] theorem parts_initial (place : Option Extent) : parts (initial place) = place.toList := by
  cases place <;> rfl

@[simp] theorem parts_flags (flags : Option (List String)) : parts (Symbol.flags flags) = [] := by
  cases flags with
  | none => rfl
  | some flags => simp [Symbol.flags, parts, List.flatMap_map]

@[simp] theorem parts_given (given : Option (List (Parameter Extent))) :
    parts (Symbol.given given) = (given.getD []).map (·.place) := by
  cases given <;> simp [Symbol.given, parts]

@[simp] theorem parts_body (place : Option Extent) : parts (Symbol.body place) = place.toList := by
  cases place <;> rfl

@[simp] theorem parts_signature (parameters : List (Parameter Extent)) (items : List Attribute)
    (returns : Option (List (Parameter Extent))) :
    parts (Symbol.signature parameters items returns) =
      parameters.map (·.place) ++ parts (Symbol.attributes items) ++
        (returns.getD []).map (·.place) := by
  simp [Symbol.signature]

@[simp] theorem parts_bases (values : List (Invocation Extent)) :
    parts (Symbol.bases values) = values.map (·.place) := by
  cases values <;> simp [Symbol.bases, parts, List.flatMap_map, ← List.map_eq_flatMap]

end Symbol

/-- A function names the parts of its attributes between its other parts. -/
theorem Part.Outlined.of_attributes {part : Part .parsed} {symbols : List Symbol}
    {items : List Attribute} (others : List (List (Part .parsed))) (before after : List Extent)
    (hfields : part.fields = others ++ attributeFields (FunctionAttributes.ofItems items))
    (hothers : others.flatten.map place = before ++ after)
    (hparts : parts symbols = before ++ parts (Symbol.attributes items) ++ after) :
    part.Outlined symbols := by
  have hmodifiers := FunctionAttributes.modifiers_sublist items
  have hoverrides := FunctionAttributes.overrides_sublist items
  have hkept : ((attributeFields (F := .parsed) (FunctionAttributes.ofItems items)).flatten.map
      place) = (FunctionAttributes.ofItems items).places := by
    simp [attributeFields, overridesField, FunctionAttributes.places, place, Function.comp_def]
  refine ⟨fun field hfield => ?_, ?_⟩
  · rw [hparts, List.append_assoc]
    rcases List.mem_append.mp (hfields ▸ hfield) with hfield | hfield
    · refine ((List.sublist_flatten_of_mem hfield).map place).trans ?_
      rw [hothers]
      exact (List.sublist_append_right _ _).append_left _
    · refine .trans ?_ (List.sublist_append_right _ _)
      refine .trans ?_ (List.sublist_append_left _ _)
      rcases List.mem_pair.mp hfield with rfl | rfl
      · simpa [place, Function.comp_def] using hmodifiers
      · simpa [overridesField, place, Function.comp_def] using hoverrides
  · rw [hfields, hparts, List.flatten_append, List.map_append, hkept, hothers, List.append_assoc,
      List.append_assoc]
    refine (List.subperm_append_left before).mpr ?_
    exact ((List.subperm_append_left after).mpr (FunctionAttributes.places_subperm items)).trans
      List.perm_append_comm.subperm

namespace Part.Composed

variable {part : Part .parsed} {symbols : List Symbol}

/-- A production stands for at least one token. -/
theorem solid (h : part.Composed symbols) : ∃ symbol ∈ symbols, symbol.isSolid = true := by
  induction h with
  | unit _ _ ih => exact ih
  | contract => exact ⟨.token .lbrace, by simp, rfl⟩
  | fallback hword => rcases hword with rfl | rfl <;> simp [Symbol.isSolid]
  | _ => simp [Symbol.isSolid]

/-- Every production names the parts. -/
theorem outlined (h : part.Composed symbols) : part.Outlined symbols := by
  induction h with
  | unit hmember _ ih =>
    exact ⟨fun field hfield => ih.inOrder field (SourceUnit.fields_of_member? hmember ▸ hfield),
      SourceUnit.fields_of_member? hmember ▸ ih.once⟩
  | receive =>
    exact .of_attributes [_] [] _ rfl rfl (by
      simp [parts, place, Function.comp_def, Option.toList_map])
  | @fallback _ _ parameters returns _ body hword =>
    refine .of_attributes [_, _, _] (parameters.map (·.place))
      ((returns.getD []).map (·.place) ++ body.toList.map (·.place)) rfl ?_ ?_
    · simp [parametersField, place, Function.comp_def]
    · rcases hword with rfl | rfl <;> simp [parts, Option.toList_map]
  | @function _ _ parameters returns _ body =>
    refine .of_attributes [_, _, _] (parameters.map (·.place))
      ((returns.getD []).map (·.place) ++ body.toList.map (·.place)) rfl ?_ ?_
    · simp [parametersField, place, Function.comp_def]
    · simp [parts, Option.toList_map]
  | _ =>
    refine .of_sublist ?_
    simp [fields, statementFields, memberFields, unitFields, parametersField, overridesField, parts,
      place, Block.body, Function.comp_def, Option.toList_map,
      FunctionAttributes.modifiers_sublist, FunctionAttributes.overrides_sublist]

end Part.Composed

/-! ### Phrases among them -/

namespace Part

/-- Is this a part that only a production for phrases writes? -/
def IsPhrasal {F : Form} : Part F → Prop
  | statement (.declaration ..) => True
  | statement _ | block _ | clause _ => False
  | member (.constructor _) | member (.receive _) | member (.fallback _)
  | member (.function _) | member (.modifier _) => False
  | unit (.contract _) | unit (.function _) => False
  | _ => True

/-- Below such a part there are only such parts. -/
theorem IsPhrasal.below {F : Form} {part : Part F} (h : part.IsPhrasal) :
    ∀ field ∈ part.fields, ∀ child ∈ field, child.IsPhrasal := by
  cases part with
  | expression value =>
    cases value
    case call given => cases given <;> simp [fields, expressionFields, IsPhrasal]
    all_goals simp [fields, expressionFields, IsPhrasal]
  | typeName value => cases value <;> simp [fields, typeFields, IsPhrasal]
  | statement value =>
    cases value <;> first | exact h.elim | simp [fields, statementFields, IsPhrasal]
  | namedArgument value | parameter value =>
    cases value
    simp [fields, IsPhrasal]
  | member value =>
    cases value <;> first
      | exact h.elim
      | simp [fields, memberFields, overridesField, baseField, IsPhrasal]
  | unit value =>
    cases value <;> first
      | exact h.elim
      | simp [fields, unitFields, baseField, IsPhrasal]
  | _ => first | exact h.elim | simp [fields, IsPhrasal]

/-- No other production writes such a part. -/
theorem Composed.not_isPhrasal {part : Part .parsed} {symbols : List Symbol}
    (h : part.Composed symbols) : ¬ part.IsPhrasal := by
  induction h with
  | @unit unit _ _ hmember _ ih =>
    cases unit <;> cases hmember <;> exact ih
  | _ => exact id

end Part

namespace Lexemes

variable {lexemes : Lexemes} {repairs : Repairs} {i j k : Nat} {part child : Part .parsed}
  {field : List (Part .parsed)} {symbols : List Symbol}

namespace Supports

/-- What stands in the input is spelled by symbols that name its parts in order. -/
theorem spelled (h : lexemes.Supports repairs part) :
    ∃ symbols, part.Outlined symbols ∧
      lexemes.Spells part.place.first symbols part.place.next := by
  cases h with
  | phrase holds =>
    obtain ⟨-, symbols, hphrased, hspells⟩ := holds
    exact ⟨symbols, hphrased.outlined, hspells⟩
  | composed _ _ composed spells => exact ⟨_, composed.outlined, spells⟩
  | recovered recovered =>
    cases recovered with
    | @skipped place _ covers _ =>
      exact ⟨[.part place], .of_sublist (by simp [Part.fields, Part.statementFields]),
        ⟨rfl, covers⟩, rfl⟩
    | @cut place body _ _ spells =>
      refine ⟨_, .of_sublist ?_, spells⟩
      simp [Part.fields, Part.place, parts, Block.body, Function.comp_def]

/-- What stands in the input covers tokens. -/
theorem covers (h : lexemes.Supports repairs part) : lexemes.Covers part.place := by
  cases h with
  | phrase holds => exact holds.covers
  | composed _ _ composed spells => exact spells.covers composed.solid
  | recovered recovered =>
    cases recovered with
    | skipped _ covers => exact covers
    | cut _ _ spells => exact spells.covers (by simp [Symbol.isSolid])

/-- The expressions right below bind as tightly as they have to. -/
theorem tight (h : lexemes.Supports repairs part) : part.Tight := by
  cases h with
  | phrase holds => exact holds.1
  | composed tight => exact tight
  | recovered recovered =>
    cases recovered <;> simp [Part.Tight, Part.fields, Part.statementFields]

/-- A part that only a production for phrases writes is written by one. -/
theorem holds (h : lexemes.Supports repairs part) (hpart : part.IsPhrasal) :
    lexemes.Holds part := by
  cases h with
  | phrase holds => exact holds
  | composed _ _ composed => exact absurd hpart composed.not_isPhrasal
  | recovered recovered => cases recovered <;> exact hpart.elim

end Supports

/-- A phrase stands in the input. -/
theorem IsPhrase.lays (h : lexemes.IsPhrase i part j) : lexemes.Lays repairs i part j :=
  ⟨h.place, h.holds.mono fun _ => .phrase⟩

/-- Below a part that only productions for phrases write, all is written by them. -/
theorem all_holds (h : part.All (lexemes.Supports repairs)) (hpart : part.IsPhrasal) :
    part.All lexemes.Holds := by
  induction part using Part.induction with
  | step part ih =>
    exact Part.all_iff.mpr ⟨h.here.holds hpart, fun field hfield child hchild =>
      ih field hfield child hchild (h.below hfield hchild) (hpart.below field hfield child hchild)⟩

namespace Lays

/-- A part that only productions for phrases write is a phrase where it stands. -/
theorem isPhrase (h : lexemes.Lays repairs i part j) (hpart : part.IsPhrasal) :
    lexemes.IsPhrase i part j :=
  ⟨h.place, all_holds h.stands hpart⟩

/-- What is laid out somewhere covers tokens there. -/
theorem covers (h : lexemes.Lays repairs i part j) : lexemes.Covers part.place :=
  h.stands.here.covers

/-- It takes up at least one. -/
theorem lt (h : lexemes.Lays repairs i part j) : i < j := by
  have := h.covers.nonempty
  rwa [h.place] at this

/-- What stands in the input is spelled as a smaller construct of something else. -/
theorem spells (h : lexemes.Lays repairs i part k) (hrest : lexemes.Spells k symbols j) :
    lexemes.Spells i (.part part.place :: symbols) j := by
  refine ⟨⟨?_, h.covers⟩, ?_⟩ <;> rw [h.place]
  exact hrest

/-- A part that is written by a production stands in the input if all below it does. -/
theorem of_composed (hplace : part.place = ⟨i, j⟩) (htight : part.Tight)
    (hdecided : lexemes.Decided part) (hcomposed : part.Composed symbols)
    (hspells : lexemes.Spells i symbols j)
    (hbelow : ∀ field ∈ part.fields, ∀ child ∈ field, child.All (lexemes.Supports repairs)) :
    lexemes.Lays repairs i part j := by
  refine ⟨hplace, Part.all_iff.mpr ⟨.composed htight hdecided hcomposed ?_, hbelow⟩⟩
  rw [hplace]
  exact hspells

/-- The parts right below what stands in the input stand there. -/
theorem below (h : lexemes.Lays repairs i part j) (hfield : field ∈ part.fields)
    (hchild : child ∈ field) :
    lexemes.Lays repairs child.place.first child child.place.next :=
  ⟨rfl, h.stands.below hfield hchild⟩

end Lays

end Lexemes

end SolidityParser
