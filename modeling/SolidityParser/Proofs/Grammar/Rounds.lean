import SolidityParser.Proofs.Accounts.Unit
import SolidityParser.Proofs.Grammar.Invariant
import SolidityParser.Proofs.Imports.Split
import SolidityParser.Proofs.Parser.Truthful
import SolidityParser.Proofs.Parser.Unbounded

/-!
# The loops of the grammar make progress

Every loop of the grammar goes round until a round gives nothing. `IsRound` lists the rounds; those
that are written within a rule get a name here, and an equation that ties it to the rule. A round
that gives something has consumed a token and has not passed the end of the input (`IsRound.moves`),
so a loop has at most as many rounds as there are tokens.

Rounds are runs of a level of nesting that is deep enough for what is left of the input; that what
is nested moves on is known from its accounts.
-/

namespace SolidityParser

/-! ### States that a parse comes to -/

/-- What holds of every state that a parse comes to. -/
structure ParseState.Regular (lexemes : Lexemes) (s : ParseState) : Prop where
  /-- No token before the current one is the end of the input. -/
  goesOn : lexemes.GoesOn 0 s.position
  /-- The record of failures is right. -/
  exact : s.trail.Exact

namespace ParseState.Regular

variable {lexemes : Lexemes} {s t : ParseState}

/-- A parse begins so. -/
theorem start (lexemes : Lexemes) : ParseState.Regular lexemes {} := ⟨.refl 0, Trail.exact_empty⟩

/-- A parse does not go past the last token. -/
theorem le_size (h : s.Regular lexemes) : s.position ≤ lexemes.size :=
  h.goesOn.le_size (Nat.zero_le _)

/-- Where a run comes to is again such a state. -/
theorem leads (hs : s.Regular lexemes) (h : Leads lexemes s t) : t.Regular lexemes :=
  ⟨hs.goesOn.trans h.goesOn, h.grows.exact hs.exact⟩

/-- Every step of a parse keeps it. -/
theorem invariant : Invariant ParseState.Regular where
  advance hs hne := ⟨hs.goesOn.trans (.step hne), hs.exact⟩
  miss hs _ := ⟨hs.goesOn, (Trail.reports_addToken _ _ _).exact hs.exact⟩
  rule _ hs := ⟨hs.goesOn, (Trail.reports_addRule _ _ _).exact hs.exact⟩
  back hs ht := ⟨hs.goesOn, ht.exact⟩
  collapse _ _ ht := ⟨ht.goesOn, (Trail.reports_collapse _ _ _ _).exact ht.exact⟩

/-- Nor does it where an import lacks `from`. -/
theorem keptWithoutFrom : KeptWithoutFrom ParseState.Regular :=
  fun _ _ hs _ => ⟨hs.goesOn, (Trail.reports_addToken _ _ _).exact hs.exact⟩

end ParseState.Regular

/-- An input and itself, read in one way. -/
def Alike.one (scope : Scope) (bound : Nat) : Alike where
  first := scope
  second := scope
  bound := max scope.lexemes.size bound
  kindAt _ _ := rfl
  textAt _ _ := rfl
  skips := scope.tolerant
  strict := rfl
  strict' := rfl
  whole _ := ⟨rfl, Nat.le_max_left _ _⟩

/-- The account of a run from a state that a parse comes to. -/
theorem Parser.Accounts.at {α : Type} {scope : Scope} {s : ParseState} {p q : Parser α}
    {post : α → Nat → Prop} (h : Accounts (.one scope 0) false s.position p q post)
    (hs : s.Regular scope.lexemes) :
    (final (p scope s)).Regular scope.lexemes ∧ s.position ≤ (final (p scope s)).position ∧
      ∀ v t, p scope s = .ok v t → post v t.position := by
  have haccount := h s rfl hs.exact nofun hs.le_size
  exact ⟨hs.leads haccount.leads, haccount.leads.le, haccount.gives⟩

/-- Where a parse may be: at a state that it comes to, and with levels of nesting left for all that
is ahead. -/
structure InReach (scope : Scope) (depth : Nat) (s : ParseState) : Prop where
  /-- A parse comes to the state. -/
  regular : s.Regular scope.lexemes
  /-- There are more levels than tokens ahead. -/
  deep : scope.lexemes.size < s.position + depth

/-- What is nested has accounts there. -/
theorem InReach.accounts {scope : Scope} {depth : Nat} {s : ParseState}
    (hs : InReach scope depth s) :
    Inner.Accounts (.one scope 0) s.position (.upTo depth) (.upTo depth) :=
  Inner.accounts_upTo depth depth hs.deep hs.deep

namespace Grammar

open SolidityParser.Parser (Accounts Onward)

/-! ### Rounds that are written within a rule -/

section Written

open SolidityParser.Parser

/-- One more of adjacent strings. -/
def nextString? (value : String) : Parser (Option String) := do
  if (← kind).isString then
    let more ← text
    advance
    return some (value ++ Quoted.valueOf more)
  return none

/-- Adjacent strings are a loop of this round. -/
theorem string_eq : string = (do
    let start ← position
    let first ← text
    advance
    let value ← iterate nextString? (Quoted.valueOf first)
    return .string (← extentFrom start) value (Quoted.kindOf first)) := rfl

/-- One more operator of a level, and its right operand. -/
def nextOperand? (inner : Inner) (level : Nat) (left : Expression Extent) :
    Parser (Option (Expression Extent)) := do
  match BinaryOp.ofKind? level (← kind) with
  | none => return none
  | some operator =>
    advance
    return some (applied operator left (← binary inner level))

/-- The operators of a level are a loop of this one, from their first operand. -/
theorem binary_eq (inner : Inner) (level : Nat) : binary inner (level + 1) = (do
    let first ← binary inner level
    iterate (nextOperand? inner level) first) := rfl

/-- One more name of a path, which has to stand after a point. -/
def nextName? (path : String) : Parser (Option String) := do
  if (← kind) = .dot then
    advance
    let name ← expectIdent
    return some (path ++ "." ++ name.name)
  return none

/-- A path is a name, and a loop. -/
theorem namePath_eq : namePath = (do
    let first ← expectIdent
    let path ← iterate nextName? first.name
    return ⟨← extentFrom first.place.first, path⟩) := rfl

/-- One more name of the path of a type, if a point and a name stand here. -/
def nextTypeName? (path : String) : Parser (Option String) := do
  if (← kind) = .dot ∧ (← kindAhead 1) = .ident then
    advance
    let name ← text
    advance
    return some (path ++ "." ++ name)
  return none

/-- What follows the first name of the path of a type is one. -/
theorem pathTail_eq : pathTail = iterate nextTypeName? := rfl

/-- One more attribute of a function type. -/
def typeAttribute? (attributes : Option Visibility × Option StateMutability) :
    Parser (Option (Option Visibility × Option StateMutability)) := do
  if let some found ← visibility? then return some (some found, attributes.2)
  if let some found ← mutability? then return some (attributes.1, some found)
  return none

/-- The attributes of a function type are a loop from none of them. -/
theorem functionTypeAttributes_eq :
    functionTypeAttributes = iterate typeAttribute? (none, none) := rfl

/-- One more attribute of a modifier. -/
def modifierAttribute? (attributes : Bool × Option (List (NamePath Extent))) :
    Parser (Option (Bool × Option (List (NamePath Extent)))) := do
  if ← eat .kwVirtual then return some (true, attributes.2)
  if ← eat .kwOverride then
    let bases ← overrideList
    return some (attributes.1, some bases)
  return none

/-- So are those of a modifier. -/
theorem modifierAttributes_eq :
    modifierAttributes = iterate modifierAttribute? (false, none) := rfl

/-- One more clause of `try`. -/
def nextClause? (inner : Inner) : Parser (Option (CatchClause .parsed)) := do
  if (← kind) = .kwCatch then some <$> catchClause inner else return none

/-- Clauses are a first one, and the others in a loop. -/
theorem catchClauses_eq (inner : Inner) : catchClauses inner = (do
    let first ← catchClause inner
    let more ← collect (nextClause? inner)
    return first :: more) := rfl

/-- One more token of a pragma. -/
def nextPragmaToken? (_ : Unit) : Parser (Option Unit) := do
  let here ← kind
  if here = .semicolon ∨ here = .eof then return none
  advance
  return some ()

/-- The tokens of a pragma are passed in a loop. -/
theorem skipToSemicolon_eq :
    skipToSemicolon = (iterate nextPragmaToken? () >>= fun _ => pure ()) := rfl

/-- An item and the comma after it; no item if there is none, since that is the last. -/
def itemBeforeComma? {α : Type} (item : Parser α) : Parser (Option α) := do
  let value ← item
  if ← eat .comma then return some value
  return none

end Written

/-! ### Rounds -/

/-- A round of a loop of the grammar: it gives something if the loop goes on. -/
inductive IsRound (inner : Inner) : {β : Type} → Parser (Option β) → Prop
  /-- The units of a source. -/
  | unit : IsRound inner (nextUnit? inner)
  /-- The members of a contract. -/
  | part : IsRound inner (nextPart? inner)
  /-- The statements of a block. -/
  | statement : IsRound inner (blockItem inner.statement)
  /-- The tokens that are skipped in the place of a statement. -/
  | skipped (brackets : OpenBrackets) : IsRound inner (skipToken inner.statement brackets)
  /-- The items of a series. -/
  | item {α : Type} {item : Parser α} {a : Ledger} {b : α → Ledger}
      (h : Parser.Built [] a item b) : IsRound inner (itemBeforeComma? item)
  /-- What follows an operand. -/
  | suffix (object : Expression Extent) : IsRound inner (suffix? inner object)
  /-- The tokens of a unit that is no import. -/
  | unitToken (progress : List Kind × Bool) : IsRound inner (skipStep progress)
  /-- The units of a source of which only the imports are read. -/
  | scanned : IsRound inner scanStep
  /-- The members of a struct. -/
  | structMember : IsRound inner (structMember? inner)
  /-- The clauses of `try`. -/
  | clause : IsRound inner (nextClause? inner)
  /-- The tokens of an assembly body. -/
  | brace (depth : Nat) : IsRound inner (braceStep depth)
  /-- The tokens of a pragma. -/
  | pragmaToken : IsRound inner (nextPragmaToken? ())
  /-- The attributes of a function. -/
  | functionAttribute (attributes : FunctionAttributes Extent) :
      IsRound inner (functionAttribute? inner attributes)
  /-- The attributes of a modifier. -/
  | modifierAttribute (attributes : Bool × Option (List (NamePath Extent))) :
      IsRound inner (modifierAttribute? attributes)
  /-- The attributes of a state variable. -/
  | variableAttribute (attributes : VariableAttributes) :
      IsRound inner (variableAttribute? attributes)
  /-- The attributes of a function type. -/
  | typeAttribute (attributes : Option Visibility × Option StateMutability) :
      IsRound inner (typeAttribute? attributes)
  /-- The names of a path. -/
  | name (path : String) : IsRound inner (nextName? path)
  /-- The names of the path of a type. -/
  | typeName (path : String) : IsRound inner (nextTypeName? path)
  /-- The brackets of an array type. -/
  | array (start : Nat) (base : TypeName Extent) : IsRound inner (nextArray? inner start base)
  /-- Adjacent strings. -/
  | string (value : String) : IsRound inner (nextString? value)
  /-- The operators of a level. -/
  | operand (level : Nat) (left : Expression Extent) : IsRound inner (nextOperand? inner level left)

/-! ### Accounts of rounds

Where a round gives something it has gone on by a token, whatever the two runs have on record. What
is nested in a round accounts for what comes after its first token.
-/

variable {w : Alike} {due : Bool} {i : Nat} {inner inner' : Inner}

theorem nextString?_accounts {value : String} :
    Accounts w due i (nextString? value) (nextString? value) (Onward i) :=
  .kind <| .ite
    (fun hi => .text <| .advance (ne_eof_of_isString hi) <| .pure (.more (by omega)))
    fun _ => .pure .last

theorem nextName?_accounts {path : String} :
    Accounts w due i (nextName? path) (nextName? path) (Onward i) :=
  .kindIf (fun hi => .take hi nofun <| .expectIdent fun _ => .pure (.more (by omega)))
    fun _ => .pure .last

theorem nextTypeName?_accounts {path : String} :
    Accounts w due i (nextTypeName? path) (nextTypeName? path) (Onward i) :=
  .kind <| .kindAhead (by omega) <| .ite
    (fun hi => .take hi.1 nofun <| .text <| .take hi.2 nofun <| .pure (.more (by omega)))
    fun _ => .pure .last

theorem typeAttribute?_accounts {attributes : Option Visibility × Option StateMutability} :
    Accounts w due i (typeAttribute? attributes) (typeAttribute? attributes) (Onward i) := by
  refine visibility?_accounts.bind fun visibility j _ hj => ?_
  cases visibility with
  | some visibility => exact .pure (.more (hj rfl))
  | none =>
    refine mutability?_accounts.bind fun mutability k _ hk => ?_
    cases mutability with
    | some mutability => exact .pure (.more (by have := hk rfl; omega))
    | none => exact .pure .last

theorem modifierAttribute?_accounts {attributes : Bool × Option (List (NamePath Extent))} :
    Accounts w due i (modifierAttribute? attributes) (modifierAttribute? attributes) (Onward i) :=
  .eatIf nofun (fun _ => .pure (.more (by omega))) fun _ => .eatIf nofun
    (fun _ => overrideList_accounts.bind fun _ _ _ _ => .pure (.more (by omega)))
    fun _ => .pure .last

theorem nextPragmaToken?_accounts :
    Accounts w due i (nextPragmaToken? ()) (nextPragmaToken? ()) (Onward i) :=
  .kind <| .ite (fun _ => .pure .last) fun hi =>
    .advance (fun heof => hi (.inr heof)) <| .pure (.more (by omega))

theorem braceStep_accounts {depth : Nat} :
    Accounts w due i (braceStep depth) (braceStep depth) (Onward i) := by
  refine .ite (fun _ => .pure .last) fun _ => .kind ?_
  split
  case h_1 => exact .reportToken .fail
  case h_2 hi | h_3 hi => exact .take hi nofun <| .pure (.more (by omega))
  case h_4 hi _ _ => exact .advance hi <| .pure (.more (by omega))

section

variable (h : Inner.Accounts w (i + 1) inner inner')

include h

theorem nextOperand?_accounts {level : Nat} {left : Expression Extent} :
    Accounts w due i (nextOperand? inner level left) (nextOperand? inner' level left)
      (Onward i) := by
  refine .kind ?_
  split
  case h_1 => exact .pure .last
  case h_2 hop =>
    exact .advance (BinaryOp.ne_eof_of_ofKind? hop) <|
      (binary_accounts level (h.later (by omega))).bind fun _ _ _ _ => .pure (.more (by omega))

theorem nextClause?_accounts :
    Accounts w due i (nextClause? inner) (nextClause? inner') (Onward i) :=
  .kindIf (fun _ => .map <| (catchClause_accounts h).mono fun _ _ _ hj => .more hj)
    fun _ => .pure .last

end

theorem nextUnit?_accounts (h : Inner.Accounts w i inner inner') :
    Accounts w due i (nextUnit? inner) (nextUnit? inner') (Onward i) :=
  .check (fun _ => .pure .last) fun _ =>
    .map <| (sourceUnit_accounts h).finish.mono fun _ _ _ hj => .more hj

theorem structMember?_accounts_at (h : Inner.Accounts w (i + 1) inner inner') :
    Accounts w due i (structMember? inner) (structMember? inner') (Onward i) :=
  .eatIf nofun (fun _ => .pure .last) fun _ =>
    (variableDeclaration_accounts (h.later (by omega))).bind fun _ _ _ _ =>
    .expect nofun fun _ => .pure (.more (by omega))

/-! ### Rounds move -/

section Moves

variable {scope : Scope} {s t : ParseState}

/-- At the end of the input nothing is skipped. -/
theorem skipToken_eof {α : Type} {r : Rule α} {brackets : OpenBrackets}
    (h : scope.lexemes.kindAt s.position = .eof) : skipToken r brackets scope s = .ok none s := by
  obtain ⟨verdict, hrun, -, hgo⟩ := resumes_run r scope s .eof (brackets.after .eof)
  have hadvance : Parser.advance scope s = .ok () s := if_pos h
  unfold skipToken
  rw [Parser.bind_of_ok (show Parser.kind scope s = .ok .eof s by rw [Parser.kind, h]),
    Parser.bind_of_ok hadvance, Parser.bind_of_ok hrun]
  cases verdict with
  | true => rfl
  | false => exact absurd h (hgo rfl).1

/-- An item does not go back, and the comma after it is a token. -/
theorem itemBeforeComma?_moves {α : Type} {item : Parser α} {a : Ledger} {b : α → Ledger} {v : α}
    (h : Parser.Built [] a item b) (hs : s.Regular scope.lexemes)
    (hrun : itemBeforeComma? item scope s = .ok (some v) t) :
    s.position < t.position ∧ t.Regular scope.lexemes := by
  obtain ⟨value, u, hitem, hrest⟩ := Parser.bind_eq_ok hrun
  have hsteady : item.Steady 1 := Phrase.Built.steady h
  have hle := hsteady.le hitem
  have hkeeps : item.Keeps ParseState.Regular [] :=
    Phrase.Built.keeps ParseState.Regular.invariant h
  have hu := hkeeps scope s trivial hs
  rw [hitem] at hu
  by_cases hcomma : scope.lexemes.kindAt u.position = .comma
  · rw [Parser.bind_of_ok (Parser.eat_hit (by decide) hcomma)] at hrest
    cases hrest
    exact ⟨Nat.lt_succ_of_le hle, hu.goesOn.trans (.step (Lexemes.ne_eof hcomma nofun)), hu.exact⟩
  · rw [Parser.bind_of_ok (Parser.eat_miss hcomma)] at hrest
    cases hrest

/-- A round that gives something has consumed a token, and not passed the end of the input. -/
theorem IsRound.moves {depth : Nat} {β : Type} {round : Parser (Option β)} {v : β}
    (hround : IsRound (.upTo depth) round) (hs : InReach scope depth s)
    (hrun : round scope s = .ok (some v) t) :
    s.position < t.position ∧ t.Regular scope.lexemes := by
  have h := hs.accounts
  have h' := h.later (Nat.le_succ s.position)
  have accounted {β : Type} {round : Parser (Option β)} {v : β}
      (haccounts : Accounts (.one scope 0) false s.position round round (Onward s.position))
      (hrun : round scope s = .ok (some v) t) :
      s.position < t.position ∧ t.Regular scope.lexemes := by
    obtain ⟨hregular, -, honward⟩ := haccounts.at hs.regular
    rw [hrun] at hregular
    exact ⟨honward _ t hrun rfl, hregular⟩
  cases hround with
  | unit => exact accounted (nextUnit?_accounts h) hrun
  | part => exact accounted (nextPart?_accounts h) hrun
  | statement =>
    exact accounted (blockItem_accounts fun w' hw j hj => (h w' j hw hj).statement) hrun
  | skipped brackets =>
    by_cases heof : scope.lexemes.kindAt s.position = .eof
    · rw [skipToken_eof heof] at hrun
      cases hrun
    · have hstatement := (h'.speculative.statement (Nat.le_refl (s.position + 1)))
      exact accounted ((skipToken_accounts rfl (Nat.le_max_left _ _) heof hstatement).mono
        fun _ _ _ hpost => fun _ => hpost.1) hrun
  | item hitem => exact itemBeforeComma?_moves hitem hs.regular hrun
  | suffix object => exact accounted (suffix?_accounts h') hrun
  | unitToken progress =>
    obtain ⟨-, state, hafter, -, rfl⟩ := skipStep_eq_ok hrun
    refine ⟨Nat.lt_succ_self _, ParseState.Regular.invariant.advance hs.regular fun heof => ?_⟩
    rw [heof] at hafter
    cases hafter
  | scanned =>
    obtain ⟨unit, hplace, hunit, -⟩ := scanStep_gives (.of_run hrun)
    have hlt := hunit.lt
    have hkeeps : Parser.Keeps ParseState.Regular [] scanStep :=
      keeps_scanStep ParseState.Regular.invariant.toStepInvariant .keptWithoutFrom
    have ht := hkeeps scope s trivial hs.regular
    rw [hrun] at ht
    rw [hplace] at hlt
    exact ⟨hlt, ht⟩
  | structMember => exact accounted (structMember?_accounts_at h') hrun
  | clause => exact accounted (nextClause?_accounts h') hrun
  | brace depth => exact accounted braceStep_accounts hrun
  | pragmaToken => exact accounted nextPragmaToken?_accounts hrun
  | functionAttribute attributes => exact accounted (functionAttribute?_accounts h) hrun
  | modifierAttribute attributes => exact accounted modifierAttribute?_accounts hrun
  | variableAttribute attributes => exact accounted variableAttribute?_accounts hrun
  | typeAttribute attributes => exact accounted typeAttribute?_accounts hrun
  | name path => exact accounted nextName?_accounts hrun
  | typeName path => exact accounted nextTypeName?_accounts hrun
  | array start base => exact accounted (nextArray?_accounts h') hrun
  | string value => exact accounted nextString?_accounts hrun
  | operand level left => exact accounted (nextOperand?_accounts h') hrun

/-- After a round, the loop is where a parse may be, and further on. -/
theorem IsRound.inReach {depth : Nat} {β : Type} {round : Parser (Option β)} {v : β}
    (hround : IsRound (.upTo depth) round) (hs : InReach scope depth s)
    (hrun : round scope s = .ok (some v) t) :
    InReach scope depth t ∧ s.position < t.position ∧ t.position ≤ scope.lexemes.size := by
  obtain ⟨hlt, ht⟩ := hround.moves hs hrun
  have := hs.deep
  exact ⟨⟨ht, by omega⟩, hlt, ht.le_size⟩

/-- Array brackets fail only after the first of them. -/
theorem nextArray?_fails {depth start : Nat} {base : TypeName Extent} {fault : Fault}
    (hs : InReach scope depth s)
    (hrun : nextArray? (.upTo depth) start base scope s = .error fault t) :
    s.position < t.position := by
  unfold nextArray? at hrun
  rw [Parser.bind_of_ok (show Parser.kind scope s = .ok _ s from rfl)] at hrun
  split at hrun
  case isFalse => cases hrun
  case isTrue hbracket =>
    have hne := Lexemes.ne_eof hbracket nofun
    rw [Parser.bind_of_ok (Parser.advance_run hne)] at hrun
    have haccounts : Accounts (.one scope 0) false (s.position + 1) (arrayRest _ start base)
        (arrayRest _ start base) (Onward s.position) :=
      arrayRest_accounts (hs.accounts.later (Nat.le_succ _))
    have hle := (haccounts.at (ParseState.Regular.invariant.advance hs.regular hne)).2.1
    rwa [hrun] at hle

/-- The brackets of an array type consume nothing only if there are none, and count as consumed even
then. -/
theorem arraySuffixes_completes {depth : Nat} (start : Nat) (base : TypeName Extent)
    (hs : InReach scope depth s) :
    (arraySuffixes (.upTo depth) start base scope s).1.Completes s.position
      (arraySuffixes (.upTo depth) start base scope s).2.position := by
  have haccounts : Rule.Accounts (.one scope 0) true s.position
      (arraySuffixes (.upTo depth) start base) (arraySuffixes (.upTo depth) start base)
      fun _ j => s.position ≤ j :=
    arraySuffixes_accounts (hs.accounts.later (Nat.le_succ _))
  have hle : s.position ≤ (arraySuffixes (.upTo depth) start base scope s).2.position :=
    (haccounts s rfl hs.regular.exact hs.regular.le_size).leads.le
  unfold arraySuffixes Rule.decided at hle ⊢
  cases hrun : Parser.iterate (nextArray? (.upTo depth) start) base scope s with
  | ok v t =>
    rw [hrun] at hle
    exact hle
  | error fault t =>
    obtain ⟨w, u, ⟨hu, hle⟩, hfails⟩ := Parser.iterate_eq_error
      (P := fun _ u => InReach scope depth u ∧ s.position ≤ u.position)
      (fun ⟨hu, hle⟩ hround => by
        obtain ⟨ht, hlt, hsize⟩ := (IsRound.array _ _).inReach hu hround
        exact ⟨⟨ht, by omega⟩, hlt, hsize⟩)
      ⟨hs, Nat.le_refl _⟩ hrun
    exact Nat.lt_of_le_of_lt hle (nextArray?_fails hu hfails)

end Moves

/-! ### Loops end -/

section Ends

variable {scope : Scope} {s t : ParseState} {depth : Nat}

/-- A loop moves on as its rounds do. -/
theorem iterateBody_movesOn {β : Type} {step : β → Parser (Option β)}
    (h : ∀ v, IsRound (.upTo depth) (step v)) :
    Parser.MovesOn scope (InReach scope depth) (Parser.iterateBody step) := by
  intro v s w t hs hrun
  obtain ⟨next, u, hstep, hrest⟩ := Parser.bind_eq_ok hrun
  cases next <;> cases hrest
  exact (h v).inReach hs hstep

/-- So does one that collects. -/
theorem collectBody_movesOn {α : Type} {step : Parser (Option α)}
    (h : IsRound (.upTo depth) step) :
    Parser.MovesOn scope (InReach scope depth) (Parser.collectBody step) := by
  intro vs s w t hs hrun
  obtain ⟨next, u, hstep, hrest⟩ := Parser.bind_eq_ok hrun
  cases next <;> cases hrest
  exact h.inReach hs hstep

/-- Skipping moves on with each token. -/
theorem skipBody_movesOn :
    Parser.MovesOn scope (InReach scope depth) (Parser.skipBody (Inner.upTo depth).statement) := by
  intro brackets s w t hs hrun
  obtain ⟨next, u, hstep, hrest⟩ := Parser.bind_eq_ok hrun
  cases next <;> cases hrest
  exact (IsRound.skipped brackets).inReach hs hstep

/-- So do items with commas between them: one that is followed by a comma has moved past it. -/
theorem separatedBody_movesOn {α : Type} {item : Parser α}
    (h : IsRound (.upTo depth) (itemBeforeComma? item)) :
    Parser.MovesOn scope (InReach scope depth) (Parser.separatedBody item) := by
  intro vs s w t hs hrun
  obtain ⟨v, u, hitem, hrest⟩ := Parser.bind_eq_ok hrun
  obtain ⟨comma, u', hcomma, hrest⟩ := Parser.bind_eq_ok hrest
  cases comma <;> cases hrest
  have hround : itemBeforeComma? item scope s = .ok (some v) t := by
    unfold itemBeforeComma?
    rw [Parser.bind_of_ok hitem, Parser.bind_of_ok hcomma]
    rfl
  exact h.inReach hs hround

end Ends

end Grammar

end SolidityParser
