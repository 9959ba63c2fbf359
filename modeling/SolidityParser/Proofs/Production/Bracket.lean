import SolidityParser.Proofs.Production.Token

/-!
# Brackets in productions

Every production names its brackets in pairs, one properly within another, and no error
(`Part.Phrased.paired`, `Part.Composed.paired`), but for the value of a pragma and the body of an
assembly block. `Kind.enter?` follows the open brackets token by token, and `Kind.Nested` says
without them what it is to be nested properly.
-/

namespace SolidityParser

open SolidityParser.Symbol (option separated series)

/-! ### Open brackets -/

namespace Kind

/-- The brackets to be closed, innermost first, after one more token. There are none after a bracket
that closes what is not open, nor after an error. -/
def enter? (closers : List Kind) (k : Kind) : Option (List Kind) :=
  match k.closer? with
  | some closer => some (closer :: closers)
  | none =>
    if k.isClose then if closers.head? = some k then some closers.tail else none
    else if k = .error then none
    else some closers

/-- The brackets to be closed after tokens in a row. -/
def enterAll? : List Kind → List Kind → Option (List Kind)
  | closers, [] => some closers
  | closers, k :: kinds => (k.enter? closers).bind (enterAll? · kinds)

/-- The brackets to be closed, innermost first, after one more token, which may be an error. There
are none after a bracket that closes what is not open. -/
def pass? (closers : List Kind) (k : Kind) : Option (List Kind) :=
  match k.closer? with
  | some closer => some (closer :: closers)
  | none =>
    if k.isClose then if closers.head? = some k then some closers.tail else none
    else some closers

/-- Is this no bracket, and no error? -/
def isNeutral (k : Kind) : Bool := k.closer?.isNone && !k.isClose && k != .error

/-- A string is neither. -/
theorem isNeutral_of_isString {k : Kind} (h : k.isString = true) : k.isNeutral = true := by
  cases k <;> first | rfl | cases h

/-- An attribute of a function type is neither. -/
theorem isNeutral_of_isTypeAttribute {k : Kind} (h : k.isTypeAttribute = true) :
    k.isNeutral = true := by
  cases k <;> first | rfl | cases h

/-- The brackets among these tokens are matched, and properly nested. -/
inductive Nested : List Kind → Prop
  | nil : Nested []
  | other {k : Kind} {kinds : List Kind} (opens : k.closer? = none) (closes : k.isClose = false)
      (rest : Nested kinds) : Nested (k :: kinds)
  | pair {k closer : Kind} {inside kinds : List Kind} (opens : k.closer? = some closer)
      (inner : Nested inside) (rest : Nested kinds) : Nested (k :: inside ++ closer :: kinds)

variable {k : Kind} {closers closers' kinds kinds' rest rest' : List Kind}

/-- A token that is neither leaves the open brackets as they are. -/
theorem enter?_of_isNeutral (h : k.isNeutral = true) : k.enter? closers = some closers := by
  simp only [isNeutral, Bool.and_eq_true, Option.isNone_iff_eq_none, Bool.not_eq_true',
    bne_iff_ne] at h
  obtain ⟨⟨hopen, hclose⟩, herror⟩ := h
  simp [enter?, hopen, hclose, herror]

/-- What is entered is passed with the same brackets open. -/
theorem pass?_of_enter? (h : k.enter? closers = some closers') :
    pass? closers k = some closers' := by
  unfold enter? at h
  unfold pass?
  cases hcloser : k.closer? with
  | some closer =>
    rw [hcloser] at h
    exact h
  | none =>
    rw [hcloser] at h
    dsimp only at h ⊢
    split_ifs at h ⊢ <;> exact h

/-- The same for a row of tokens. -/
theorem foldlM_pass?_of_enterAll? (h : enterAll? closers kinds = some closers') :
    kinds.foldlM pass? closers = some closers' := by
  induction kinds generalizing closers with
  | nil => exact h
  | cons k kinds ih =>
    obtain ⟨next, henter, hrest⟩ := Option.bind_eq_some_iff.mp h
    rw [List.foldlM_cons]
    exact Option.bind_eq_some_iff.mpr ⟨next, pass?_of_enter? henter, ih hrest⟩

/-- A token is passed in one of three ways: it opens a bracket, it closes the innermost one, or it
is no bracket. -/
theorem pass?_eq_some (h : pass? closers k = some closers') :
    (∃ closer, k.closer? = some closer ∧ closers' = closer :: closers) ∨
      closers = k :: closers' ∨
      k.closer? = none ∧ k.isClose = false ∧ closers' = closers := by
  unfold pass? at h
  cases hcloser : k.closer? with
  | some closer =>
    rw [hcloser] at h
    exact .inl ⟨closer, rfl, by simpa using h.symm⟩
  | none =>
    rw [hcloser] at h
    dsimp only at h
    split_ifs at h with hclose hhead
    · obtain ⟨rest, rfl⟩ := List.head?_eq_some_iff.mp hhead
      cases h
      exact .inr (.inl rfl)
    · cases h
      exact .inr (.inr ⟨rfl, by simpa using hclose, rfl⟩)

/-- A bracket that opens awaits the one that closes it. -/
theorem pass?_open {closer : Kind} (h : k.closer? = some closer) :
    pass? closers k = some (closer :: closers) := by
  unfold pass?
  rw [h]

/-- The bracket that closes another closes it. -/
theorem pass?_close {closer : Kind} (h : k.closer? = some closer) :
    pass? (closer :: closers) closer = some closers := by
  unfold closer? at h
  split at h <;> cases h <;> rfl

/-- A token that is no bracket changes nothing. -/
theorem pass?_other (hopen : k.closer? = none) (hclose : k.isClose = false) :
    pass? closers k = some closers := by
  unfold pass?
  rw [hopen]
  exact if_neg (by rw [hclose]; exact Bool.false_ne_true)

/-- One after the other, what is nested properly stays so. -/
theorem Nested.append (h : Nested kinds) (h' : Nested kinds') : Nested (kinds ++ kinds') := by
  induction h with
  | nil => exact h'
  | other opens closes _ ih => exact .other opens closes ih
  | pair opens inner _ _ ih => simpa using Nested.pair opens inner ih

/-- Tokens close brackets one after the other, and between are nested properly. -/
def Closes : List Kind → List Kind → Prop
  | [], kinds => Nested kinds
  | closer :: closers, kinds =>
    ∃ inside rest, kinds = inside ++ closer :: rest ∧ Nested inside ∧ Closes closers rest

/-- So they are with more before them. -/
theorem Closes.prepend (h : Nested kinds) (h' : Closes closers kinds') :
    Closes closers (kinds ++ kinds') := by
  cases closers with
  | nil => exact h.append h'
  | cons closer closers =>
    obtain ⟨inside, rest, rfl, hinside, hrest⟩ := h'
    exact ⟨kinds ++ inside, rest, by simp, h.append hinside, hrest⟩

/-- If each bracket is passed and none is left open, those that were open are closed. -/
theorem closes_of_foldlM_pass? (h : kinds.foldlM pass? closers = some []) :
    Closes closers kinds := by
  induction kinds generalizing closers with
  | nil =>
    cases h
    exact .nil
  | cons k kinds ih =>
    rw [List.foldlM_cons] at h
    obtain ⟨next, hpass, hrest⟩ := Option.bind_eq_some_iff.mp h
    have hnext := ih hrest
    rcases pass?_eq_some hpass with ⟨closer, hopen, rfl⟩ | rfl | ⟨hopen, hclose, rfl⟩
    · obtain ⟨inside, rest, rfl, hinside, hafter⟩ := hnext
      simpa using Closes.prepend (.pair hopen hinside .nil) hafter
    · exact ⟨[], kinds, rfl, .nil, hnext⟩
    · exact Closes.prepend (.other hopen hclose .nil) hnext

/-- What is nested properly leaves the open brackets as they are. -/
theorem Nested.foldlM_pass? (h : Nested kinds) (closers : List Kind) :
    kinds.foldlM pass? closers = some closers := by
  induction h generalizing closers with
  | nil => rfl
  | other opens closes _ ih =>
    rw [List.foldlM_cons, pass?_other opens closes]
    exact ih closers
  | @pair k closer inside rest opens _ _ ih ih' =>
    rw [List.foldlM_append, List.foldlM_cons, pass?_open opens]
    show (inside.foldlM pass? (closer :: closers)).bind _ = _
    rw [ih (closer :: closers), Option.bind_some, List.foldlM_cons, pass?_close opens]
    exact ih' closers

/-- Tokens are nested properly if and only if they can be passed and leave no bracket open. -/
theorem nested_iff_foldlM_pass? : Nested kinds ↔ kinds.foldlM pass? [] = some [] :=
  ⟨fun h => h.foldlM_pass? [], closes_of_foldlM_pass?⟩

/-- No bracket is closed where none is open. -/
theorem pass?_nil (h : k.isClose = true) : pass? [] k = none := by
  cases k <;> first | rfl | cases h

/-- What is nested properly closes nothing that was open before. -/
theorem Nested.not_append_close (h : Nested kinds) (hclose : k.isClose = true) :
    ¬ Nested (kinds ++ k :: rest) := by
  intro hall
  have hpass := hall.foldlM_pass? []
  rw [List.foldlM_append, h.foldlM_pass? []] at hpass
  change (k :: rest).foldlM pass? [] = some [] at hpass
  rw [List.foldlM_cons, pass?_nil hclose] at hpass
  cases hpass

/-- A group ends at the first bracket that closes it. -/
theorem Nested.eq_of_close (h : Nested kinds) (h' : Nested kinds') (hclose : k.isClose = true)
    (heq : kinds ++ k :: rest = kinds' ++ k :: rest') : kinds = kinds' := by
  rcases List.append_eq_append_iff.mp heq with ⟨more, rfl, hmore⟩ | ⟨more, rfl, hmore⟩
  · cases more with
    | nil => exact (List.append_nil _).symm
    | cons first more =>
      obtain ⟨rfl, -⟩ := List.cons.inj hmore
      exact absurd h' (h.not_append_close hclose)
  · cases more with
    | nil => exact List.append_nil _
    | cons first more =>
      obtain ⟨rfl, -⟩ := List.cons.inj hmore
      exact absurd h (h'.not_append_close hclose)

/-- If none was open before, all are nested properly. -/
theorem nested_of_enterAll? (h : enterAll? [] kinds = some []) : Nested kinds :=
  nested_iff_foldlM_pass?.mpr (foldlM_pass?_of_enterAll? h)

end Kind

/-! ### Symbols -/

namespace Symbol

/-- The brackets to be closed after what symbols name. -/
def closers? : List Kind → List Symbol → Option (List Kind)
  | closers, [] => some closers
  | closers, symbol :: symbols =>
    match symbol.kind? with
    | some k => (k.enter? closers).bind (closers? · symbols)
    | none => closers? closers symbols

/-- Symbols name brackets in pairs, and no error. -/
def Paired (symbols : List Symbol) : Prop := ∀ closers, closers? closers symbols = some closers

section Paired

variable {closers closers' : List Kind} {left right symbols : List Symbol}
  {items : List (List Symbol)}

@[simp] theorem closers?_nil : closers? closers [] = some closers := rfl

@[simp] theorem closers?_token {k : Kind} :
    closers? closers (.token k :: right) = (k.enter? closers).bind (closers? · right) := rfl

@[simp] theorem closers?_word {k : Kind} {text : String} :
    closers? closers (.word k text :: right) = (k.enter? closers).bind (closers? · right) := rfl

@[simp] theorem closers?_part {place : Extent} :
    closers? closers (.part place :: right) = closers? closers right := rfl

@[simp] theorem closers?_path {place : Extent} {first : String} {more : List String} :
    closers? closers (.path place first more :: right) = closers? closers right := rfl

@[simp] theorem closers?_no {tests : Lookahead} :
    closers? closers (.no tests :: right) = closers? closers right := rfl

@[simp] theorem closers?_here {index : Nat} :
    closers? closers (.here index :: right) = closers? closers right := rfl

@[simp] theorem closers?_append :
    closers? closers (left ++ right) = (closers? closers left).bind (closers? · right) := by
  induction left generalizing closers with
  | nil => rfl
  | cons symbol left ih =>
    rw [List.cons_append, closers?, closers?]
    cases symbol.kind? with
    | none => exact ih
    | some k =>
      dsimp only
      cases k.enter? closers with
      | none => rfl
      | some next => exact ih

@[simp] theorem enter?_lparen : Kind.enter? closers .lparen = some (.rparen :: closers) := rfl

@[simp] theorem enter?_lbracket : Kind.enter? closers .lbracket = some (.rbracket :: closers) := rfl

@[simp] theorem enter?_lbrace : Kind.enter? closers .lbrace = some (.rbrace :: closers) := rfl

@[simp] theorem enter?_rparen : Kind.enter? (.rparen :: closers) .rparen = some closers := rfl

@[simp] theorem enter?_rbracket : Kind.enter? (.rbracket :: closers) .rbracket = some closers := rfl

@[simp] theorem enter?_rbrace : Kind.enter? (.rbrace :: closers) .rbrace = some closers := rfl

/-- What is paired changes nothing. -/
theorem Paired.closers? (h : Paired symbols) : Symbol.closers? closers symbols = some closers :=
  h closers

/-- Two rows of symbols that each pair their brackets do so together. -/
theorem Paired.append (hl : Paired left) (hr : Paired right) : Paired (left ++ right) := by
  intro closers
  rw [closers?_append, hl.closers?]
  exact hr closers

/-- So do rows of symbols for values, one after the other. -/
theorem paired_flatMap {α : Type} {values : List α} {f : α → List Symbol}
    (h : ∀ v ∈ values, Paired (f v)) : Paired (values.flatMap f) := by
  induction values with
  | nil => exact fun _ => rfl
  | cons v values ih =>
    obtain ⟨hv, hvalues⟩ := List.forall_mem_cons.mp h
    exact hv.append (ih hvalues)

/-- So do symbols of which each pairs its brackets by itself. -/
theorem paired_map {α : Type} {values : List α} {f : α → Symbol}
    (h : ∀ v ∈ values, Paired [f v]) : Paired (values.map f) := by
  rw [← List.flatMap_pure_eq_map]
  exact paired_flatMap h

/-- A token that is no bracket pairs none. -/
theorem paired_token {k : Kind} (h : k.isNeutral = true) : Paired [.token k] := by
  intro closers
  rw [closers?_token, Kind.enter?_of_isNeutral h]
  rfl

/-- Nor does such a word. -/
theorem paired_word {k : Kind} {text : String} (h : k.isNeutral = true) : Paired [.word k text] :=
  paired_token h

@[simp] theorem paired_part {place : Extent} : Paired [.part place] := fun _ => rfl

@[simp] theorem paired_path {place : Extent} {first : String} {more : List String} :
    Paired [.path place first more] := fun _ => rfl

@[simp] theorem paired_option {place : Option Extent} : Paired (option place) := by
  cases place <;> exact fun _ => rfl

/-- A comma between items pairs none either. -/
theorem paired_separated (h : ∀ item ∈ items, Paired item) : Paired (separated items) := by
  induction items with
  | nil => exact fun _ => rfl
  | cons item items ih =>
    obtain ⟨hitem, hitems⟩ := List.forall_mem_cons.mp h
    cases items with
    | nil => exact hitem
    | cons other items => exact hitem.append ((paired_token rfl).append (ih hitems))

/-- Items in a row are followed by the bracket that closes them. -/
theorem closers?_series {close : Kind} (h : ∀ item ∈ items, Paired item) :
    closers? closers (series close items) = close.enter? closers := by
  rw [series, closers?_append, (paired_separated h).closers?, Option.bind_some, closers?_token]
  cases close.enter? closers <;> rfl

/-- Items between parentheses, as what is declared or called has them. -/
theorem paired_parens (h : ∀ item ∈ items, Paired item) :
    Paired (.token .lparen :: series .rparen items) := by
  intro closers
  simp [closers?_series h]

/-- No error is named where brackets are entered. -/
theorem not_names_error (h : closers? closers symbols = some closers') :
    ¬ Names .error symbols := by
  induction symbols generalizing closers with
  | nil => exact names_nil
  | cons symbol symbols ih =>
    rw [closers?] at h
    rintro ⟨s, hs, hkind⟩
    cases hk : symbol.kind? with
    | none =>
      rw [hk] at h
      rcases List.mem_cons.mp hs with rfl | hs
      · rw [hk] at hkind
        cases hkind
      · exact ih h ⟨s, hs, hkind⟩
    | some k =>
      rw [hk] at h
      obtain ⟨next, henter, hrest⟩ := Option.bind_eq_some_iff.mp h
      rcases List.mem_cons.mp hs with rfl | hs
      · rw [hk] at hkind
        cases hkind
        cases henter
      · exact ih hrest ⟨s, hs, hkind⟩

end Paired

/-! ### Symbols of declarations

All of these pair their brackets: they hold none, or a list in parentheses, brackets or braces.
-/

section Declarations

@[simp] theorem paired_name {name : Option String} : Paired (Symbol.name name) :=
  paired_map fun _ _ => paired_word rfl

@[simp] theorem paired_location {location : Option StorageLocation} :
    Paired (Symbol.location location) :=
  paired_map fun location _ => paired_token (by cases location <;> rfl)

@[simp] theorem paired_names {first : String} {more : List String} : Paired (names first more) :=
  (paired_word (k := .ident) rfl).append <| paired_flatMap fun _ _ =>
    (paired_token rfl).append (paired_word rfl)

@[simp] theorem paired_parameters {parameters : List (Parameter Extent)} :
    Paired (Symbol.parameters parameters) :=
  paired_parens (by simp)

@[simp] theorem paired_returns {parameters : Option (List (Parameter Extent))} :
    Paired (Symbol.returns parameters) := by
  cases parameters with
  | none => exact fun _ => rfl
  | some parameters => exact (paired_token rfl).append paired_parameters

@[simp] theorem paired_given {parameters : Option (List (Parameter Extent))} :
    Paired (Symbol.given parameters) := by
  cases parameters with
  | none => exact fun _ => rfl
  | some parameters => exact paired_parameters

@[simp] theorem paired_arguments {values : Option (List (Expression Extent))} :
    Paired (Symbol.arguments values) := by
  cases values with
  | none => exact fun _ => rfl
  | some values => exact paired_parens (by simp)

@[simp] theorem paired_initialValue {value : Option (Expression Extent)} :
    Paired (Symbol.initialValue value) :=
  paired_flatMap fun _ _ => (paired_token rfl).append paired_part

@[simp] theorem paired_newName {name : Option String} : Paired (Symbol.newName name) :=
  paired_flatMap fun _ _ => (paired_token rfl).append (paired_word rfl)

@[simp] theorem paired_attachment {target : Option (TypeName Extent)} {isGlobal : Bool} :
    Paired (Symbol.attachment target isGlobal) := by
  cases target <;> cases isGlobal <;> exact fun _ => rfl

@[simp] theorem paired_flags {flags : Option (List String)} : Paired (Symbol.flags flags) := by
  cases flags with
  | none => exact fun _ => rfl
  | some flags => exact paired_parens (by simpa using fun _ _ => paired_word rfl)

@[simp] theorem paired_orElse {place : Option Extent} : Paired (Symbol.orElse place) := by
  cases place <;> exact fun _ => rfl

@[simp] theorem paired_initial {place : Option Extent} : Paired (Symbol.initial place) := by
  cases place <;> exact fun _ => rfl

@[simp] theorem paired_body {place : Option Extent} : Paired (Symbol.body place) := by
  cases place <;> exact fun _ => rfl

@[simp] theorem paired_row {places : List Extent} : Paired (Symbol.row places) :=
  paired_map fun _ _ => paired_part

@[simp] theorem paired_attributes {items : List Attribute} : Paired (Symbol.attributes items) := by
  refine paired_flatMap fun item _ => ?_
  cases item with
  | visibility v | mutability v => exact paired_token (by cases v <;> rfl)
  | overrides bases =>
    refine (paired_token (k := .kwOverride) rfl).append ?_
    cases bases with
    | none => exact fun _ => rfl
    | some bases => exact paired_parens (by simp [WrittenPath.symbol])
  | modifier value => exact paired_part
  | _ => exact paired_token rfl

@[simp] theorem paired_signature {parameters : List (Parameter Extent)} {items : List Attribute}
    {returns : Option (List (Parameter Extent))} :
    Paired (Symbol.signature parameters items returns) :=
  (paired_parameters.append paired_attributes).append paired_returns

@[simp] theorem paired_bases {values : List (Invocation Extent)} : Paired (Symbol.bases values) := by
  unfold Symbol.bases
  split
  · exact fun _ => rfl
  · exact (paired_token (k := .kwIs) rfl).append (paired_separated (by simp))

end Declarations

end Symbol

/-! ### Productions -/

namespace Part

variable {part : Part .parsed} {symbols : List Symbol}

/-- A production for a phrase names its brackets in pairs, but for the value of a pragma. -/
theorem Phrased.paired (h : part.Phrased symbols) (hpart : ∀ d, part ≠ .unit (.pragma d)) :
    Symbol.Paired symbols := by
  induction h with
  | unit hmember _ ih => exact ih nofun
  | pragma => exact absurd rfl (hpart _)
  | name hname =>
    refine Symbol.paired_word ?_
    rcases hname with hname | hname | hname <;> rw [hname] <;> rfl
  | number hkind =>
    exact (Symbol.paired_word (by rcases hkind with rfl | rfl <;> rfl)).append fun _ => rfl
  | numberWithUnit hkind =>
    exact (Symbol.paired_word (by rcases hkind with rfl | rfl <;> rfl)).append
      (Symbol.paired_word (k := .ident) rfl)
  | string hstrings =>
    exact (Symbol.paired_map fun lexeme hlexeme =>
      Symbol.paired_word (Kind.isNeutral_of_isString (hstrings lexeme hlexeme))).append fun _ => rfl
  | @boolean _ value => cases value <;> exact Symbol.paired_token rfl
  | @before _ operator | @after _ operator =>
    have hoperator : operator.kind.isNeutral = true := by cases operator <;> rfl
    intro closers
    simp [Kind.enter?_of_isNeutral hoperator]
  | @binary _ operator | @assignment _ operator =>
    have hoperator : operator.kind.isNeutral = true := by cases operator <;> rfl
    intro closers
    simp [Kind.enter?_of_isNeutral hoperator]
  | @elementary _ name =>
    by_cases hname : name = "address" <;> intro closers <;>
      simp [hname, Kind.enter?, Kind.closer?, Kind.isClose]
  | @userDefined _ first more =>
    exact Symbol.paired_names.append fun _ => rfl
  | @functionType _ _ _ kinds attributes =>
    have htokens : Symbol.Paired (kinds.map .token) := Symbol.paired_map fun k hk =>
      Symbol.paired_token (Kind.isNeutral_of_isTypeAttribute (attributes k hk))
    intro closers
    simp [Symbol.Paired.closers?, htokens, Kind.enter?, Kind.closer?, Kind.isClose]
  | @parameter _ _ _ _ indexed =>
    cases indexed <;> intro closers <;>
      simp [Symbol.Paired.closers?, Kind.enter?, Kind.closer?, Kind.isClose]
  | @declaration _ declared initial =>
    have hinitial : Symbol.Paired (Symbol.initialValue initial) := Symbol.paired_initialValue
    exact (Symbol.paired_part.append hinitial).append (Symbol.paired_token rfl)
  | @declarationList _ slots =>
    have hslots : Symbol.Paired (separated (slots.map fun v => option (v.map (·.place)))) :=
      Symbol.paired_separated (by simp)
    intro closers
    simp [hslots.closers?, Kind.enter?, Kind.closer?, Kind.isClose]
  | @event _ _ _ isAnonymous =>
    cases isAnonymous <;> intro closers <;>
      simp [Symbol.Paired.closers?, Kind.enter?, Kind.closer?, Kind.isClose]
  | @struct _ _ members =>
    have hmembers : Symbol.Paired (members.flatMap fun m => [.part m.place, .token .semicolon]) :=
      Symbol.paired_flatMap fun _ _ => Symbol.paired_part.append (Symbol.paired_token rfl)
    intro closers
    simp [hmembers.closers?, Kind.enter?, Kind.closer?, Kind.isClose]
  | _ =>
    intro closers
    simp [Symbol.Paired.closers?, Symbol.closers?_series, Kind.enter?, Kind.closer?, Kind.isClose,
      Symbol.origin, WrittenPath.symbol]

/-- A production for a statement or a declaration names its brackets in pairs, but for the body of
an assembly block. -/
theorem Composed.paired (h : part.Composed symbols)
    (hpart : ∀ place language flags body, part ≠ .statement (.assembly place language flags body)) :
    Symbol.Paired symbols := by
  induction h with
  | unit hmember _ ih => exact ih nofun
  | assembly => exact (hpart _ _ _ _ rfl).elim
  | @fallback _ word _ _ _ _ hword =>
    have hfirst : Symbol.Paired [word] := by
      rcases hword with rfl | rfl <;> exact fun _ => rfl
    exact hfirst.append (Symbol.paired_signature.append Symbol.paired_body)
  | @contract _ _ kind isAbstract =>
    cases isAbstract <;> cases kind <;> intro closers <;>
      simp [Symbol.Paired.closers?, Kind.enter?, Kind.closer?, Kind.isClose, ContractKind.kind]
  | _ =>
    intro closers
    simp [Symbol.Paired.closers?, Kind.enter?, Kind.closer?, Kind.isClose]

end Part

end SolidityParser
