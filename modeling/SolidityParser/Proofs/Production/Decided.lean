import SolidityParser.Proofs.Production.First

/-!
# First readings in thinned inputs

What is the first way to read a statement or a member of a contract is so in an input that has the
same words but for those of statements that could not be read: a declaration of variables ends with
its only semicolon, so none comes up that was not there (`IsPhrase.back_of_semicolon`); nor does one
run past the brace of a block, which is no list of options there (`DeclaresState.back_of_lbrace`).
-/

namespace SolidityParser

open SolidityParser.Symbol (option separated series parts)

namespace Repairs

/-- What a tree may still show when statements that could not be read are taken out. -/
def pruned : Repairs → Repairs
  | .all => .cuts
  | repairs => repairs

/-- No statement that could not be read is left then. -/
theorem pruned_ne_all (repairs : Repairs) : repairs.pruned ≠ .all := by
  cases repairs <;> decide

@[simp] theorem cutsBlocks_pruned (repairs : Repairs) :
    repairs.pruned.cutsBlocks = repairs.cutsBlocks := by
  cases repairs <;> rfl

end Repairs

/-- A variable ends with a token of its own. -/
theorem Part.IsVariable.isClosed {F : Form} {part : Part F} (h : part.IsVariable) :
    part.IsClosed := by
  cases part <;> trivial

namespace Lexemes

variable {lexemes other : Lexemes} {f : Nat → Nat} {repairs : Repairs} {i j k m n : Nat}
  {part child : Part .parsed} {field : List (Part .parsed)} {symbols : List Symbol}

/-! ### Variables that were declared before -/

/-- A declaration that stands in another input, of words that are kept there, stood in the first. -/
theorem IsPhrase.back (h : other.IsPhrase (f i) part m) (hpart : part.IsClosed)
    (hkept : ∀ n, i ≤ n → n < j → lexemes.Keeps other f n) (hij : i ≤ j) (hm : m ≤ f j) :
    ∃ g : Nat → Nat, lexemes.IsPhrase i (part.relocate (.move g)) (g m) := by
  have hback : lexemes.IsPhrase (i + (f i - f i))
      (part.relocate (.move fun m => i + (m - f i))) (i + (m - f i)) :=
    h.carry_of_closed hpart fun n hn hlt => Keeps.back hkept hn (by omega) hij
  exact ⟨fun m => i + (m - f i), by simpa using hback⟩

/-- A variable ends with its only semicolon, so it ends with one that is kept if not before. -/
theorem IsPhrase.le_of_semicolon (h : other.IsPhrase i part m) (hpart : part.IsVariable)
    (hi : i ≤ n) (hsemi : other.kindAt n = .semicolon) : m ≤ n + 1 := by
  by_contra hlt
  exact h.kindAt_ne_semicolon hpart hi (by omega) hsemi

/-- Up to a semicolon that is kept with the words before it, no variable comes up. -/
theorem IsPhrase.back_of_semicolon (h : other.IsPhrase (f i) part m) (hpart : part.IsVariable)
    (hkept : ∀ n, i ≤ n → n < j + 1 → lexemes.Keeps other f n) (hij : i ≤ j)
    (hsemi : lexemes.kindAt j = .semicolon) :
    ∃ g : Nat → Nat, lexemes.IsPhrase i (part.relocate (.move g)) (g m) := by
  have hlast := hkept j hij (by omega)
  have hle : f i ≤ f j := by
    have := Keeps.add hkept (k := j - i) (by omega)
    rw [show i + (j - i) = j by omega] at this
    omega
  have hm := h.le_of_semicolon hpart hle (hlast.kindAt.trans hsemi)
  exact h.back hpart.isClosed hkept (by omega) (by rw [hlast.next]; exact hm)

/-- So no declaration comes up among the statements before a semicolon. -/
theorem Declares.back (h : other.Declares (f i))
    (hkept : ∀ n, i ≤ n → n < j + 1 → lexemes.Keeps other f n) (hij : i ≤ j)
    (hsemi : lexemes.kindAt j = .semicolon) : lexemes.Declares i := by
  obtain ⟨place, slots, initial, m, hphrase⟩ := h
  obtain ⟨g, hback⟩ := hphrase.back_of_semicolon trivial hkept hij hsemi
  exact ⟨_, _, _, _, hback⟩

/-- So no state variable comes up before a semicolon. -/
theorem DeclaresState.back_of_semicolon (h : other.DeclaresState (f i))
    (hkept : ∀ n, i ≤ n → n < j + 1 → lexemes.Keeps other f n) (hij : i ≤ j)
    (hsemi : lexemes.kindAt j = .semicolon) : lexemes.DeclaresState i := by
  obtain ⟨declaration, m, hphrase⟩ := h
  obtain ⟨g, hback⟩ := hphrase.back_of_semicolon trivial hkept hij hsemi
  exact ⟨_, _, hback⟩

/-- Nor does one come up before a block that is no list of options. -/
theorem DeclaresState.back_of_lbrace (h : other.DeclaresState (f i))
    (hkept : ∀ n, i ≤ n → n < j + 1 → lexemes.Keeps other f n) (hij : i < j)
    (hbrace : lexemes.kindAt j = .lbrace) (hparen : lexemes.kindAt (j - 1) ≠ .lparen)
    (hoptions : ¬ other.Ahead (f j) .options) : lexemes.DeclaresState i := by
  obtain ⟨declaration, m, hphrase⟩ := h
  have hlast := hkept j (by omega) (by omega)
  have hbefore := hkept (j - 1) (by omega) (by omega)
  have hnext : f j = f (j - 1) + 1 := by
    have := hbefore.next
    rwa [show j - 1 + 1 = j by omega] at this
  have hle : f i ≤ f j := by
    have := Keeps.add hkept (k := j - i) (by omega)
    rw [show i + (j - i) = j by omega] at this
    omega
  have hm : m ≤ f j := by
    by_contra hlt
    rcases hphrase.callsAt_of_lbrace trivial hle (by omega) (hlast.kindAt.trans hbrace) with
      ⟨-, hcall⟩ | hcall
    · rw [hnext, Nat.add_sub_cancel, hbefore.kindAt] at hcall
      exact hparen hcall
    · exact hoptions hcall
  obtain ⟨g, hback⟩ := hphrase.back trivial (fun n hn hlt => hkept n hn (by omega))
    (Nat.le_of_lt hij) hm
  exact ⟨_, _, hback⟩

/-! ### Statements and members that are chosen -/

/-- Of a part without statements and declarations in it, all words are kept. -/
theorem Thins.kept_of_open (h : lexemes.Thins other f part) (hpart : ¬ part.IsIncomplete)
    (hopen : ∀ field ∈ part.fields, ∀ child ∈ field, child.IsOpen) :
    ∀ n, part.place.first ≤ n → n < part.place.next → lexemes.Keeps other f n := by
  intro n hn hlt
  refine h.kept n hn hlt (Part.all_iff.mpr ⟨fun hincomplete => absurd hincomplete hpart, ?_⟩)
  exact fun field hfield child hchild => (hopen field hfield child hchild).isPhrasal.spares

/-- An expression that no declaration could be read for, as a statement, is none in another
input. -/
theorem Preferred.thin {s : Statement .parsed} (h : lexemes.Preferred s)
    (hs : (Part.statement s).All (lexemes.Supports repairs))
    (hthins : lexemes.Thins other f (.statement s)) :
    other.Preferred (s.prune.relocate (.move f)) := by
  cases s with
  | expression place value =>
    obtain ⟨symbols, hcomposed, -, hspells⟩ := hs.here.composed_of id id id
    cases hcomposed
    obtain ⟨⟨hfirst, hcovers⟩, ⟨-, hsemi⟩, hnext⟩ := hspells
    have hlt : value.place.first < value.place.next := hcovers.nonempty
    have hkept := hthins.kept_of_open id (by simp [Part.fields, Part.statementFields, Part.IsOpen])
    change value.place.first = place.first at hfirst
    change value.place.next + 1 = place.next at hnext
    refine fun hdeclares => h (hdeclares.back (j := value.place.next) (fun n hn hlt => ?_) ?_ hsemi)
    · exact hkept n hn (show n < place.next by omega)
    · omega
  | _ => trivial

/-- A word that begins no placeholder and no error that is raised does so in no other input, if it
is kept with the one after it. -/
theorem NoWord.thin (h : lexemes.NoWord i) (hfirst : lexemes.Keeps other f i)
    (hsecond : lexemes.Keeps other f (i + 1)) : other.NoWord (f i) := by
  simpa only [NoWord, isWordAt, ← hfirst.next, hfirst.kindAt, hfirst.textAt, hsecond.kindAt]
    using h

/-- A declaration of variables has at least two words. -/
theorem lt_of_declaration {place : Extent} {slots : List (Option (VariableDeclaration Extent))}
    {initial : Option (Expression Extent)}
    (h : lexemes.Holds (.statement (.declaration place slots initial))) :
    place.first + 1 < place.next := by
  obtain ⟨-, symbols, hphrased, hspells⟩ := h
  change lexemes.Spells place.first symbols place.next at hspells
  cases hphrased with
  | @declaration _ declared =>
    obtain ⟨⟨hfirst, hcovers⟩, hrest⟩ := hspells
    have hlt := hcovers.nonempty
    have hlt' := (hrest.covers ⟨.token .semicolon, by simp, rfl⟩).nonempty
    dsimp only at hlt'
    omega
  | declarationList =>
    have hlt := (hspells.2.covers ⟨.token .semicolon, by simp, rfl⟩).nonempty
    exact hlt

/-- A statement that is the first way to read what it is written as is so in another input. -/
theorem Chosen.thin {s : Statement .parsed} (h : lexemes.Chosen s)
    (hs : (Part.statement s).All (lexemes.Supports repairs))
    (hthins : lexemes.Thins other f (.statement s)) :
    other.Chosen (s.prune.relocate (.move f)) := by
  refine ⟨h.1.thin hs hthins, ?_⟩
  have hword := h.2
  cases s with
  | expression place value =>
    obtain ⟨symbols, hcomposed, -, hspells⟩ := hs.here.composed_of id id id
    cases hcomposed
    obtain ⟨⟨hfirst, hcovers⟩, -, hnext⟩ := hspells
    have hlt : value.place.first < value.place.next := hcovers.nonempty
    change value.place.first = place.first at hfirst
    change value.place.next + 1 = place.next at hnext
    have hkept := hthins.kept_of_open id (by simp [Part.fields, Part.statementFields, Part.IsOpen])
    exact hword.thin (hkept _ (Nat.le_refl _) (show place.first < place.next by omega))
      (hkept _ (Nat.le_succ _) (show place.first + 1 < place.next by omega))
  | declaration place slots initial =>
    have hlt := lt_of_declaration (hs.here.holds trivial)
    have hkept := hthins.kept_of_isPhrasal trivial
    exact hword.thin (hkept _ (Nat.le_refl _) (show place.first < place.next by omega))
      (hkept _ (Nat.le_succ _) (show place.first + 1 < place.next by omega))
  | revert place error =>
    obtain ⟨symbols, hcomposed, -, hspells⟩ := hs.here.composed_of id id id
    cases hcomposed
    obtain ⟨-, ⟨hfirst, hcovers⟩, -, hnext⟩ := hspells
    have hlt : error.place.first < error.place.next := hcovers.nonempty
    change error.place.first = place.first + 1 at hfirst
    change error.place.next + 1 = place.next at hnext
    have hkept := hthins.kept_of_open id (by simp [Part.fields, Part.statementFields, Part.IsOpen])
    have hhead : lexemes.Keeps other f place.first :=
      hkept _ (Nat.le_refl _) (show place.first < place.next by omega)
    have hsecond : lexemes.Keeps other f (place.first + 1) :=
      hkept _ (Nat.le_succ _) (show place.first + 1 < place.next by omega)
    change other.kindAt (f place.first + 1) = .ident
    rw [← hhead.next, hsecond.kindAt]
    exact hword
  | _ => trivial

/-- The attributes of a function end with no parenthesis that opens. -/
theorem kindAt_before_body {parameters : List (Parameter Extent)} {items : List Attribute}
    {returns : Option (List (Parameter Extent))}
    (h : lexemes.Spells i (Symbol.signature parameters items returns) j)
    (hitems : ∀ v, .modifier v ∈ items → (Part.invocation v : Part .parsed).All lexemes.Holds) :
    lexemes.kindAt (j - 1) ≠ .lparen := by
  -- what ends with a token ends with that one
  have last {i j : Nat} (front : List Symbol) (symbol : Symbol) {k : Kind}
      (hsymbol : symbol.kind? = some k) (h : lexemes.Spells i (front ++ [symbol]) j) :
      lexemes.kindAt (j - 1) = k := by
    obtain ⟨l, -, hspells⟩ := spells_append.mp h
    cases symbol with
    | token kind =>
      obtain ⟨⟨-, hk⟩, rfl⟩ := hspells
      exact hk.trans (Option.some.inj hsymbol)
    | word kind text =>
      obtain ⟨⟨-, hk, -⟩, rfl⟩ := hspells
      exact hk.trans (Option.some.inj hsymbol)
    | _ => cases hsymbol
  have parameters_ends {i j : Nat} {parameters : List (Parameter Extent)}
      (h : lexemes.Spells i (Symbol.parameters parameters) j) : lexemes.kindAt (j - 1) = .rparen :=
    last (.token .lparen :: separated (parameters.map fun p => [.part p.place])) _ rfl h
  obtain ⟨l, hfront, hreturns⟩ := spells_append.mp h
  obtain ⟨k, hparameters, hattributes⟩ := spells_append.mp hfront
  cases returns with
  | some returned =>
    rw [parameters_ends hreturns.2]
    decide
  | none =>
    obtain rfl : l = j := hreturns.2
    obtain rfl | ⟨others, item, rfl⟩ := List.eq_nil_or_concat items
    · obtain rfl : k = l := hattributes
      rw [parameters_ends hparameters]
      decide
    simp only [List.concat_eq_append, Symbol.attributes, List.flatMap_append,
      List.flatMap_singleton] at hattributes
    obtain ⟨m, -, hitem⟩ := spells_append.mp hattributes
    cases item with
    | visibility value | mutability value =>
      rw [last [] _ rfl hitem]
      cases value <;> decide
    | isVirtual | isConstant | isImmutable =>
      rw [last [] _ rfl hitem]
      decide
    | overrides bases =>
      cases bases with
      | none =>
        rw [last [] _ rfl hitem]
        decide
      | some bases =>
        rw [last (.token .kwOverride :: .token .lparen ::
          separated (bases.map fun base => [base.symbol])) _ rfl hitem]
        decide
    | modifier v =>
      obtain ⟨-, rfl⟩ := hitem
      obtain ⟨-, symbols, hphrased, hspells⟩ := (hitems v (by simp)).here
      cases hphrased with
      | @invocation place first more arguments =>
        change lexemes.Spells place.first _ place.next at hspells
        have hlast : lexemes.kindAt (place.next - 1) = .rparen ∨
            lexemes.kindAt (place.next - 1) = .ident := by
          cases arguments with
          | some values =>
            have hspelled : lexemes.Spells place.first ((Symbol.names first more ++
                .token .lparen :: separated (values.map fun e => [.part e.place])) ++
                  [.token .rparen]) place.next := by
              simpa [Symbol.arguments, series] using hspells
            exact .inl (last _ _ rfl hspelled)
          | none =>
            refine .inr ?_
            obtain rfl | ⟨others, name, rfl⟩ := List.eq_nil_or_concat more
            · exact last [] _ rfl hspells
            · have hspelled : lexemes.Spells place.first ((Symbol.names first others ++
                  [.token .dot]) ++ [.word .ident name]) place.next := by
                simpa [Symbol.arguments, Symbol.names] using hspells
              exact last _ _ rfl hspelled
        change lexemes.kindAt (place.next - 1) ≠ .lparen
        rcases hlast with hk | hk <;> rw [hk] <;> decide

/-- A word that begins no definition of an error does so in no other input, if it is kept with the
one after it. -/
theorem DefinesError.back (h : other.DefinesError (f i)) (hfirst : lexemes.Keeps other f i)
    (hsecond : lexemes.Keeps other f (i + 1)) : lexemes.DefinesError i := by
  simpa only [DefinesError, isWordAt, ← hfirst.next, hfirst.kindAt, hfirst.textAt,
    hsecond.kindAt] using h

/-- A member that is the first way to read what it is written as is so in another input, if there
its body is no list of options. -/
theorem ChosenMember.thin {m : ContractPart .parsed} (h : lexemes.ChosenMember m)
    (hs : (Part.member m).All (lexemes.Supports repairs))
    (hthins : lexemes.Thins other f (.member m))
    (hoptions : ∀ field ∈ (Part.member m).fields, ∀ b, .block b ∈ field →
      ¬ other.Ahead (f b.place.first) .options) :
    other.ChosenMember (m.prune.relocate (.move f)) := by
  cases m with
  | stateVariable declaration =>
    obtain ⟨-, symbols, hphrased, hspells⟩ := hs.here.holds trivial
    have hlt : declaration.place.first + 1 < declaration.place.next := by
      cases hphrased
      obtain ⟨⟨hfirst, hcovers⟩, hrest⟩ := hspells
      have hnonempty := hcovers.nonempty
      have hlt := (hrest.covers ⟨.token .semicolon, by simp, rfl⟩).nonempty
      dsimp only [Part.place, ContractPart.place] at hfirst hlt ⊢
      omega
    have hkept := hthins.kept_of_isPhrasal trivial
    exact fun hdefines => h (hdefines.back
      (hkept _ (Nat.le_refl _) (show declaration.place.first < declaration.place.next by omega))
      (hkept _ (Nat.le_succ _) hlt))
  | fallback declaration =>
    obtain ⟨symbols, hcomposed, -, hspells⟩ := hs.here.composed_of id id id
    have hfirst := hthins.kept _ (Nat.le_refl _) hs.here.covers.nonempty (spares_first hs id)
    intro hkind hdeclares
    refine h (hfirst.kindAt.symm.trans hkind) ?_
    cases hcomposed with
    | @fallback place word parameters returns items body hword hparameters hitems =>
      change lexemes.Spells place.first (word :: Symbol.signature parameters items returns ++ _)
        place.next at hspells
      obtain ⟨k, hfront, hbody⟩ := spells_append.mp hspells
      have hsignature : lexemes.Spells (place.first + 1)
          (Symbol.signature parameters items returns) k := by
        rcases hword with rfl | rfl <;> exact hfront.2
      have hle := hsignature.inside.1
      cases body with
      | none =>
        obtain ⟨⟨-, hsemi⟩, hend⟩ := hbody
        have hkept := hthins.kept_of_open id (by
          simp [Part.fields, Part.memberFields, Part.attributeFields, Part.parametersField,
            Part.overridesField, Part.IsOpen])
        have hend : k + 1 = place.next := hend
        exact hdeclares.back_of_semicolon
          (fun n hn hlt => hkept n hn (show n < place.next by omega))
          (show place.first ≤ k by omega) hsemi
      | some body =>
        obtain ⟨⟨hfirst', hcovers⟩, hend⟩ := hbody
        obtain rfl : body.place.first = k := hfirst'
        have hlt : body.place.first < body.place.next := hcovers.nonempty
        have hend : body.place.next = place.next := hend
        have hfield : [Part.block body] ∈ (Part.member (.fallback ⟨place, parameters, returns,
            FunctionAttributes.ofItems items, some body⟩) : Part .parsed).fields := by
          simp [Part.fields, Part.memberFields]
        have hblock := hs.below hfield (List.mem_singleton_self _)
        have hbrace : lexemes.kindAt body.place.first = .lbrace := by
          cases body
          exact hblock.here.block.2.1
        have hkept (n : Nat) (hn : place.first ≤ n) (hle : n < body.place.first + 1) :
            lexemes.Keeps other f n := by
          refine hthins.kept n hn (show n < place.next by omega) (spares_of_boundary hs id id ?_)
          simp [Part.fields, Part.memberFields, Part.attributeFields, Part.parametersField,
            Part.overridesField, Part.IsOpen]
          exact fun hlt => absurd hlt (by simp [Part.place]; omega)
        refine hdeclares.back_of_lbrace hkept (show place.first < body.place.first by omega) hbrace
          ?_ (hoptions _ hfield _ (List.mem_singleton_self _))
        refine kindAt_before_body hsignature fun v hv => ?_
        have hmem : v ∈ (FunctionAttributes.ofItems items).modifiers :=
          FunctionAttributes.mem_modifiers_ofItems.mpr hv
        have hmodifiers : (FunctionAttributes.ofItems items).modifiers.map Part.invocation ∈
            (Part.member (.fallback ⟨place, parameters, returns, FunctionAttributes.ofItems items,
              some body⟩) : Part .parsed).fields := by
          simp [Part.fields, Part.memberFields, Part.attributeFields]
        exact all_holds (hs.below hmodifiers (List.mem_map_of_mem hmem)) trivial
  | _ => trivial

/-! ### What is decided -/

end Lexemes

namespace Part

variable {F G : Form} {part : Part F}

/-- Where any statement may stand, one that is right below a part is found in its fields. -/
theorem exists_of_branch {s : Statement F} (h : s ∈ part.branches) :
    ∃ field ∈ part.fields, .statement s ∈ field := by
  cases part with
  | statement value =>
    cases value <;> simp [branches] at h
    all_goals simp [fields, statementFields]
    all_goals grind
  | _ => simp [branches] at h

/-- What a loop begins with is one of its parts. -/
theorem exists_of_initial {s : Statement F} (h : s ∈ part.initial?) :
    ∃ field ∈ part.fields, .statement s ∈ field := by
  cases part with
  | statement value =>
    cases value <;> simp [initial?] at h
    simp [fields, statementFields, h]
  | _ => simp [initial?] at h

/-- So is each member of a contract. -/
theorem exists_of_member {m : ContractPart F} (h : m ∈ part.members) :
    ∃ field ∈ part.fields, .member m ∈ field := by
  cases part with
  | unit value =>
    cases value <;> simp [members] at h
    simp [fields, unitFields, h]
  | _ => simp [members] at h

/-- The branches of a node are changed with it. -/
theorem branches_prune_relocate (r : Relocation F G) :
    (part.prune.relocate r).branches = part.branches.map fun s => s.prune.relocate r := by
  cases part with
  | statement value => cases value <;> simp [prune, Statement.prune, relocate, Statement.relocate,
      branches, Option.toList_map, Function.comp_def]
  | _ => rfl

/-- So is what a loop begins with. -/
theorem initial_prune_relocate (r : Relocation F G) :
    (part.prune.relocate r).initial? = part.initial?.map fun s => s.prune.relocate r := by
  cases part with
  | statement value => cases value <;> simp [prune, Statement.prune, relocate, Statement.relocate,
      initial?, Function.comp_def]
  | _ => rfl

/-- So are the members of a contract. -/
theorem members_prune_relocate (r : Relocation F G) :
    (part.prune.relocate r).members = part.members.map fun m => m.prune.relocate r := by
  cases part with
  | unit value => cases value <;> simp [prune, SourceUnit.prune, relocate, SourceUnit.relocate,
      Contract.relocate, members]
  | _ => rfl

/-- Besides its branches only a block has statements that are chosen. -/
theorem choices_eq_branches (h : ¬ part.IsBlock) : part.choices = part.branches := by
  cases part <;> first | rfl | exact absurd trivial h

/-- A block stays one. -/
theorem isBlock_prune_relocate (r : Relocation F G) :
    (part.prune.relocate r).IsBlock ↔ part.IsBlock := by
  cases part <;> rfl

end Part

namespace Lexemes

variable {lexemes other : Lexemes} {f : Nat → Nat} {repairs : Repairs} {i j k m n : Nat}
  {part child : Part .parsed} {field : List (Part .parsed)} {symbols : List Symbol}

/-- What is decided of a part is so in another input, if what is below it is there. -/
theorem Decided.thin (h : lexemes.Decided part) (hs : part.All (lexemes.Supports repairs))
    (hpart : ¬ part.IsIncomplete) (hblock : ¬ part.IsBlock) (hthins : lexemes.Thins other f part)
    (hbelow : ∀ field ∈ part.fields, ∀ child ∈ field,
      (child.prune.relocate (.move f)).All (other.Supports repairs.pruned)) :
    other.Decided (part.prune.relocate (.move f)) := by
  have hchoices := Part.choices_eq_branches hblock
  constructor
  case chosen =>
    rw [Part.choices_eq_branches ((Part.isBlock_prune_relocate _).not.mpr hblock),
      Part.branches_prune_relocate, List.forall_mem_map]
    intro s hmem
    obtain ⟨field, hfield, hchild⟩ := Part.exists_of_branch hmem
    exact (h.chosen s (hchoices ▸ hmem)).thin (hs.below hfield hchild)
      (hthins.below hs hpart hfield hchild)
  case complete =>
    rw [Part.branches_prune_relocate, List.forall_mem_map]
    intro s hmem
    have hcomplete := h.complete s hmem
    rwa [Part.isIncomplete_statement, Part.isComplete_relocate, Statement.isComplete_prune,
      ← Part.isIncomplete_statement]
  case initial =>
    rw [Part.initial_prune_relocate]
    intro _ hmem
    obtain ⟨s, hinitial, rfl⟩ := Option.map_eq_some_iff.mp hmem
    obtain ⟨field, hfield, hchild⟩ := Part.exists_of_initial hinitial
    exact (h.initial s hinitial).thin (hs.below hfield hchild) (hthins.below hs hpart hfield hchild)
  case members =>
    rw [Part.members_prune_relocate, List.forall_mem_map]
    intro m hmem
    obtain ⟨field, hfield, hchild⟩ := Part.exists_of_member hmem
    refine (h.members m hmem).thin (hs.below hfield hchild) (hthins.below hs hpart hfield hchild) ?_
    intro field' hfield' b hb
    have hmember := hbelow field hfield _ hchild
    have hfields : field'.map (fun child => child.prune.relocate (.move f)) ∈
        ((Part.member m).prune.relocate (.move f)).fields := by
      rw [Part.fields_relocate, Part.fields_prune id, List.map_map]
      simpa [Function.comp_def] using List.mem_map_of_mem hfield'
    have hmoved := hmember.below hfields (List.mem_map_of_mem hb)
    have hoptions := not_ahead_options (b := b.prune.relocate (.move f)) hmoved repairs.pruned_ne_all
    rwa [Block.place_relocate, Block.place_prune] at hoptions

end Lexemes

end SolidityParser
