import SolidityParser.Proofs.Complete.Statement
import SolidityParser.Proofs.Sound.Member

/-!
# Members of contracts are read

The rule for members reads each that stands in the input and is the first way to read what it is
written as (`Grammar.contractPart_reads_chosen`). All but state variables are told apart by the
first two tokens (`Grammar.Guarded`): where one of them is read, the rules for the others miss.
-/

namespace SolidityParser

open Lexemes (Lays IsSignature)
open SolidityParser.Parser (Reads)

namespace Rule

variable {α : Type} {scope : Scope} {i j : Nat} {v : α} {r : Rule α}

/-- A rule that misses does so where a test comes before it. -/
theorem Misses.of_provided {test : Lexemes → Nat → Bool} (h : r.Misses scope i) :
    (r.provided test).Misses scope i := by
  intro trail
  by_cases ht : test scope.lexemes i = true
  · obtain ⟨expected, position, t, hrun⟩ := h trail
    exact ⟨expected, position, t, by unfold Rule.provided; rw [if_pos ht, hrun]⟩
  · exact Misses.provided (by simpa using ht) trail

/-- A rule that reads does not miss. -/
theorem Reads.not_misses (h : r.Reads scope i v j) : ¬ r.Misses scope i := by
  intro hmisses
  obtain ⟨outcome, trail, hrun, hvalue⟩ := h {}
  obtain ⟨expected, position, t, hrun'⟩ := hmisses {}
  rw [hrun] at hrun'
  cases hrun'
  cases hvalue

end Rule

/-- A modifier that is written is kept. -/
theorem FunctionAttributes.mem_modifiers {items : List Attribute} {v : Invocation Extent}
    (h : .modifier v ∈ items) : v ∈ (FunctionAttributes.ofItems items).modifiers := by
  have grows (items : List Attribute) (kept : FunctionAttributes Extent) :
      kept.modifiers ⊆ (items.foldl FunctionAttributes.set kept).modifiers := by
    induction items generalizing kept with
    | nil => exact fun _ => id
    | cons item items ih =>
      refine List.Subset.trans ?_ (ih (kept.set item))
      cases item <;> first
        | exact List.subset_append_left _ _
        | exact fun _ => id
  obtain ⟨before, after, rfl⟩ := List.append_of_mem h
  unfold ofItems
  rw [List.foldl_append, List.foldl_cons]
  exact grows _ _ (List.mem_append_right _ (List.mem_singleton_self v))

namespace Lexemes

variable {lexemes : Lexemes} {i j : Nat}

/-- What a signature names stands in the input if it stands there field by field. -/
theorem IsSignature.of_supports {repairs : Repairs} {parameters : List (Parameter Extent)}
    {items : List Attribute} {returns : Option (List (Parameter Extent))}
    {body : Option (Block .parsed)}
    (hspells : lexemes.Spells i
      (Symbol.signature parameters items returns ++ Symbol.body (body.map (·.place))) j)
    (hplain : ∀ p ∈ parameters ++ returns.getD [], p.isIndexed = false)
    (hitems : ∀ item ∈ items, item.IsOfFunction)
    (hfields : ∀ field ∈ [parameters.map Part.parameter, Part.parametersField returns,
        body.toList.map Part.block] ++ Part.attributeFields (FunctionAttributes.ofItems items),
      ∀ child ∈ field, child.All (lexemes.Supports repairs)) :
    lexemes.IsSignature repairs i parameters items returns body j := by
  obtain ⟨hfront, hattributes⟩ := List.forall_mem_append.mp hfields
  simp only [List.forall_mem_cons, Part.parametersField, Part.attributeFields, Part.overridesField,
    List.forall_mem_map, Option.mem_toList] at hfront hattributes
  obtain ⟨hgiven, hreturns, hbody, -⟩ := hfront
  obtain ⟨hmodifiers, hoverrides, -⟩ := hattributes
  refine ⟨hspells, hplain, hitems, fun p hp => ?_, ⟨fun v hv => ?_, fun p hp => ?_⟩, hbody⟩
  · rcases List.mem_append.mp hp with hp | hp
    · exact all_holds (hgiven p hp) trivial
    · exact all_holds (hreturns p hp) trivial
  · exact all_holds (hmodifiers v hv) trivial
  · exact all_holds (hoverrides p hp) trivial

/-- A type that is more than a name does not go on with a parenthesis after its first token, unless
that is `function`. -/
theorem IsPhrase.second {type : TypeName Extent} (h : lexemes.IsPhrase i (.typeName type) j) :
    (lexemes.kindAt i = .kwFunction → lexemes.kindAt (i + 1) = .lparen) ∧
      (lexemes.kindAt i = .ident → lexemes.kindAt (i + 1) = .lparen → j = i + 1) := by
  generalize hpart : (Part.typeName type : Part .parsed) = part at h
  induction part using Part.induction generalizing type j with
  | step part ih =>
    subst hpart
    obtain ⟨symbols, hphrased, hspells⟩ := h.written
    cases hphrased with
    | elementary =>
      obtain ⟨⟨-, hk, -⟩, hrest⟩ := hspells
      refine ⟨fun hk' => ?_, fun _ hopen => ?_⟩
      · rw [hk] at hk'
        cases hk'
      · split at hrest
        · exact hrest.2.symm
        · exact Eq.symm hrest
    | payableAddress =>
      obtain ⟨⟨-, hk, -⟩, ⟨-, hpayable⟩, -⟩ := hspells
      refine ⟨fun hk' => ?_, fun _ hopen => ?_⟩
      · rw [hk] at hk'
        cases hk'
      · rw [hpayable] at hopen
        cases hopen
    | @userDefined _ first more =>
      obtain ⟨⟨-, hk, -⟩, hrest⟩ := hspells
      refine ⟨fun hk' => ?_, fun _ hopen => ?_⟩
      · rw [hk] at hk'
        cases hk'
      · cases more with
        | nil => exact hrest.2.symm
        | cons name more =>
          rw [hrest.1.2] at hopen
          cases hopen
    | mapping =>
      obtain ⟨⟨-, hk⟩, -⟩ := hspells
      constructor <;> intro hk' <;> rw [hk] at hk' <;> cases hk'
    | functionType =>
      obtain ⟨⟨-, hk⟩, ⟨-, hopen⟩, -⟩ := hspells
      refine ⟨fun _ => hopen, fun hk' => ?_⟩
      rw [hk] at hk'
      cases hk'
    | @arrayType place base length =>
      obtain rfl : place = ⟨i, j⟩ := h.place
      obtain ⟨⟨hfirst, -⟩, ⟨-, hbracket⟩, -⟩ := hspells
      have hbase : [Part.typeName base] ∈
          (Part.typeName (.array ⟨i, j⟩ base length) : Part .parsed).fields :=
        List.mem_cons_self ..
      obtain ⟨hfunction, hname⟩ := ih _ hbase _ (List.mem_cons_self ..) rfl
        (h.right_below hbase (List.mem_cons_self ..) hfirst)
      refine ⟨hfunction, fun hk hopen => ?_⟩
      have hend : base.place.next = i + 1 := hname hk hopen
      rw [hend, hopen] at hbracket
      cases hbracket

/-- A variable of a contract begins with a type; a parenthesis is its second token only after
`function`. -/
theorem IsPhrase.stateVariable_begins {declaration : StateVariable Extent}
    (h : lexemes.IsPhrase i (.member (.stateVariable declaration)) j) :
    lexemes.kindAt i = .kwFunction ∧ lexemes.kindAt (i + 1) = .lparen ∨
      lexemes.kindAt i = .kwMapping ∨
      lexemes.kindAt i = .ident ∧ lexemes.kindAt (i + 1) ≠ .lparen := by
  obtain ⟨symbols, hphrased, hspells⟩ := h.written
  cases hphrased with
  | @stateVariable _ type name items value hitems =>
    obtain ⟨l, hfront, -⟩ := Lexemes.spells_append.mp hspells
    obtain ⟨k, ⟨⟨hfirst, -⟩, hattributes⟩, ⟨-, hk, -⟩, -⟩ := Lexemes.spells_append.mp hfront
    have htype : lexemes.IsPhrase i (.typeName type) type.place.next :=
      h.right_below (List.mem_cons_self ..) (List.mem_cons_self ..) hfirst
    obtain ⟨hfunction, hname⟩ := htype.second
    have hbegins := htype.beginsType
    unfold Kind.beginsType at hbegins
    split at hbegins
    · next hident =>
      refine .inr (.inr ⟨hident, fun hopen => ?_⟩)
      rw [hname hident hopen] at hattributes
      -- after the type there is an attribute or the name
      rcases Attribute.begins_of_mem hattributes fun v hv => (hitems _ hv).elim with
        ⟨-, heq⟩ | hbegins
      · rw [← heq, hopen] at hk
        cases hk
      · rw [hopen] at hbegins
        cases hbegins
    · next hmapping => exact .inr (.inl hmapping)
    · next hword => exact .inl ⟨hword, hfunction hword⟩
    · cases hbegins

end Lexemes

namespace Grammar

/-! ### Choices that a test decides -/

/-- A rule that misses where a test fails. -/
structure Guarded (α : Type) where
  /-- The test. -/
  test : Lexemes → Nat → Bool
  /-- The rule. -/
  rule : Rule α
  /-- Where the test fails, the rule misses. -/
  misses : ∀ {scope i}, test scope.lexemes i = false → rule.Misses scope i

namespace Guarded

variable {α β : Type} {scope : Scope} {i j : Nat} {v : α} {g : Guarded α} {rows : List (Guarded α)}
  {rest : List (Rule α)}

/-- A rule that misses without a keyword. -/
def keyword (keyword : Kind) (rule : Rule α)
    (h : ∀ {scope : Scope} {i : Nat}, scope.lexemes.kindAt i ≠ keyword → rule.Misses scope i) :
    Guarded α :=
  ⟨fun lexemes index => lexemes.kindAt index == keyword, rule, fun ht => h (by simpa using ht)⟩

/-- A rule that misses without a word before a token of a kind. -/
def word (word : String) (next : Kind) (rule : Rule α)
    (h : ∀ {scope : Scope} {i : Nat},
      (scope.lexemes.isWordAt i word && scope.lexemes.kindAt (i + 1) == next) = false →
        rule.Misses scope i) : Guarded α :=
  ⟨fun lexemes index => lexemes.isWordAt index word && lexemes.kindAt (index + 1) == next, rule, h⟩

/-- What such a rule makes, made into something else. -/
def map (f : α → β) (g : Guarded α) : Guarded β := ⟨g.test, g.rule.map f, fun h => (g.misses h).map⟩

/-- Where such a rule reads, the test holds. -/
theorem test_of_reads (h : g.rule.Reads scope i v j) : g.test scope.lexemes i = true := by
  by_contra hfalse
  exact h.not_misses (g.misses (by simpa using hfalse))

/-- Of two rules, at most one test holds. -/
def Excludes (g g' : Guarded α) : Prop :=
  ∀ lexemes i, g'.test lexemes i = true → g.test lexemes i = false

/-- Rules whose tests fail are passed over. -/
theorem reads_rest (hrows : ∀ g ∈ rows, g.test scope.lexemes i = false)
    (h : (Rule.firstOf rest).Reads scope i v j) :
    (Rule.firstOf (rows.map (·.rule) ++ rest)).Reads scope i v j := by
  induction rows with
  | nil => exact h
  | cons g rows ih =>
    obtain ⟨hg, hrows⟩ := List.forall_mem_cons.mp hrows
    exact .later (g.misses hg) (ih hrows)

/-- Of rules that exclude one another, the one that reads is chosen. -/
theorem reads (hrows : rows.Pairwise Excludes) (hg : g ∈ rows) (h : g.rule.Reads scope i v j) :
    (Rule.firstOf (rows.map (·.rule) ++ rest)).Reads scope i v j := by
  induction rows with
  | nil => cases hg
  | cons g' rows ih =>
    obtain ⟨hg', hrows⟩ := List.pairwise_cons.mp hrows
    rcases List.mem_cons.mp hg with rfl | hg
    · exact .first h
    · exact .later (g'.misses (hg' g hg _ _ (test_of_reads h))) (ih hrows hg)

end Guarded

variable {inner : Inner} {scope : Scope} {repairs : Repairs} {i j k lo depth : Nat}

/-- A rule that a word decides misses where the word is not, or another token comes after it. -/
theorem wordRule_misses {α : Type} {word : String} {next : Kind} {construct : Construct}
    {p : Parser α}
    (h : (scope.lexemes.isWordAt i word && scope.lexemes.kindAt (i + 1) == next) = false) :
    (wordRule word next construct p).Misses scope i :=
  .provided h

/-! ### Bodies -/

/-- A body begins with a brace, or with the semicolon instead of one. -/
theorem body_begins {lexemes : Lexemes} {body : Option (Block .parsed)}
    (h : lexemes.Spells i (Symbol.body (body.map (·.place))) j)
    (hbody : ∀ b ∈ body, (Part.block b).All (lexemes.Supports repairs)) :
    lexemes.kindAt i = .lbrace ∨ lexemes.kindAt i = .semicolon := by
  cases body with
  | none => exact .inr h.1.2
  | some b =>
    have hlays : lexemes.Lays repairs i (.block b) b.place.next :=
      ⟨by rw [← h.1.1]; rfl, hbody b rfl⟩
    exact .inl hlays.block_begins

section Bodies

variable (hc : inner.Complete depth) (hends : inner.statement.EndsAtMember)
  (ha : Scope.Admits { scope with inBody := true } repairs)
  (hs : inner.statement.TakesStatements { scope with inBody := true } repairs (i + 1))

include hends ha hs

/-- The body of a function is read. -/
theorem functionBody_reads (hle : i ≤ k) {body : Block .parsed}
    (h : scope.lexemes.Lays repairs k (.block body) j) :
    (functionBody inner).Reads scope k body j :=
  (block_reads (hs.mono (by omega)) hends ha h :)

/-- A body is read, or a semicolon. -/
theorem bodyOrSemicolon_reads (hle : i ≤ k) {body : Option (Block .parsed)}
    (h : scope.lexemes.Spells k (Symbol.body (body.map (·.place))) j)
    (hbody : ∀ b ∈ body, (Part.block b).All (scope.lexemes.Supports repairs)) :
    (bodyOrSemicolon inner).Reads scope k body j := by
  cases body with
  | none =>
    obtain ⟨⟨-, hsemi⟩, rfl⟩ := h
    exact .eatIf (by decide) hsemi .pure
  | some b =>
    obtain ⟨⟨hfirst, -⟩, rfl⟩ := h
    have hlays : scope.lexemes.Lays repairs k (.block b) b.place.next :=
      ⟨by rw [← hfirst]; rfl, hbody b rfl⟩
    refine .eatElse ?_ (.map (functionBody_reads hends ha hs hle hlays))
    rw [hlays.block_begins]
    decide

/-! ### Functions -/

include hc

/-- What a function says after its name is read. -/
theorem signature_reads (hle : i < k) (hd : scope.lexemes.size < i + depth)
    {given : List (Parameter Extent)} {items : List Attribute}
    {returns : Option (List (Parameter Extent))} {body : Option (Block .parsed)}
    (h : scope.lexemes.IsSignature repairs k given items returns body j) :
    ∃ l m n, (parameters inner.typeName).Reads scope k given l ∧
      (functionAttributes inner).Reads scope l (FunctionAttributes.ofItems items) m ∧
      (returns? inner.typeName).Reads scope m returns n ∧
      (bodyOrSemicolon inner).Reads scope n body j := by
  obtain ⟨n, hfront, hend⟩ := Lexemes.spells_append.mp h.spells
  obtain ⟨m, hfront, hreturns⟩ := Lexemes.spells_append.mp hfront
  obtain ⟨l, hgiven, hattributes⟩ := Lexemes.spells_append.mp hfront
  have hlt := (hgiven.covers ⟨_, List.mem_cons_self .., rfl⟩).nonempty
  dsimp only at hlt
  have hle' := hattributes.inside.1
  have hle'' := hreturns.inside.1
  have hparameter (p) (hp : p ∈ given ++ returns.getD []) (n) (hfirst : p.place.first = n) :
      scope.lexemes.IsPhrase n (.parameter p) p.place.next :=
    ⟨by rw [← hfirst]; rfl, h.given p hp⟩
  have hplain {p} (hp : p ∈ given ++ returns.getD []) {allowed : Bool}
      (hindexed : p.isIndexed = true) : allowed = true := by
    rw [h.plain p hp] at hindexed
    cases hindexed
  have hstop : scope.lexemes.kindAt m = .kwReturns ∨ scope.lexemes.kindAt m = .lbrace ∨
      scope.lexemes.kindAt m = .semicolon := by
    cases returns with
    | none =>
      obtain ⟨-, rfl⟩ := hreturns
      exact .inr (body_begins hend h.body)
    | some _ => exact .inl hreturns.1.2
  refine ⟨l, m, n, ?_, ?_, ?_, bodyOrSemicolon_reads hends ha hs (by omega) hend h.body⟩
  · exact parameters_reads hc.typeName (by omega) hgiven
      (fun p hp => hparameter p (List.mem_append_left _ hp))
      fun p hp => hplain (List.mem_append_left _ hp)
  · refine functionAttributes_reads hc (by omega) h.ofFunction hattributes (fun v hv n hfirst => ?_)
      (hgiven.le_size hlt) hstop
    exact ⟨by rw [← hfirst]; rfl, h.attributes.modifiers v (FunctionAttributes.mem_modifiers hv)⟩
  · exact returns?_reads hc.typeName (by omega) hreturns
      (fun p hp => hparameter p (List.mem_append_right _ hp))
      fun p hp => h.plain p (List.mem_append_right _ hp)

/-- What comes after the name of a function is read in its parts. -/
theorem functionRest_reads (hle : i < k) (hd : scope.lexemes.size < i + depth) (start : Nat)
    (name : String) {given : List (Parameter Extent)} {items : List Attribute}
    {returns : Option (List (Parameter Extent))} {body : Option (Block .parsed)}
    (h : scope.lexemes.IsSignature repairs k given items returns body j) :
    (functionRest inner start name).Reads scope k
      ⟨⟨start, j⟩, name, given, returns, FunctionAttributes.ofItems items, body⟩ j := by
  obtain ⟨l, m, n, hgiven, hattributes, hreturns, hbody⟩ :=
    signature_reads hc hends ha hs hle hd h
  exact .bind hgiven <| .bind hattributes <| .bind hreturns <| .bind hbody <|
    .bind .extentFrom .pure

/-- So is what comes after the word of a fallback function. -/
theorem fallbackRest_reads (hle : i < k) (hd : scope.lexemes.size < i + depth) (start : Nat)
    {given : List (Parameter Extent)} {items : List Attribute}
    {returns : Option (List (Parameter Extent))} {body : Option (Block .parsed)}
    (h : scope.lexemes.IsSignature repairs k given items returns body j) :
    (fallbackRest inner start).Reads scope k
      ⟨⟨start, j⟩, given, returns, FunctionAttributes.ofItems items, body⟩ j := by
  obtain ⟨l, m, n, hgiven, hattributes, hreturns, hbody⟩ :=
    signature_reads hc hends ha hs hle hd h
  exact .bind hgiven <| .bind hattributes <| .bind hreturns <| .bind hbody <|
    .bind .extentFrom .pure

/-- A constructor is read. -/
theorem constructorFunction_reads (hd : scope.lexemes.size < i + depth)
    {function : Constructor .parsed}
    (h : scope.lexemes.Lays repairs i (.member (.constructor function)) j) :
    (constructorFunction inner).Reads scope i function j := by
  obtain ⟨symbols, hcomposed, -, hspells⟩ := h.composed id nofun
  cases hcomposed with
  | @constructor place given items body hplain hitems =>
    obtain rfl : place = ⟨i, j⟩ := h.place
    obtain ⟨m, hfront, ⟨hfirst, -⟩, rfl⟩ := Lexemes.spells_append.mp hspells
    obtain ⟨l, ⟨⟨-, hk⟩, hgiven⟩, hattributes⟩ := Lexemes.spells_append.mp hfront
    have hle := hgiven.inside.1
    have hle' := hattributes.inside.1
    have hlt := (hgiven.covers ⟨_, List.mem_cons_self .., rfl⟩).nonempty
    have hbody : scope.lexemes.Lays repairs m (.block body) body.place.next :=
      h.right_below (List.mem_cons_of_mem _ (List.mem_cons_of_mem _ (List.mem_cons_self ..)))
        (List.mem_singleton_self _) hfirst
    have hread : (parameters inner.typeName).Reads scope (i + 1) given l := by
      refine parameters_reads hc.typeName (by omega) hgiven (fun p hp n hfirst => ?_) ?_
      · exact (h.right_below (List.mem_cons_self ..) (List.mem_map_of_mem hp) hfirst).isPhrase
          trivial
      · intro p hp hindexed
        rw [hplain p hp] at hindexed
        cases hindexed
    have hread' : (functionAttributes inner).Reads scope l
        (FunctionAttributes.ofItems items) m := by
      refine functionAttributes_reads hc (by omega) hitems hattributes (fun v hv n hfirst => ?_)
        (hgiven.le_size hlt) (.inr (.inl hbody.block_begins))
      exact (h.right_below (List.mem_cons_of_mem _ (List.mem_cons_self ..))
        (List.mem_map_of_mem (FunctionAttributes.mem_modifiers hv)) hfirst).isPhrase trivial
    exact keywordRule_reads hk <| .bind .position <| .bind (.advance (by rw [hk]; decide)) <|
      .bind hread <| .bind hread' <|
      .bind (functionBody_reads hends ha hs (by omega) hbody) <| .bind .extentFrom .pure

/-- A receiving function is. -/
theorem receiveFunction_reads (hd : scope.lexemes.size < i + depth)
    {function : ReceiveFunction .parsed}
    (h : scope.lexemes.Lays repairs i (.member (.receive function)) j) :
    (receiveFunction inner).Reads scope i function j := by
  obtain ⟨symbols, hcomposed, -, hspells⟩ := h.composed id nofun
  cases hcomposed with
  | @receive place items body hitems =>
    obtain rfl : place = ⟨i, j⟩ := h.place
    obtain ⟨m, ⟨⟨-, hk, hword⟩, ⟨-, hopen⟩, ⟨-, hclose⟩, hattributes⟩, hend⟩ :=
      Lexemes.spells_append.mp hspells
    have hle := hattributes.inside.1
    have hbody : ∀ b ∈ body, (Part.block b).All (scope.lexemes.Supports repairs) := fun b hb =>
      h.stands.below (List.mem_cons_self ..) (List.mem_map_of_mem (Option.mem_toList.mpr hb))
    have hsize := Lexemes.lt_size_of_kindAt
      (by rw [hclose]; decide : scope.lexemes.kindAt (i + 1 + 1) ≠ .eof)
    have hread : (functionAttributes inner).Reads scope (i + 1 + 1 + 1)
        (FunctionAttributes.ofItems items) m := by
      refine functionAttributes_reads hc (by omega) hitems hattributes (fun v hv n hfirst => ?_)
        hsize (.inr (body_begins hend hbody))
      exact (h.right_below (List.mem_cons_of_mem _ (List.mem_cons_self ..))
        (List.mem_map_of_mem (FunctionAttributes.mem_modifiers hv)) hfirst).isPhrase trivial
    exact wordRule_reads ⟨hk, hword⟩ hopen <| .bind .position <|
      .bind (.advance (by rw [hk]; decide)) <| .bind (.expect (by decide) hopen) <|
      .bind (.expect (by decide) hclose) <| .bind hread <|
      .bind (bodyOrSemicolon_reads hends ha hs (by omega) hend hbody) <| .bind .extentFrom .pure

/-- A modifier is, with or without parentheses. -/
theorem modifierDeclaration_reads (hd : scope.lexemes.size < i + depth)
    {modifier : ModifierDeclaration .parsed}
    (h : scope.lexemes.Lays repairs i (.member (.modifier modifier)) j) :
    (modifierDeclaration inner).Reads scope i modifier j := by
  obtain ⟨symbols, hcomposed, -, hspells⟩ := h.composed id nofun
  cases hcomposed with
  | @modifier place name given items body hplain hitems =>
    obtain rfl : place = ⟨i, j⟩ := h.place
    obtain ⟨m, hfront, hend⟩ := Lexemes.spells_append.mp hspells
    obtain ⟨l, ⟨⟨-, hk⟩, ⟨-, hname, rfl⟩, hgiven⟩, hattributes⟩ := Lexemes.spells_append.mp hfront
    have hle := hgiven.inside.1
    have hle' := hattributes.inside.1
    have hbody : ∀ b ∈ body, (Part.block b).All (scope.lexemes.Supports repairs) := fun b hb =>
      h.stands.below (List.mem_cons_of_mem _ (List.mem_cons_of_mem _ (List.mem_cons_self ..)))
        (List.mem_map_of_mem (Option.mem_toList.mpr hb))
    have hm := body_begins hend hbody
    have hsize := Lexemes.lt_size_of_kindAt
      (by rw [hname]; decide : scope.lexemes.kindAt (i + 1) ≠ .eof)
    have hsize' : l ≤ scope.lexemes.size := by
      rcases Nat.eq_or_lt_of_le hle with heq | hlt
      · omega
      · exact hgiven.le_size hlt
    have hread : (parametersIfOpen inner).Reads scope (i + 1 + 1) given l := by
      refine parametersIfOpen_reads hc (by omega) hgiven ?_ fun p hp => ⟨hplain p hp, ?_⟩
      · -- without parameters, an attribute or the body comes next
        rintro rfl
        obtain rfl : i + 1 + 1 = l := hgiven
        have hmodifier (v) (hv : Attribute.modifier v ∈ items) :
            scope.lexemes.kindAt v.place.first = .ident := (hitems _ hv).elim
        rcases Attribute.begins_of_mem hattributes hmodifier with ⟨-, rfl⟩ | hbegins
        · rcases hm with hm | hm <;> rw [hm] <;> decide
        · exact (endsAttribute_of_begins hbegins).2
      · intro n hfirst
        exact (h.right_below (List.mem_cons_self ..) (List.mem_map_of_mem hp) hfirst).isPhrase
          trivial
    have hread' : modifierAttributes.Reads scope l
        ((FunctionAttributes.ofItems items).isVirtual,
          (FunctionAttributes.ofItems items).overrides) m :=
      modifierAttributes_reads hsize' hitems hattributes hm
    exact keywordRule_reads hk <| .bind .position <| .bind (.advance (by rw [hk]; decide)) <|
      .bind (.expectIdent hname) <| .bind hread <| .bind hread' <|
      .bind (bodyOrSemicolon_reads hends ha hs (by omega) hend hbody) <| .bind .extentFrom .pure

/-- A function with a name is read. -/
theorem function_reads (hd : scope.lexemes.size < i + depth)
    {function : FunctionDeclaration .parsed}
    (h : scope.lexemes.Lays repairs i (.member (.function function)) j) :
    (contractFunction inner).Reads scope i (.function function) j ∧
      (freeFunction inner).Reads scope i function j := by
  obtain ⟨symbols, hcomposed, -, hspells⟩ := h.composed id nofun
  cases hcomposed with
  | @function place name given returns items body hplain hitems =>
    obtain rfl : place = ⟨i, j⟩ := h.place
    obtain ⟨⟨-, hk⟩, ⟨-, hname, rfl⟩, hsignature⟩ := hspells
    have hread := functionRest_reads hc hends ha hs (by omega) hd i
      (scope.lexemes.textAt (i + 1)) (IsSignature.of_supports hsignature hplain hitems
        fun _ hfield _ => h.stands.below hfield)
    constructor
    · exact keywordRule_reads hk <| .bind .position <| .bind (.advance (by rw [hk]; decide)) <|
        .kindElse (by rw [hname]; decide) <| .bind (.expectIdent hname) <| .bind hread .pure
    · exact keywordRule_reads hk <| .bind .position <| .bind (.advance (by rw [hk]; decide)) <|
        .bind (.expectIdent hname) hread

/-- A fallback function is read, whichever word it begins with. -/
theorem fallback_reads (hd : scope.lexemes.size < i + depth) {function : FallbackFunction .parsed}
    (h : scope.lexemes.Lays repairs i (.member (.fallback function)) j) :
    scope.lexemes.kindAt i = .kwFunction ∧
        (contractFunction inner).Reads scope i (.fallback function) j ∨
      scope.lexemes.kindAt i = .ident ∧ (fallbackFunction inner).Reads scope i function j := by
  obtain ⟨symbols, hcomposed, -, hspells⟩ := h.composed id nofun
  cases hcomposed with
  | @fallback place word given returns items body hword hplain hitems =>
    obtain rfl : place = ⟨i, j⟩ := h.place
    have hread (hsignature : scope.lexemes.Spells (i + 1)
        (Symbol.signature given items returns ++ Symbol.body (body.map (·.place))) j) :=
      fallbackRest_reads hc hends ha hs (by omega) hd i
        (IsSignature.of_supports hsignature hplain hitems fun _ hfield _ => h.stands.below hfield)
    rcases hword with rfl | rfl
    · obtain ⟨⟨-, hk⟩, hsignature⟩ := hspells
      exact .inl ⟨hk, keywordRule_reads hk <| .bind .position <|
        .bind (.advance (by rw [hk]; decide)) <| .kindIf hsignature.1.2 <|
        .bind (hread hsignature) .pure⟩
    · obtain ⟨⟨-, hk, hword⟩, hsignature⟩ := hspells
      exact .inr ⟨hk, wordRule_reads ⟨hk, hword⟩ hsignature.1.2 <| .bind .position <|
        .bind (.advance (by rw [hk]; decide)) (hread hsignature)⟩

end Bodies

/-! ### Members -/

/-- A value type begins with `type`. -/
theorem valueTypeDefinition_misses {scope : Scope} {i : Nat}
    (h : scope.lexemes.kindAt i ≠ .kwType) : valueTypeDefinition.Misses scope i :=
  .of_provided (keywordRule_misses h)

/-! The rules for what may stand in contracts and outside of them. -/

def Guarded.event (inner : Inner) : Guarded (EventDefinition Extent) :=
  .keyword .kwEvent (eventDefinition inner) keywordRule_misses

def Guarded.error (inner : Inner) : Guarded (ErrorDefinition Extent) :=
  .word "error" .ident (errorDefinition inner) wordRule_misses

def Guarded.struct (inner : Inner) : Guarded (StructDefinition Extent) :=
  .keyword .kwStruct (structDefinition inner) keywordRule_misses

def Guarded.enumeration : Guarded (EnumDefinition Extent) :=
  .keyword .kwEnum enumDefinition keywordRule_misses

def Guarded.usingDirective (inner : Inner) : Guarded (UsingDirective Extent) :=
  .keyword .kwUsing (Grammar.usingDirective inner) keywordRule_misses

def Guarded.valueType : Guarded (ValueTypeDefinition Extent) :=
  .keyword .kwType valueTypeDefinition valueTypeDefinition_misses

/-- The rules for members that the first two tokens decide. -/
def memberRules (inner : Inner) : List (Guarded (ContractPart .parsed)) :=
  [.keyword .kwFunction (contractFunction inner) keywordRule_misses,
    (Guarded.keyword .kwConstructor (constructorFunction inner) keywordRule_misses).map
      .constructor,
    (Guarded.word "receive" .lparen (receiveFunction inner) wordRule_misses).map .receive,
    (Guarded.word "fallback" .lparen (fallbackFunction inner) wordRule_misses).map .fallback,
    (Guarded.keyword .kwModifier (modifierDeclaration inner) keywordRule_misses).map .modifier,
    (Guarded.event inner).map .event, (Guarded.error inner).map .error,
    (Guarded.struct inner).map .struct, Guarded.enumeration.map .enumeration,
    (Guarded.usingDirective inner).map .usingDirective, Guarded.valueType.map .valueType]

/-- The rules for members in the order in which they are tried, each with the test that decides
it. -/
theorem contractPart_eq :
    contractPart inner = Rule.named .contractMember (Rule.firstOf
      (Rule.provided
        (fun lexemes index =>
          lexemes.kindAt index == .kwFunction && lexemes.kindAt (index + 1) == .lparen)
        ((stateVariable inner).map ContractPart.stateVariable) ::
      ((memberRules inner).map (·.rule) ++
        [(stateVariable inner).map ContractPart.stateVariable]))) := rfl

/-- No two of them apply at the same token. -/
theorem memberRules_exclude : (memberRules inner).Pairwise Guarded.Excludes := by
  simp +contextual [memberRules, Guarded.Excludes, Guarded.event, Guarded.error, Guarded.struct,
    Guarded.enumeration, Guarded.usingDirective, Guarded.valueType, Guarded.keyword, Guarded.word,
    Guarded.map, Lexemes.isWordAt]

/-- Where no variable of a contract stands, the attempt at one misses. -/
theorem stateVariable_misses (hi : inner.Sound) (hw : scope.lexemes.WellSpelled)
    (h : ¬ scope.lexemes.DeclaresState i) : (stateVariable inner).Misses scope i :=
  .attempt fun _ _ hgives => h ⟨_, _, stateVariable_isPhrase hi hw hgives⟩

section Members

variable (hi : inner.Sound) (hw : scope.lexemes.WellSpelled) {m : ContractPart .parsed}

include hi hw

/-- What the rule for functions reads is a member, if no variable stands there. -/
theorem contractPart_reads_function (h : (contractFunction inner).Reads scope i m j)
    (hpassed : scope.lexemes.kindAt (i + 1) = .lparen → ¬ scope.lexemes.DeclaresState i) :
    (contractPart inner).Reads scope i m j := by
  rw [contractPart_eq]
  refine .named <| .later ?_ <| Guarded.reads memberRules_exclude (List.mem_cons_self ..) h
  by_cases hopen : scope.lexemes.kindAt (i + 1) = .lparen
  · exact .of_provided (stateVariable_misses hi hw (hpassed hopen)).map
  · exact .provided (by simp [hopen])

omit hi hw in
/-- What any other of the rules reads is a member. -/
theorem contractPart_reads_other (n : Fin 10)
    (h : ((memberRules inner).get n.succ).rule.Reads scope i m j) :
    (contractPart inner).Reads scope i m j := by
  rw [contractPart_eq]
  have hmem : (memberRules inner).get n.succ ∈ (memberRules inner).tail :=
    List.get_mem (memberRules inner).tail n
  have hk : (scope.lexemes.kindAt i == .kwFunction) = false :=
    (List.pairwise_cons.mp memberRules_exclude).1 _ hmem _ _ (Guarded.test_of_reads h)
  refine .named <| .later (.provided (by simp [hk])) <|
    Guarded.reads memberRules_exclude (List.mem_of_mem_tail hmem) h

variable (hc : inner.Complete depth) (hends : inner.statement.EndsAtMember)
  (ha : Scope.Admits { scope with inBody := true } repairs)
  (hs : inner.statement.TakesStatements { scope with inBody := true } repairs (i + 1))
  (hd : scope.lexemes.size < i + depth)

include hc hends ha hs hd

/-- A member of a contract is read if it is the first way to read what it is written as. -/
theorem contractPart_reads_chosen (h : scope.lexemes.Lays repairs i (.member m) j)
    (hchosen : scope.lexemes.ChosenMember m) : (contractPart inner).Reads scope i m j := by
  cases m with
  | function function =>
    refine contractPart_reads_function hi hw (function_reads hc hends ha hs hd h).1 fun hopen => ?_
    obtain ⟨symbols, hcomposed, -, hspells⟩ := h.composed id nofun
    cases hcomposed
    rw [hspells.2.1.2.1] at hopen
    cases hopen
  | constructor function =>
    exact contractPart_reads_other 0 (.map (constructorFunction_reads hc hends ha hs hd h))
  | receive function =>
    exact contractPart_reads_other 1 (.map (receiveFunction_reads hc hends ha hs hd h))
  | fallback function =>
    obtain rfl : function.place.first = i := congrArg Extent.first h.place
    rcases fallback_reads hc hends ha hs hd h with ⟨hk, hread⟩ | ⟨-, hread⟩
    · exact contractPart_reads_function hi hw hread fun _ => hchosen hk
    · exact contractPart_reads_other 2 (.map hread)
  | modifier modifier =>
    exact contractPart_reads_other 3 (.map (modifierDeclaration_reads hc hends ha hs hd h))
  | event definition =>
    exact contractPart_reads_other 4
      (.map (eventDefinition_reads hc hd (h.isPhrase trivial)))
  | error definition =>
    exact contractPart_reads_other 5
      (.map (errorDefinition_reads hc hd (h.isPhrase trivial)))
  | struct definition =>
    exact contractPart_reads_other 6
      (.map (structDefinition_reads hc hd (h.isPhrase trivial)))
  | enumeration definition =>
    exact contractPart_reads_other 7 (.map (enumDefinition_reads (h.isPhrase trivial)))
  | usingDirective directive =>
    exact contractPart_reads_other 8
      (.map (usingDirective_reads hc hd (h.isPhrase trivial)))
  | valueType definition =>
    exact contractPart_reads_other 9
      (.map (valueTypeDefinition_reads (h.isPhrase trivial)))
  | stateVariable declaration =>
    have hphrase := h.isPhrase trivial
    have hread := Rule.Reads.map (f := ContractPart.stateVariable (F := .parsed))
      (stateVariable_reads hc hd hphrase)
    obtain rfl : declaration.place.first = i := congrArg Extent.first h.place
    rw [contractPart_eq]
    rcases hphrase.stateVariable_begins with ⟨hk, hopen⟩ | hk | ⟨hk, hopen⟩
    · exact .named <| .first (.provided (by simp [hk, hopen]) hread)
    · refine .named <| .later (.provided (by simp [hk])) <| Guarded.reads_rest ?_ (.first hread)
      simp [memberRules, Guarded.event, Guarded.error, Guarded.struct, Guarded.enumeration,
        Guarded.usingDirective, Guarded.valueType, Guarded.keyword, Guarded.word, Guarded.map,
        Lexemes.isWordAt, hk]
    · refine .named <| .later (.provided (by simp [hk])) <| Guarded.reads_rest ?_ (.first hread)
      have herror := hchosen
      simp only [Lexemes.ChosenMember, Lexemes.DefinesError, not_and] at herror
      simpa [memberRules, Guarded.event, Guarded.error, Guarded.struct, Guarded.enumeration,
        Guarded.usingDirective, Guarded.valueType, Guarded.keyword, Guarded.word, Guarded.map,
        hk, hopen] using herror

end Members

end Grammar

end SolidityParser
