import SolidityParser.Grammar.Unit
import SolidityParser.Proofs.Complete.TypeName

/-!
# Declarations are read

The rules for declarations without statements in them read each that stands in the input. Attributes
are read as long as there are any; what follows them begins none.
-/

namespace SolidityParser

open SolidityParser.Parser (Reads Rounds)
open SolidityParser.Symbol (series)

/-- The name of what is invoked comes first. -/
theorem Lexemes.IsPhrase.invocation_begins {lexemes : Lexemes} {i j : Nat}
    {value : Invocation Extent} (h : lexemes.IsPhrase i (.invocation value) j) :
    lexemes.kindAt i = .ident := by
  obtain ⟨symbols, hphrased, hspells⟩ := h.written
  cases hphrased
  exact hspells.1.2.1

namespace Grammar

variable {inner : Inner} {scope : Scope} {i j k depth : Nat}

/-! ### Rules that a keyword decides -/

/-- A rule that a keyword decides reads what its parser reads where the keyword stands. -/
theorem keywordRule_reads {α : Type} {keyword : Kind} {construct : Construct} {p : Parser α} {v : α}
    (hk : scope.lexemes.kindAt i = keyword) (h : p.Reads scope i v j) :
    (keywordRule keyword construct p).Reads scope i v j :=
  .within <| .opening hk <| .ofParser h

/-- Where it does not stand, the rule misses. -/
theorem keywordRule_misses {α : Type} {keyword : Kind} {construct : Construct} {p : Parser α}
    (hk : scope.lexemes.kindAt i ≠ keyword) : (keywordRule keyword construct p).Misses scope i :=
  .within (.opening hk)

/-- A rule that a word decides reads where the word stands, with the right token after it. -/
theorem wordRule_reads {α : Type} {word : String} {next : Kind} {construct : Construct}
    {p : Parser α} {v : α}
    (hword : scope.lexemes.kindAt i = .ident ∧ scope.lexemes.textAt i = word)
    (hnext : scope.lexemes.kindAt (i + 1) = next) (h : p.Reads scope i v j) :
    (wordRule word next construct p).Reads scope i v j := by
  refine .provided ?_ (.within (.ofParser h))
  simp [Lexemes.isWordAt, hword, hnext]

/-! ### Words -/

/-- A word is read, or nothing where no name follows. -/
theorem eatWord_reads {word : String} {found : Bool}
    (h : scope.lexemes.Spells i (if found then [.word .ident word] else []) j)
    (hnone : scope.lexemes.kindAt j ≠ .ident) : (Parser.eatWord word).Reads scope i found j := by
  cases found with
  | false =>
    obtain rfl : i = j := h
    refine .bind (v := false) (fun trail => ⟨trail, ?_⟩) .pure
    unfold Parser.isWord
    rw [isWordAt_eq_false hnone]
  | true =>
    obtain ⟨⟨-, hk, htext⟩, rfl⟩ := h
    refine .bind (v := true) (fun trail => ⟨trail, ?_⟩) <|
      .bind (.advance (by rw [hk]; decide)) .pure
    unfold Parser.isWord
    simp [Lexemes.isWordAt, hk, htext]

/-- A word that has to stand there is read. -/
theorem expectWord_reads {word : String} (hk : scope.lexemes.kindAt i = .ident)
    (htext : scope.lexemes.textAt i = word) :
    (Parser.expectWord word).Reads scope i () (i + 1) := by
  refine .bind (v := true) (fun trail => ⟨trail, ?_⟩) (.advance (by rw [hk]; decide))
  unfold Parser.isWord
  simp [Lexemes.isWordAt, hk, htext]

/-! ### Paths -/

/-- A path is read up to a token that is no point. -/
theorem namePath_reads {first : String} {more : List String}
    (h : scope.lexemes.Spells i (Symbol.names first more) j)
    (hdot : scope.lexemes.kindAt j ≠ .dot) :
    namePath.Reads scope i ⟨⟨i, j⟩, dotted first more⟩ j := by
  obtain ⟨⟨-, hk, rfl⟩, hmore⟩ := h
  have rounds : ∀ (more : List String) (path : String) (k : Nat),
      scope.lexemes.Spells k (more.flatMap fun name => [.token .dot, .word .ident name]) j →
      Rounds scope (fun path => do
        if (← Parser.kind) = .dot then
          Parser.advance
          let name ← Parser.expectIdent
          return some (path ++ "." ++ name.name)
        return none) path k (dotted path more) j := by
    intro more
    induction more with
    | nil =>
      rintro path k rfl
      exact .refl _ _
    | cons name more ih =>
      rintro path k ⟨⟨-, hpoint⟩, ⟨-, hident, rfl⟩, hrest⟩
      exact .head (.kindIf hpoint <| .bind (.advance (by rw [hpoint]; decide)) <|
        .bind (.expectIdent hident) .pure) (by omega : k < k + 2) (ih _ _ hrest)
  have hsize := Lexemes.lt_size_of_kindAt (by rw [hk]; decide : scope.lexemes.kindAt i ≠ .eof)
  have hle : j ≤ scope.lexemes.size := by
    rcases Nat.eq_or_lt_of_le hmore.inside.1 with rfl | hlt
    · exact hsize
    · exact hmore.le_size hlt
  exact .bind (.expectIdent hk) <|
    .bind (.iterate (rounds more _ _ hmore) (.kindElse hdot .pure) hle) <| .bind .extentFrom .pure

/-- Paths with commas between are read up to what closes them. -/
theorem paths_reads {close : Kind} {listed : List WrittenPath}
    (hclose : close ≠ .eof ∧ close ≠ .comma ∧ close ≠ .dot ∧ close ≠ .ident)
    (h : scope.lexemes.Spells i (series close (listed.map fun base => [base.symbol])) j) :
    (Parser.series close namePath).Reads scope i (listed.map (·.path)) j := by
  refine .series_made _ ⟨hclose.1, hclose.2.1⟩ h ?_ ?_
  · intro hsome
    obtain ⟨base, rest, rfl⟩ := List.exists_cons_of_ne_nil hsome
    obtain ⟨m, ⟨⟨-, ⟨hk, -⟩, -⟩, -⟩, -⟩ := h.series_cons
    rw [hk]
    exact hclose.2.2.2.symm
  · intro base hbase n m hn hspells hend
    obtain ⟨hfirst, hnames, rfl⟩ := Lexemes.spells_path_iff.mp hspells
    subst hfirst
    refine namePath_reads hnames ?_
    rcases hend with hk | hk <;> rw [hk]
    · decide
    · exact hclose.2.2.1

/-- The bases after `override` are read, or none where no parenthesis follows. -/
theorem overrideList_reads {listed : Option (List WrittenPath)}
    (h : scope.lexemes.Spells i (Attribute.baseSymbols listed) j)
    (hnone : listed = none → scope.lexemes.kindAt i ≠ .lparen) :
    overrideList.Reads scope i (Attribute.bases listed) j := by
  cases listed with
  | none =>
    obtain rfl : i = j := h
    exact .eatElse (hnone rfl) .pure
  | some bases =>
    obtain ⟨⟨-, hopen⟩, hseries⟩ := h
    exact .eatIf (by decide) hopen (paths_reads (by decide) hseries)

/-! ### Loops over attributes -/

/-- Neither a point nor a parenthesis, which would go on with an attribute. -/
def EndsAttribute (k : Kind) : Prop := k ≠ .dot ∧ k ≠ .lparen

/-- A token that begins an attribute does not go on with one before. -/
theorem endsAttribute_of_begins {k : Kind} (h : k.beginsAttribute = true) : EndsAttribute k := by
  constructor <;> rintro rfl <;> cases h

/-- Attributes are read one after the other, if each is where the next token does not go on with
it. -/
theorem attributes_rounds {σ : Type} {update : σ → Attribute → σ} {step : σ → Parser (Option σ)}
    {items : List Attribute} {kept : σ} (h : scope.lexemes.Spells i (Symbol.attributes items) j)
    (hmodifier : ∀ v, .modifier v ∈ items → scope.lexemes.kindAt v.place.first = .ident)
    (hj : EndsAttribute (scope.lexemes.kindAt j))
    (hstep : ∀ item ∈ items, ∀ kept n m, i ≤ n → scope.lexemes.Spells n item.symbols m →
      EndsAttribute (scope.lexemes.kindAt m) →
      Reads scope n (step kept) (some (update kept item)) m) :
    Rounds scope step kept i (items.foldl update kept) j := by
  induction items generalizing i kept with
  | nil =>
    obtain rfl : i = j := h
    exact .refl _ _
  | cons item items ih =>
    obtain ⟨k, hitem, hrest⟩ := Lexemes.spells_append.mp h
    have hlt := Attribute.lt hitem
    have hmodifier' (v) (hv : .modifier v ∈ items) := hmodifier v (List.mem_cons_of_mem _ hv)
    have hk : EndsAttribute (scope.lexemes.kindAt k) := by
      rcases Attribute.begins_of_mem hrest hmodifier' with ⟨rfl, rfl⟩ | hbegins
      · exact hj
      · exact endsAttribute_of_begins hbegins
    refine .head (hstep item (List.mem_cons_self ..) kept i k (Nat.le_refl _) hitem hk) hlt ?_
    exact ih hrest hmodifier' fun item hitem kept n m hn =>
      hstep item (List.mem_cons_of_mem _ hitem) kept n m (by omega)

/-- Attributes end within the input. -/
theorem spells_attributes_le {items : List Attribute}
    (h : scope.lexemes.Spells i (Symbol.attributes items) j)
    (hi : i ≤ scope.lexemes.size) : j ≤ scope.lexemes.size := by
  rcases Nat.eq_or_lt_of_le h.inside.1 with rfl | hlt
  · exact hi
  · exact h.le_size hlt

/-- The attributes of a modifier after one more. -/
def setModifier (kept : Bool × Option (List (NamePath Extent))) (item : Attribute) :
    Bool × Option (List (NamePath Extent)) :=
  match item with
  | .isVirtual => (true, kept.2)
  | .overrides bases => (kept.1, some (Attribute.bases bases))
  | _ => kept

/-- The attributes of a modifier are read up to its body. -/
theorem modifierAttributes_reads {items : List Attribute} (hi : i ≤ scope.lexemes.size)
    (hitems : ∀ item ∈ items, item.IsOfModifier)
    (h : scope.lexemes.Spells i (Symbol.attributes items) j)
    (hj : scope.lexemes.kindAt j = .lbrace ∨ scope.lexemes.kindAt j = .semicolon) :
    modifierAttributes.Reads scope i ((FunctionAttributes.ofItems items).isVirtual,
      (FunctionAttributes.ofItems items).overrides) j := by
  have hset (kept : FunctionAttributes Extent) (item : Attribute) :
      setModifier (kept.isVirtual, kept.overrides) item =
        ((kept.set item).isVirtual, (kept.set item).overrides) := by
    cases item <;> rfl
  have hfold : items.foldl setModifier (false, none) =
      ((FunctionAttributes.ofItems items).isVirtual,
        (FunctionAttributes.ofItems items).overrides) :=
    @List.foldl_hom _ _ _ (fun kept : FunctionAttributes Extent => (kept.isVirtual, kept.overrides))
      _ _ items {} hset
  rw [← hfold]
  refine .iterate (attributes_rounds h ?_ ?_ ?_) ?_ (spells_attributes_le h hi)
  · exact fun v hv => (hitems _ hv).elim
  · rcases hj with hk | hk <;> rw [hk] <;> exact ⟨by decide, by decide⟩
  · rintro item hitem ⟨isVirtual, overrides⟩ n m - hspells hm
    cases item with
    | isVirtual =>
      obtain ⟨⟨-, hk⟩, rfl⟩ := hspells
      exact .eatIf (by decide) hk .pure
    | overrides listed =>
      obtain ⟨⟨-, hk⟩, hlisted⟩ := hspells
      refine .eatElse (by rw [hk]; decide) <| .eatIf (by decide) hk <|
        .bind (overrideList_reads hlisted ?_) .pure
      rintro rfl
      obtain rfl : n + 1 = m := hlisted
      exact hm.2
    | _ => exact (hitems _ hitem).elim
  · refine .eatElse ?_ <| .eatElse ?_ .pure <;> rcases hj with hk | hk <;> rw [hk] <;> decide

/-- The attributes of a variable are read up to its name. -/
theorem variableAttributes_reads {items : List Attribute} (hi : i ≤ scope.lexemes.size)
    (hitems : ∀ item ∈ items, item.IsOfVariable)
    (h : scope.lexemes.Spells i (Symbol.attributes items) j)
    (hj : scope.lexemes.kindAt j = .ident) :
    (Parser.iterate variableAttribute? {}).Reads scope i (VariableAttributes.ofItems items) j := by
  refine .iterate (attributes_rounds h ?_ ?_ ?_) ?_ (spells_attributes_le h hi)
  · exact fun v hv => (hitems _ hv).elim
  · rw [hj]
    exact ⟨by decide, by decide⟩
  · rintro item hitem kept n m - hspells hm
    cases item with
    | visibility v =>
      obtain ⟨⟨-, hk⟩, rfl⟩ := hspells
      exact .bind (visibility?_reads (Visibility.ofKind?_eq_some.mpr hk)) .pure
    | isConstant =>
      obtain ⟨⟨-, hk⟩, rfl⟩ := hspells
      exact .bind (visibility?_reads_none (by rw [hk]; rfl)) <| .eatIf (by decide) hk .pure
    | isImmutable =>
      obtain ⟨⟨-, hk⟩, rfl⟩ := hspells
      exact .bind (visibility?_reads_none (by rw [hk]; rfl)) <| .eatElse (by rw [hk]; decide) <|
        .eatIf (by decide) hk .pure
    | overrides listed =>
      obtain ⟨⟨-, hk⟩, hlisted⟩ := hspells
      refine .bind (visibility?_reads_none (by rw [hk]; rfl)) <| .eatElse (by rw [hk]; decide) <|
        .eatElse (by rw [hk]; decide) <| .eatIf (by decide) hk <|
        .bind (overrideList_reads hlisted ?_) .pure
      rintro rfl
      obtain rfl : n + 1 = m := hlisted
      exact hm.2
    | _ => exact (hitems _ hitem).elim
  · exact .bind (visibility?_reads_none (by rw [hj]; rfl)) <| .eatElse (by rw [hj]; decide) <|
      .eatElse (by rw [hj]; decide) <| .eatElse (by rw [hj]; decide) .pure

section Nested

variable (hi : inner.Complete depth) (hd : scope.lexemes.size < i + depth)

include hi hd

/-! ### Invocations -/

/-- Arguments are read, or none where no parenthesis follows. -/
theorem arguments?_reads {given : Option (List (Expression Extent))}
    (h : scope.lexemes.Spells i (Symbol.arguments given) j)
    (hall : ∀ e ∈ given.getD [], e.IsWhole ∧ ∀ n, e.place.first = n →
      scope.lexemes.IsPhrase n (.expression e) e.place.next)
    (hnone : given = none → scope.lexemes.kindAt i ≠ .lparen) :
    (arguments? inner).Reads scope i given j := by
  cases given with
  | none =>
    obtain rfl : i = j := h
    exact .eatElse (hnone rfl) .pure
  | some values =>
    obtain ⟨⟨-, hopen⟩, hseries⟩ := h
    refine .eatIf (by decide) hopen <| .map <| .within <| .series (by decide) hseries ?_ ?_
    · intro hsome
      obtain ⟨e, rest, rfl⟩ := List.exists_cons_of_ne_nil hsome
      obtain ⟨m, hfirst, -⟩ := hseries.series_cons
      exact ((hall e (by simp)).2 _ hfirst.1.1).kindAt_ne rfl
    · intro e he n m hn hitem hend
      obtain ⟨⟨hfirst, -⟩, rfl⟩ := hitem
      refine hi.expression (by omega) ⟨(hall e he).2 n hfirst, (hall e he).1, ?_⟩
      rcases hend with hk | hk
      · exact .of_ends hk (by decide)
      · exact .of_ends hk (by decide)

/-- An invocation is read to its end, if what comes next would go on with neither its path nor its
arguments. -/
theorem invocation_reads {value : Invocation Extent}
    (h : scope.lexemes.IsPhrase i (.invocation value) j)
    (hdot : scope.lexemes.kindAt j ≠ .dot) (hopen : scope.lexemes.kindAt j ≠ .lparen) :
    (invocation inner).Reads scope i value j := by
  obtain ⟨symbols, hphrased, hspells⟩ := h.written
  cases hphrased with
  | @invocation place first more given =>
    obtain rfl : place = ⟨i, j⟩ := h.place
    obtain ⟨m, hnames, hgiven⟩ := Lexemes.spells_append.mp hspells
    have hle := hnames.inside.1
    have hread : (arguments? inner).Reads scope m given j := by
      refine arguments?_reads hi (by omega) hgiven (fun e he => ⟨?_, fun n hfirst => ?_⟩) ?_
      · exact h.tight _ (List.mem_singleton_self _) e (List.mem_map_of_mem he)
      · exact h.right_below (List.mem_singleton_self _) (List.mem_map_of_mem he) hfirst
      · rintro rfl
        obtain rfl : m = j := hgiven
        exact hopen
    refine .bind (namePath_reads hnames ?_) <| .bind hread <| .bind .extentFrom .pure
    cases given with
    | none =>
      obtain rfl : m = j := hgiven
      exact hdot
    | some values =>
      rw [hgiven.1.2]
      decide

/-! ### Attributes of functions -/

/-- One attribute is read, where no point or parenthesis follows it. -/
theorem functionAttribute?_reads {item : Attribute} {attributes : FunctionAttributes Extent}
    (hitem : item.IsOfFunction) (h : scope.lexemes.Spells i item.symbols j)
    (hmodifier : ∀ v, item = .modifier v → ∀ n, v.place.first = n →
      scope.lexemes.IsPhrase n (.invocation v) v.place.next)
    (hj : scope.lexemes.kindAt j ≠ .dot ∧ scope.lexemes.kindAt j ≠ .lparen) :
    (functionAttribute? inner attributes).Reads scope i (some (attributes.set item)) j := by
  cases item with
  | visibility v =>
    obtain ⟨⟨-, hk⟩, rfl⟩ := h
    exact .bind (visibility?_reads (Visibility.ofKind?_eq_some.mpr hk)) .pure
  | mutability v =>
    obtain ⟨⟨-, hk⟩, rfl⟩ := h
    refine .bind (visibility?_reads_none ?_) <|
      .bind (mutability?_reads (StateMutability.ofKind?_eq_some.mpr hk)) .pure
    rw [hk]
    cases v <;> rfl
  | isVirtual =>
    obtain ⟨⟨-, hk⟩, rfl⟩ := h
    exact .bind (visibility?_reads_none (by rw [hk]; rfl)) <|
      .bind (mutability?_reads_none (by rw [hk]; rfl)) <| .eatIf (by decide) hk .pure
  | overrides listed =>
    obtain ⟨⟨-, hk⟩, hlisted⟩ := h
    refine .bind (visibility?_reads_none (by rw [hk]; rfl)) <|
      .bind (mutability?_reads_none (by rw [hk]; rfl)) <| .eatElse (by rw [hk]; decide) <|
      .eatIf (by decide) hk <| .bind (overrideList_reads hlisted ?_) .pure
    rintro rfl
    obtain rfl : i + 1 = j := hlisted
    exact hj.2
  | modifier v =>
    obtain ⟨⟨hfirst, -⟩, rfl⟩ := h
    have hphrase := hmodifier v rfl i hfirst
    have hk := hphrase.invocation_begins
    exact .bind (visibility?_reads_none (by rw [hk]; rfl)) <|
      .bind (mutability?_reads_none (by rw [hk]; rfl)) <| .eatElse (by rw [hk]; decide) <|
      .eatElse (by rw [hk]; decide) <| .kindIf hk <|
      .bind (invocation_reads hi hd hphrase hj.1 hj.2) .pure
  | isConstant | isImmutable => exact hitem.elim

/-- The attributes of a function are read up to its results or its body. -/
theorem functionAttributes_reads {items : List Attribute}
    (hitems : ∀ item ∈ items, item.IsOfFunction)
    (h : scope.lexemes.Spells i (Symbol.attributes items) j)
    (hmodifier : ∀ v, .modifier v ∈ items → ∀ n, v.place.first = n →
      scope.lexemes.IsPhrase n (.invocation v) v.place.next)
    (hsize : i ≤ scope.lexemes.size)
    (hj : scope.lexemes.kindAt j = .kwReturns ∨ scope.lexemes.kindAt j = .lbrace ∨
      scope.lexemes.kindAt j = .semicolon) :
    (functionAttributes inner).Reads scope i (FunctionAttributes.ofItems items) j := by
  have hnone : (functionAttribute? inner (FunctionAttributes.ofItems items)).Reads scope j none
      j := by
    refine .bind (visibility?_reads_none ?_) <| .bind (mutability?_reads_none ?_) <|
      .eatElse ?_ <| .eatElse ?_ <| .kindElse ?_ .pure
    all_goals rcases hj with hk | hk | hk <;> rw [hk] <;> first | rfl | decide
  refine .iterate (attributes_rounds h ?_ ?_ ?_) hnone (spells_attributes_le h hsize)
  · exact fun v hv => (hmodifier v hv _ rfl).invocation_begins
  · rcases hj with hk | hk | hk <;> rw [hk] <;> exact ⟨by decide, by decide⟩
  · intro item hitem kept n m hn hspells hm
    exact functionAttribute?_reads hi (by omega) (hitems item hitem) hspells
      (fun v hv => hmodifier v (hv ▸ hitem)) hm

/-! ### Members of contracts -/

/-- A value is read, or none where no equals sign follows. -/
theorem initialValue?_reads {value : Option (Expression Extent)}
    (h : scope.lexemes.Spells i (Symbol.initialValue value) j)
    (hall : ∀ e ∈ value, e.IsWhole ∧ ∀ n, e.place.first = n →
      scope.lexemes.IsPhrase n (.expression e) e.place.next)
    (hj : scope.lexemes.kindAt j = .semicolon) : (initialValue? inner).Reads scope i value j := by
  cases value with
  | none =>
    obtain rfl : i = j := h
    exact .eatElse (by rw [hj]; decide) .pure
  | some e =>
    obtain ⟨⟨-, heq⟩, ⟨hfirst, -⟩, rfl⟩ := h
    exact .eatIf (by decide) heq <| .map <| hi.expression (by omega)
      ⟨(hall e rfl).2 _ hfirst, (hall e rfl).1, .of_ends hj (by decide)⟩

/-- A state variable is read, with its semicolon. -/
theorem stateVariable_reads {declaration : StateVariable Extent}
    (h : scope.lexemes.IsPhrase i (.member (.stateVariable declaration)) j) :
    (stateVariable inner).Reads scope i declaration j := by
  obtain ⟨symbols, hphrased, hspells⟩ := h.written
  cases hphrased with
  | @stateVariable place type name items value hitems =>
    obtain rfl : place = ⟨i, j⟩ := h.place
    obtain ⟨l, hfront, ⟨-, hsemi⟩, rfl⟩ := Lexemes.spells_append.mp hspells
    obtain ⟨k, ⟨⟨hfirst, hcovers⟩, hattributes⟩, ⟨-, hk, rfl⟩, hvalue⟩ :=
      Lexemes.spells_append.mp hfront
    have hlt := hcovers.nonempty
    have hle := hattributes.inside.1
    have htype : scope.lexemes.IsPhrase i (.typeName type) type.place.next :=
      h.right_below (List.mem_cons_self ..) (List.mem_cons_self ..) hfirst
    have hbracket : scope.lexemes.kindAt type.place.next ≠ .lbracket := by
      rcases Attribute.begins_of_mem hattributes fun v hv => (hitems _ hv).elim with
        ⟨-, heq⟩ | hbegins
      · rw [heq, hk]
        decide
      · intro hbracket
        rw [hbracket] at hbegins
        cases hbegins
    have hexpression (e) (he : e ∈ value) : e.IsWhole ∧ ∀ n, e.place.first = n →
        scope.lexemes.IsPhrase n (.expression e) e.place.next := by
      have hchild : Part.expression e ∈ value.toList.map (Part.expression (F := .parsed)) :=
        List.mem_map_of_mem (Option.mem_toList.mpr he)
      exact ⟨h.tight _ (List.mem_cons_of_mem _ <| List.mem_cons_of_mem _ <|
          List.mem_cons_self ..) e hchild,
        fun n => h.right_below (List.mem_cons_of_mem _ <| List.mem_cons_of_mem _ <|
          List.mem_cons_self ..) hchild⟩
    have hread : (initialValue? inner).Reads { scope with speculative := true } (k + 1) value l :=
      initialValue?_reads hi (by dsimp only; omega) hvalue hexpression hsemi
    exact .attempt <| .ofParser <| .within <| .bind .position <|
      .bind (.finish (hi.typeName (by dsimp only; omega) htype hbracket)) <|
      .bind (variableAttributes_reads htype.le_size hitems hattributes hk) <|
      .bind (.expectIdent hk) <| .bind hread <| .bind (.expect (by decide) hsemi) <|
      .bind .extentFrom .pure

/-- An event is read. -/
theorem eventDefinition_reads {definition : EventDefinition Extent}
    (h : scope.lexemes.IsPhrase i (.member (.event definition)) j) :
    (eventDefinition inner).Reads scope i definition j := by
  obtain ⟨symbols, hphrased, hspells⟩ := h.written
  cases hphrased with
  | @event place name parameters isAnonymous =>
    obtain rfl : place = ⟨i, j⟩ := h.place
    obtain ⟨l, hfront, ⟨-, hsemi⟩, rfl⟩ := Lexemes.spells_append.mp hspells
    obtain ⟨k, ⟨⟨-, hk⟩, ⟨-, hname, rfl⟩, hparameters⟩, hanonymous⟩ :=
      Lexemes.spells_append.mp hfront
    have hread : (Grammar.parameters inner.typeName true).Reads scope (i + 2) parameters k :=
      parameters_reads hi.typeName (by omega) hparameters
        (fun p hp n => h.right_below (List.mem_cons_self ..) (List.mem_map_of_mem hp))
        fun _ _ _ => rfl
    exact keywordRule_reads hk <| .bind .position <| .bind (.advance (by rw [hk]; decide)) <|
      .bind (.expectIdent hname) <| .bind hread <|
      .bind (eatWord_reads hanonymous (by rw [hsemi]; decide)) <|
      .bind (.expect (by decide) hsemi) <| .bind .extentFrom .pure

/-- An error is. -/
theorem errorDefinition_reads {definition : ErrorDefinition Extent}
    (h : scope.lexemes.IsPhrase i (.member (.error definition)) j) :
    (errorDefinition inner).Reads scope i definition j := by
  obtain ⟨symbols, hphrased, hspells⟩ := h.written
  cases hphrased with
  | @error place name parameters hindexed =>
    obtain rfl : place = ⟨i, j⟩ := h.place
    obtain ⟨k, ⟨⟨-, hk, hword⟩, ⟨-, hname, rfl⟩, hparameters⟩, ⟨-, hsemi⟩, rfl⟩ :=
      Lexemes.spells_append.mp hspells
    have hread : (Grammar.parameters inner.typeName).Reads scope (i + 2) parameters k := by
      refine parameters_reads hi.typeName (by omega) hparameters
        (fun p hp n => h.right_below (List.mem_cons_self ..) (List.mem_map_of_mem hp)) ?_
      intro p hp hsome
      rw [hindexed p hp] at hsome
      cases hsome
    exact wordRule_reads ⟨hk, hword⟩ hname <| .bind .position <|
      .bind (.advance (by rw [hk]; decide)) <| .bind (.expectIdent hname) <| .bind hread <|
      .bind (.expect (by decide) hsemi) <| .bind .extentFrom .pure

/-- The members of a struct are read up to the closing brace. -/
theorem structMembers_gathers {members : List (VariableDeclaration Extent)}
    (h : scope.lexemes.Spells i
      (members.flatMap (fun m => [.part m.place, .token .semicolon]) ++ [.token .rbrace]) j)
    (hall : ∀ m ∈ members, ∀ n, m.place.first = n →
      scope.lexemes.IsPhrase n (.declared m) m.place.next) :
    Parser.Gathers scope (structMember? inner) i members j := by
  induction members generalizing i with
  | nil =>
    obtain ⟨⟨-, hk⟩, rfl⟩ := h
    exact .nil (.eatIf (by decide) hk .pure)
  | cons member members ih =>
    obtain ⟨⟨hfirst, -⟩, ⟨-, hsemi⟩, hrest⟩ := h
    obtain ⟨hmember, hall⟩ := List.forall_mem_cons.mp hall
    have hphrase := hmember i hfirst
    have hlt := hphrase.lt
    refine .cons (.eatElse (hphrase.kindAt_ne rfl) <|
      .bind (variableDeclaration_reads hi (by omega) hphrase) <|
      .bind (.expect (by decide) hsemi) .pure) (by omega) (ih (by omega) hrest hall) ?_
    exact Lexemes.lt_size_of_kindAt (by rw [hsemi]; decide)

/-- A structure is, member by member. -/
theorem structDefinition_reads {definition : StructDefinition Extent}
    (h : scope.lexemes.IsPhrase i (.member (.struct definition)) j) :
    (structDefinition inner).Reads scope i definition j := by
  obtain ⟨symbols, hphrased, hspells⟩ := h.written
  cases hphrased with
  | @struct place name members =>
    obtain rfl : place = ⟨i, j⟩ := h.place
    obtain ⟨⟨-, hk⟩, ⟨-, hname, rfl⟩, ⟨-, hopen⟩, hmembers⟩ := hspells
    have hgathers : Parser.Gathers scope (structMember? inner) (i + 3) members j :=
      structMembers_gathers hi (by omega) hmembers
        fun m hm n => h.right_below (List.mem_cons_self ..) (List.mem_map_of_mem hm)
    exact keywordRule_reads hk <| .bind .position <| .bind (.advance (by rw [hk]; decide)) <|
      .bind (.expectIdent hname) <| .bind (.expect (by decide) hopen) <|
      .bind (.collect hgathers) <| .bind .extentFrom .pure

/-- What functions are attached to is read, with the semicolon after it. -/
theorem attachment_reads {α : Type} {target : Option (TypeName Extent)} {isGlobal : Bool}
    {make : Option (TypeName Extent) → Bool → Extent → α} {start : Nat}
    (h : scope.lexemes.Spells i (Symbol.attachment target isGlobal) j)
    (htarget : ∀ type ∈ target, ∀ n, type.place.first = n →
      scope.lexemes.IsPhrase n (.typeName type) type.place.next) :
    Reads scope i (do
      Parser.expect .kwFor
      let target ← attachedType inner
      let isGlobal ← Parser.eatWord "global"
      Parser.expect .semicolon
      return make target isGlobal (← Parser.extentFrom start))
      (make target isGlobal ⟨start, j⟩) j := by
  obtain ⟨l, hfront, ⟨-, hsemi⟩, rfl⟩ := Lexemes.spells_append.mp h
  obtain ⟨k, ⟨⟨-, hfor⟩, htype⟩, hglobal⟩ := Lexemes.spells_append.mp hfront
  -- after the type comes a word, or the semicolon
  have hk : scope.lexemes.kindAt k ≠ .lbracket := by
    cases isGlobal with
    | false =>
      obtain rfl : k = l := hglobal
      rw [hsemi]
      decide
    | true =>
      rw [hglobal.1.2.1]
      decide
  have hread : (attachedType inner).Reads scope (i + 1) target k := by
    cases target with
    | none =>
      obtain ⟨⟨-, hstar⟩, rfl⟩ := htype
      exact .eatIf (by decide) hstar .pure
    | some type =>
      obtain ⟨⟨hfirst, -⟩, rfl⟩ := htype
      have hphrase := htarget type rfl _ hfirst
      refine .eatElse ?_ (.map (.finish (hi.typeName (by omega) hphrase hk)))
      intro hstar
      have hbegins := hphrase.beginsType
      rw [hstar] at hbegins
      cases hbegins
  exact .bind (.expect (by decide) hfor) <| .bind hread <|
    .bind (eatWord_reads hglobal (by rw [hsemi]; decide)) <|
    .bind (.expect (by decide) hsemi) <| .bind .extentFrom .pure

/-- A directive is, whatever it attaches and to which type. -/
theorem usingDirective_reads {directive : UsingDirective Extent}
    (h : scope.lexemes.IsPhrase i (.member (.usingDirective directive)) j) :
    (usingDirective inner).Reads scope i directive j := by
  obtain ⟨symbols, hphrased, hspells⟩ := h.written
  have htarget (type) (ht : type ∈ directive.target) (n) : type.place.first = n →
      scope.lexemes.IsPhrase n (.typeName type) type.place.next :=
    h.right_below (List.mem_cons_self ..) (List.mem_map_of_mem (Option.mem_toList.mpr ht))
  cases hphrased with
  | @usingLibrary place first more target isGlobal =>
    obtain rfl : place = ⟨i, j⟩ := h.place
    obtain ⟨k, ⟨⟨-, hk⟩, hnames⟩, hattached⟩ := Lexemes.spells_append.mp hspells
    have hle := hnames.inside.1
    have hfor : scope.lexemes.kindAt k = .kwFor := hattached.1.2
    have hread : attachedFunctions.Reads scope (i + 1) (some (dotted first more), []) k :=
      .eatElse (by rw [hnames.1.2.1]; decide) <|
        .bind (namePath_reads hnames (by rw [hfor]; decide)) .pure
    exact keywordRule_reads hk <| .bind .position <| .bind (.advance (by rw [hk]; decide)) <|
      .bind hread <| attachment_reads hi (by omega) hattached htarget
  | @usingFunctions place functions target isGlobal =>
    obtain rfl : place = ⟨i, j⟩ := h.place
    obtain ⟨k, ⟨⟨-, hk⟩, ⟨-, hopen⟩, hlist⟩, hattached⟩ := Lexemes.spells_append.mp hspells
    have hle := hlist.inside.1
    have hread : attachedFunctions.Reads scope (i + 1)
        (none, functions.map (·.path.path)) k := by
      refine .eatIf (by decide) hopen <| .bind (paths_reads (by decide) hlist) ?_
      rw [List.map_map]
      exact .pure
    exact keywordRule_reads hk <| .bind .position <| .bind (.advance (by rw [hk]; decide)) <|
      .bind hread <| attachment_reads hi (by omega) hattached htarget

end Nested

/-! ### Declarations of names alone -/

/-- A name is read where one is expected. -/
theorem expectIdent_reads {name : Identifier Extent}
    (h : scope.lexemes.IsPhrase i (.identifier name) j) :
    Parser.expectIdent.Reads scope i name j := by
  obtain ⟨hk, rfl, rfl⟩ := identifier_of_isPhrase h
  exact .expectIdent hk

/-- An enumeration is read, name by name. -/
theorem enumDefinition_reads {definition : EnumDefinition Extent}
    (h : scope.lexemes.IsPhrase i (.member (.enumeration definition)) j) :
    enumDefinition.Reads scope i definition j := by
  obtain ⟨symbols, hphrased, hspells⟩ := h.written
  cases hphrased with
  | @enumeration place name members =>
    obtain rfl : place = ⟨i, j⟩ := h.place
    obtain ⟨⟨-, hk⟩, ⟨-, hname, rfl⟩, ⟨-, hopen⟩, hmembers⟩ := hspells
    have hmember {m n} (hm : m ∈ members) (hfirst : m.place.first = n) :
        scope.lexemes.IsPhrase n (.identifier m) m.place.next :=
      h.right_below (List.mem_cons_self ..) (List.mem_map_of_mem hm) hfirst
    have hread : (Parser.series .rbrace Parser.expectIdent).Reads scope (i + 3) members j := by
      refine .series (by decide) hmembers ?_ ?_
      · intro hsome
        obtain ⟨m, rest, rfl⟩ := List.exists_cons_of_ne_nil hsome
        obtain ⟨k, hfirst, -⟩ := hmembers.series_cons
        exact (hmember (List.mem_cons_self ..) hfirst.1.1).kindAt_ne rfl
      · intro m hm n l hn hitem hend
        obtain ⟨⟨hfirst, -⟩, rfl⟩ := hitem
        exact expectIdent_reads (hmember hm hfirst)
    exact keywordRule_reads hk <| .bind .position <| .bind (.advance (by rw [hk]; decide)) <|
      .bind (.expectIdent hname) <| .bind (.expect (by decide) hopen) <| .bind hread <|
      .bind .extentFrom .pure

/-- The name of a built-in type is read, with the word `payable` if it may follow. -/
theorem elementaryType_reads {place : Extent} {name : String} {payable : Bool}
    (h : scope.lexemes.IsPhrase i (.typeName (.elementary place name payable)) j) :
    elementaryType.Reads scope i (⟨place, name⟩, payable) j := by
  obtain ⟨hk, rfl, helementary, hpayable⟩ := payableAfter_reads h
  obtain rfl : place = ⟨i, j⟩ := h.place
  refine .bind .position <| .bind .text <| .bind .kind ?_
  rw [if_pos ⟨hk, helementary⟩]
  exact .bind (.advance (by rw [hk]; decide)) <| .bind hpayable <| .bind .extentFrom .pure

/-- A value type is. -/
theorem valueTypeDefinition_reads {definition : ValueTypeDefinition Extent}
    (h : scope.lexemes.IsPhrase i (.member (.valueType definition)) j) :
    valueTypeDefinition.Reads scope i definition j := by
  obtain ⟨symbols, hphrased, hspells⟩ := h.written
  cases hphrased with
  | @valueType place basePlace name baseName payable =>
    obtain rfl : place = ⟨i, j⟩ := h.place
    obtain ⟨⟨-, hk⟩, ⟨-, hname, rfl⟩, ⟨-, his⟩, ⟨hfirst, -⟩, ⟨-, hsemi⟩, rfl⟩ := hspells
    have hbase : scope.lexemes.IsPhrase (i + 3)
        (.typeName (.elementary basePlace baseName payable)) basePlace.next :=
      h.right_below (List.mem_cons_self ..) (List.mem_singleton_self _) hfirst
    exact .provided (by simp [hname]) <| keywordRule_reads hk <| .bind .position <|
      .bind (.advance (by rw [hk]; decide)) <| .bind (.expectIdent hname) <|
      .bind (.expect (by decide) his) <| .bind (elementaryType_reads hbase) <|
      .bind (.expect (by decide) hsemi) <| .bind .extentFrom .pure

/-! ### Units of a source -/

/-- A string is read where one is expected. -/
theorem expectString_reads {raw : String}
    (h : scope.lexemes.Spells i [.word .string raw] j) :
    expectString.Reads scope i (Quoted.valueOf raw) j := by
  obtain ⟨⟨-, hk, rfl⟩, rfl⟩ := h
  exact .bind .text <| .bind (.expect (by decide) hk) .pure

/-- The tokens up to a semicolon are skipped. -/
theorem skipToSemicolon_reads {kinds : List Kind} (hi : i ≤ scope.lexemes.size)
    (hkinds : ∀ k ∈ kinds, k ≠ .semicolon) (h : scope.lexemes.Spells i (kinds.map .token) j)
    (hj : scope.lexemes.kindAt j = .semicolon) : skipToSemicolon.Reads scope i () j := by
  have rounds : ∀ (kinds : List Kind) (i : Nat), (∀ k ∈ kinds, k ≠ .semicolon) →
      scope.lexemes.Spells i (kinds.map .token) j →
      Rounds scope (fun _ : Unit => do
        let here ← Parser.kind
        if here = .semicolon ∨ here = .eof then return none
        Parser.advance
        return some ()) () i () j := by
    intro kinds
    induction kinds with
    | nil =>
      rintro i - rfl
      exact .refl _ _
    | cons k kinds ih =>
      rintro i hkinds ⟨⟨hne, hk⟩, hrest⟩
      obtain ⟨hsemi, hkinds⟩ := List.forall_mem_cons.mp hkinds
      refine .head (.bind .kind ?_) (Nat.lt_succ_self i) (ih _ hkinds hrest)
      rw [hk, if_neg (not_or.mpr ⟨hsemi, hne⟩)]
      exact .bind (.advance (by rwa [hk])) .pure
  have hsize : j ≤ scope.lexemes.size := by
    rcases Nat.eq_or_lt_of_le h.inside.1 with rfl | hlt
    · exact hi
    · exact h.le_size hlt
  refine .bind (.iterate (rounds kinds i hkinds h) (.bind .kind ?_) hsize) .pure
  rw [if_pos (.inl hj)]
  exact .pure

/-- A pragma of one of the three kinds. -/
def IsPragma {F : Form} : SourceUnit F → Prop
  | .pragma _ | .coderPragma _ | .experimentalPragma _ => True
  | _ => False

/-- A pragma is read up to its semicolon, and its text is cut out later. -/
theorem pragmaDirective_reads {unit : SourceUnit .parsed} (hunit : IsPragma unit)
    (h : scope.lexemes.IsPhrase i (.unit unit) j) : pragmaDirective.Reads scope i unit j := by
  obtain ⟨symbols, hphrased, hspells⟩ := h.written
  have hfrom {α : Type} {v : α} {p : Nat → Identifier Extent → Parser α}
      (hk : scope.lexemes.kindAt i = .kwPragma) (hname : scope.lexemes.kindAt (i + 1) = .ident)
      (hp : (p i ⟨Extent.single (i + 1), scope.lexemes.textAt (i + 1)⟩).Reads scope (i + 2) v j) :
      Reads scope i (do
        let start ← Parser.position
        Parser.advance
        let name ← Parser.expectIdent
        p start name) v j :=
    .bind .position <| .bind (.advance (by rw [hk]; decide)) <| .bind (.expectIdent hname) hp
  cases hphrased with
  | @coderPragma place version =>
    obtain rfl : place = ⟨i, j⟩ := h.place
    obtain ⟨⟨-, hk⟩, ⟨-, hname, hword⟩, ⟨hfirst, -⟩, ⟨-, hsemi⟩, rfl⟩ := hspells
    have hversion : scope.lexemes.IsPhrase (i + 2) (.identifier version) version.place.next :=
      h.right_below (List.mem_cons_self ..) (List.mem_singleton_self _) hfirst
    refine keywordRule_reads hk (hfrom hk hname ?_)
    dsimp only
    rw [hword]
    exact .bind (expectIdent_reads hversion) <| .bind (.expect (by decide) hsemi) <|
      .bind .extentFrom .pure
  | @experimentalName place feature =>
    obtain rfl : place = ⟨i, j⟩ := h.place
    obtain ⟨⟨-, hk⟩, ⟨-, hname, hword⟩, ⟨-, hident, rfl⟩, ⟨-, hsemi⟩, rfl⟩ := hspells
    refine keywordRule_reads hk (hfrom hk hname ?_)
    dsimp only
    rw [hword]
    exact .bind (.bind .text <| .eatIf (by decide) hident .pure) <|
      .bind (.expect (by decide) hsemi) <| .bind .extentFrom .pure
  | @experimentalString place raw =>
    obtain rfl : place = ⟨i, j⟩ := h.place
    obtain ⟨⟨-, hk⟩, ⟨-, hname, hword⟩, ⟨-, hstring, rfl⟩, ⟨-, hsemi⟩, rfl⟩ := hspells
    refine keywordRule_reads hk (hfrom hk hname ?_)
    dsimp only
    rw [hword]
    exact .bind (.bind .text <| .eatElse (by rw [hstring]; decide) <|
        expectString_reads ⟨⟨by decide, hstring, rfl⟩, rfl⟩) <|
      .bind (.expect (by decide) hsemi) <| .bind .extentFrom .pure
  | @pragma place value name kinds hplain hkinds =>
    obtain rfl : place = ⟨i, j⟩ := h.place
    obtain ⟨k, ⟨⟨-, hk⟩, ⟨-, hname, rfl⟩, hvalue, hskipped⟩, hend, ⟨-, hsemi⟩, rfl⟩ :=
      Lexemes.spells_append.mp hspells
    refine keywordRule_reads hk (hfrom hk hname ?_)
    dsimp only
    split
    · exact absurd ‹_› hplain.1
    · exact absurd ‹_› hplain.2
    · obtain ⟨first, next⟩ := value
      obtain rfl : first = i + 2 := hvalue
      obtain rfl : next = k := hend
      have hsize := Lexemes.lt_size_of_kindAt
        (by rw [hname]; decide : scope.lexemes.kindAt (i + 1) ≠ .eof)
      exact .bind .position <| .bind (skipToSemicolon_reads hsize hkinds hskipped hsemi) <|
        .bind .extentFrom <| .bind (.expect (by decide) hsemi) <| .bind .extentFrom .pure
  | @unit unit _ _ hmember =>
    cases unit <;> first
      | exact hunit.elim
      | cases hmember
  | _ => exact hunit.elim

/-! ### Imports -/

/-- A new name is read, or none where no `as` comes next. -/
theorem newName?_reads {newName : Option String}
    (h : scope.lexemes.Spells i (Symbol.newName newName) j)
    (hj : scope.lexemes.kindAt j ≠ .kwAs) : newName?.Reads scope i newName j := by
  cases newName with
  | none =>
    obtain rfl : i = j := h
    exact .eatElse hj .pure
  | some name =>
    obtain ⟨⟨-, hk⟩, ⟨-, hname, rfl⟩, rfl⟩ := h
    exact .eatIf (by decide) hk <| .bind (.expectIdent hname) .pure

/-- An imported symbol is read with its new name. -/
theorem importSymbol_reads {symbol : ImportSymbol Extent}
    (h : scope.lexemes.IsPhrase i (.importSymbol symbol) j)
    (hj : scope.lexemes.kindAt j ≠ .kwAs) : importSymbol.Reads scope i symbol j := by
  obtain ⟨symbols, hphrased, hspells⟩ := h.written
  cases hphrased with
  | @importSymbol place name newName =>
    obtain rfl : place = ⟨i, j⟩ := h.place
    obtain ⟨⟨-, hk, rfl⟩, hnew⟩ := hspells
    exact .bind (.expectIdent hk) <| .bind (newName?_reads hnew hj) <| .bind .extentFrom .pure

/-- What an import takes its names from is read, with the semicolon after it. -/
theorem origin_reads {α : Type} {raw : String} {make : String → Extent → α} {start : Nat}
    (h : scope.lexemes.Spells i (Symbol.origin raw) j) :
    Reads scope i (do
      Parser.expectWord "from"
      let path ← expectString
      Parser.expect .semicolon
      return make path (← Parser.extentFrom start)) (make (Quoted.valueOf raw) ⟨start, j⟩) j := by
  obtain ⟨⟨-, hfrom, hword⟩, ⟨-, hstring, hraw⟩, ⟨-, hsemi⟩, rfl⟩ := h
  exact .bind (expectWord_reads hfrom hword) <|
    .bind (expectString_reads ⟨⟨by decide, hstring, hraw⟩, rfl⟩) <|
    .bind (.expect (by decide) hsemi) <| .bind .extentFrom .pure

/-- An import is read in whichever of its forms it is. -/
theorem importDirective_reads {directive : ImportDirective Extent}
    (h : scope.lexemes.IsPhrase i (.unit (.importDirective directive)) j) :
    importDirective.Reads scope i directive j := by
  obtain ⟨symbols, hphrased, hspells⟩ := h.written
  cases hphrased with
  | @importFile place raw newName =>
    obtain rfl : place = ⟨i, j⟩ := h.place
    obtain ⟨l, ⟨⟨-, hk⟩, ⟨-, hstring, hraw⟩, hnew⟩, ⟨-, hsemi⟩, rfl⟩ :=
      Lexemes.spells_append.mp hspells
    exact keywordRule_reads hk <| .bind .position <| .bind (.advance (by rw [hk]; decide)) <|
      .bind (.check hstring) <|
      .bind (expectString_reads ⟨⟨by decide, hstring, hraw⟩, rfl⟩) <|
      .bind (newName?_reads hnew (by rw [hsemi]; decide)) <|
      .bind (.expect (by decide) hsemi) <| .bind .extentFrom .pure
  | @importAll place raw newName =>
    obtain rfl : place = ⟨i, j⟩ := h.place
    obtain ⟨⟨-, hk⟩, ⟨-, hstar⟩, ⟨-, has⟩, ⟨-, hname, rfl⟩, horigin⟩ := hspells
    have hread : importedNames.Reads scope (i + 1)
        (some (scope.lexemes.textAt (i + 3)), none) (i + 4) :=
      .eatIf (by decide) hstar <| .bind (.expect (by decide) has) <|
        .bind (.expectIdent hname) .pure
    exact keywordRule_reads hk <| .bind .position <| .bind (.advance (by rw [hk]; decide)) <|
      .bind (.check_not (by rw [hstar]; decide)) <| .bind hread <| origin_reads horigin
  | @importNames place raw names =>
    obtain rfl : place = ⟨i, j⟩ := h.place
    obtain ⟨k, ⟨⟨-, hk⟩, ⟨-, hopen⟩, hlist⟩, horigin⟩ := Lexemes.spells_append.mp hspells
    have hsymbol {m n} (hm : m ∈ names) (hfirst : m.place.first = n) :
        scope.lexemes.IsPhrase n (.importSymbol m) m.place.next :=
      h.right_below (List.mem_cons_self ..) (List.mem_map_of_mem hm) hfirst
    have hread : importedNames.Reads scope (i + 1) (none, some names) k := by
      refine .eatElse (by rw [hopen]; decide) <| .eatIf (by decide) hopen <|
        .bind (.series (by decide) hlist ?_ ?_) .pure
      · intro hsome
        obtain ⟨m, rest, rfl⟩ := List.exists_cons_of_ne_nil hsome
        obtain ⟨l, hfirst, -⟩ := hlist.series_cons
        exact (hsymbol (List.mem_cons_self ..) hfirst.1.1).kindAt_ne rfl
      · intro m hm n l hn hitem hend
        obtain ⟨⟨hfirst, -⟩, rfl⟩ := hitem
        exact importSymbol_reads (hsymbol hm hfirst)
          (by rcases hend with hk | hk <;> rw [hk] <;> decide)
    exact keywordRule_reads hk <| .bind .position <| .bind (.advance (by rw [hk]; decide)) <|
      .bind (.check_not (by rw [hopen]; decide)) <| .bind hread <| origin_reads horigin
  | unit hmember => cases hmember

/-! ### Constants -/

/-- A constant outside contracts is read. -/
theorem fileConstant_reads (hi : inner.Complete depth) (hd : scope.lexemes.size < i + depth)
    {declaration : FileConstant Extent}
    (h : scope.lexemes.IsPhrase i (.unit (.constant declaration)) j) :
    (fileConstant inner).Reads scope i declaration j := by
  obtain ⟨symbols, hphrased, hspells⟩ := h.written
  cases hphrased with
  | @constant place type name value =>
    obtain rfl : place = ⟨i, j⟩ := h.place
    obtain ⟨⟨hfirst, hcovers⟩, ⟨-, hconstant⟩, ⟨-, hname, rfl⟩, ⟨-, heq⟩, ⟨hvalue, -⟩,
      ⟨-, hsemi⟩, rfl⟩ := hspells
    have hlt := hcovers.nonempty
    have htype : scope.lexemes.IsPhrase i (.typeName type) type.place.next :=
      h.right_below (List.mem_cons_self ..) (List.mem_cons_self ..) hfirst
    have he : scope.lexemes.IsPhrase (type.place.next + 3) (.expression value) value.place.next :=
      h.right_below (List.mem_cons_of_mem _ (List.mem_cons_self ..)) (List.mem_cons_self ..) hvalue
    have hwhole : value.IsWhole := h.tight _ (List.mem_cons_of_mem _ (List.mem_cons_self ..)) _
      (List.mem_cons_self ..)
    exact .attempt <| .ofParser <| .bind .position <|
      .bind (.finish (hi.typeName (by dsimp only; omega) htype (by rw [hconstant]; decide))) <|
      .bind (.expect (by decide) hconstant) <| .bind (.expectIdent hname) <|
      .bind (.expect (by decide) heq) <|
      .bind (hi.expression (by dsimp only; omega) ⟨he, hwhole, .of_ends hsemi (by decide)⟩) <|
      .bind (.expect (by decide) hsemi) <| .bind .extentFrom .pure
  | unit hmember => cases hmember

end Grammar

end SolidityParser
