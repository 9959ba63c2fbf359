import SolidityParser.Proofs.Production.Begin
import SolidityParser.Proofs.Production.Move

/-!
# Phrases in other inputs

What is written in one input is written in another if the words are the same there, and what must
not come next does not (`Spells.carry`). For a phrase it is enough that the word after it is the
same, unless that is a point (`IsPhrase.carry`); a declaration, which ends with a token of its own,
does not depend on what follows it at all (`IsPhrase.carry_of_closed`).
-/

namespace SolidityParser

open SolidityParser.Symbol (option separated series parts)

namespace Lexemes

variable {lexemes other : Lexemes} {f : Nat → Nat} {i j k n : Nat} {symbols : List Symbol}

/-! ### Words that are kept -/

/-- The word at an index is kept in another input, where no word comes between it and the next. -/
structure Keeps (lexemes other : Lexemes) (f : Nat → Nat) (n : Nat) : Prop where
  /-- The word is there. -/
  word : other.lexemeAt (f n) = lexemes.lexemeAt n
  /-- The next index goes to the one after it. -/
  next : f (n + 1) = f n + 1

namespace Keeps

theorem kindAt (h : lexemes.Keeps other f n) : other.kindAt (f n) = lexemes.kindAt n :=
  congrArg Lexeme.kind h.word

theorem textAt (h : lexemes.Keeps other f n) : other.textAt (f n) = lexemes.textAt n :=
  congrArg Lexeme.text h.word

/-- One word ahead is the same. -/
theorem ahead_singleton (h : lexemes.Keeps other f n) {test : Lexeme → Bool} :
    other.Ahead (f n) [test] ↔ lexemes.Ahead n [test] := by
  simp only [ahead_cons, ahead_nil, h.word, h.kindAt]

/-- Where words are kept one after the other, they stay together. -/
theorem add (h : ∀ n, i ≤ n → n < j → lexemes.Keeps other f n) (hle : i + k ≤ j) :
    f (i + k) = f i + k := by
  induction k with
  | zero => rfl
  | succ k ih => rw [← Nat.add_assoc, (h (i + k) (by omega) (by omega)).next, ih (by omega)]; omega

/-- Each word between where kept words go is one of them. -/
theorem exists_of_between (h : ∀ n, i ≤ n → n < j → lexemes.Keeps other f n) {m : Nat}
    (hi : f i ≤ m) (hj : m < f j) (hle : i ≤ j) : ∃ n, i ≤ n ∧ n < j ∧ f n = m := by
  have hend := add h (k := j - i) (by omega)
  rw [show i + (j - i) = j by omega] at hend
  refine ⟨i + (m - f i), by omega, by omega, ?_⟩
  rw [add h (by omega)]
  omega

/-- Words that are kept one after the other are kept on the way back. -/
theorem back (h : ∀ n, i ≤ n → n < j → lexemes.Keeps other f n) {m : Nat} (hi : f i ≤ m)
    (hj : m < f j) (hle : i ≤ j) : other.Keeps lexemes (fun m => i + (m - f i)) m := by
  obtain ⟨n, hn, hlt, rfl⟩ := exists_of_between h hi hj hle
  have hadd := add h (k := n - i) (by omega)
  rw [show i + (n - i) = n by omega] at hadd
  refine ⟨?_, by omega⟩
  rw [(h n hn hlt).word, show i + (f n - f i) = n by omega]

end Keeps

/-- An extent of words that are kept holds tokens in the other input. -/
theorem Covers.carry {place : Extent} (h : lexemes.Covers place)
    (hkept : ∀ n, place.first ≤ n → n < place.next → lexemes.Keeps other f n) :
    other.Covers (place.move f) := by
  have hle := Nat.le_of_lt h.nonempty
  have hend := Keeps.add hkept (k := place.next - place.first) (by omega)
  rw [show place.first + (place.next - place.first) = place.next by omega] at hend
  refine ⟨?_, fun m hi hj => ?_⟩
  · have := h.nonempty
    simp only [Extent.move]
    omega
  · obtain ⟨n, hn, hlt, rfl⟩ := Keeps.exists_of_between hkept hi hj hle
    rw [(hkept n hn hlt).kindAt]
    exact h.inside n hn hlt

/-! ### Symbols -/

theorem Steps.carry {names : List String} (h : lexemes.Steps i names j)
    (hkept : ∀ n, i ≤ n → n < j → lexemes.Keeps other f n) : other.Steps (f i) names (f j) := by
  induction names generalizing i with
  | nil => exact congrArg f h
  | cons name names ih =>
    obtain ⟨⟨hdot, hname, htext⟩, hrest⟩ := h
    have hle := hrest.inside.1
    have hi := hkept i (by omega) (by omega)
    have hnext := hkept (i + 1) (by omega) (by omega)
    have htail := ih hrest fun n hn hlt => hkept n (by omega) hlt
    rw [show i + 2 = i + 1 + 1 from rfl, hnext.next, hi.next] at htail
    refine ⟨⟨hi.kindAt.trans hdot, ?_, ?_⟩, htail⟩
    · rw [← hi.next, hnext.kindAt, hname]
    · rw [← hi.next, hnext.textAt, htext]

theorem mem_parts_of_part {place : Extent} (h : Symbol.part place ∈ symbols) :
    place ∈ Symbol.parts symbols := by
  induction symbols with
  | nil => cases h
  | cons symbol symbols ih =>
    rcases List.mem_cons.mp h with rfl | hmem
    · exact List.mem_cons_self ..
    · cases symbol <;> simp [Symbol.parts, ih hmem]

/-- Symbols are spelled in another input if what they spell is kept but for the smaller constructs,
these are there, and what must not come next does not. -/
theorem Spells.carry (h : lexemes.Spells i symbols j)
    (hkept : ∀ n, i ≤ n → n < j →
      (∀ place, .part place ∈ symbols → ¬ (place.first ≤ n ∧ n < place.next)) →
        lexemes.Keeps other f n)
    (hparts : ∀ place, .part place ∈ symbols → other.Covers (place.move f))
    (hno : ∀ front tests rest k, symbols = front ++ .no tests :: rest → lexemes.Spells i front k →
      lexemes.Spells k rest j → ¬ lexemes.Ahead k tests → ¬ other.Ahead (f k) tests) :
    other.Spells (f i) (symbols.map (.move f)) (f j) := by
  induction symbols generalizing i with
  | nil => exact congrArg f h
  | cons symbol symbols ih =>
    -- what is spelled first, up to an index, leaves the rest to be carried from there
    have hrest {k : Nat} (hfirst : lexemes.Spells i [symbol] k)
        (hspells : lexemes.Spells k symbols j)
        (hbefore : ∀ place, symbol = .part place → place.next = k) :
        other.Spells (f k) (symbols.map (.move f)) (f j) := by
      refine ih hspells (fun n hn hj hout => hkept n ?_ hj fun place hplace => ?_)
        (fun place hplace => hparts place (List.mem_cons_of_mem _ hplace))
        (fun front tests rest l hsplit hfront =>
          hno (symbol :: front) tests rest l (by rw [hsplit]; rfl) (hfirst.append hfront))
      · have := hfirst.inside.1
        omega
      · rcases List.mem_cons.mp hplace with hplace | hplace
        · have := hbefore place hplace.symm
          omega
        · exact hout place hplace
    -- no smaller construct of the rest begins before that
    have hout {n k : Nat} (hspells : lexemes.Spells k symbols j)
        (hsymbol : ∀ place, symbol ≠ .part place) (hn : n < k) (place : Extent)
        (hplace : .part place ∈ symbol :: symbols) : ¬ (place.first ≤ n ∧ n < place.next) := by
      rcases List.mem_cons.mp hplace with hplace | hplace
      · exact absurd hplace.symm (hsymbol place)
      · have := (hspells.part_inside (mem_parts_of_part hplace)).1
        omega
    cases symbol with
    | token kind =>
      obtain ⟨⟨hne, hkind⟩, hspells⟩ := h
      have hle := hspells.inside.1
      have hkeeps := hkept i (Nat.le_refl _) (by omega) (hout hspells nofun (by omega))
      have hcarried := hrest (k := i + 1) ⟨⟨hne, hkind⟩, rfl⟩ hspells nofun
      rw [hkeeps.next] at hcarried
      exact ⟨⟨hne, hkeeps.kindAt.trans hkind⟩, hcarried⟩
    | word kind text =>
      obtain ⟨⟨hne, hkind, htext⟩, hspells⟩ := h
      have hle := hspells.inside.1
      have hkeeps := hkept i (Nat.le_refl _) (by omega) (hout hspells nofun (by omega))
      have hcarried := hrest (k := i + 1) ⟨⟨hne, hkind, htext⟩, rfl⟩ hspells nofun
      rw [hkeeps.next] at hcarried
      exact ⟨⟨hne, hkeeps.kindAt.trans hkind, hkeeps.textAt.trans htext⟩, hcarried⟩
    | part place =>
      obtain ⟨⟨hfirst, hcovers⟩, hspells⟩ := h
      exact ⟨⟨congrArg f hfirst, hparts place (List.mem_cons_self ..)⟩,
        hrest ⟨⟨hfirst, hcovers⟩, rfl⟩ hspells fun other hother => by cases hother; rfl⟩
    | path place first more =>
      have hcovers := h.path_covers.nonempty
      obtain ⟨⟨rfl, ⟨hident, htext⟩, hsteps⟩, hspells⟩ := h
      have hle := hspells.inside.1
      have hkeeps (n : Nat) (hn : place.first ≤ n) (hlt : n < place.next) :
          lexemes.Keeps other f n :=
        hkept n hn (by omega) (hout hspells nofun hlt)
      have hhead := hkeeps place.first (Nat.le_refl _) hcovers
      have htail := hsteps.carry fun n hn hlt => hkeeps n (by omega) hlt
      rw [hhead.next] at htail
      exact ⟨⟨rfl, ⟨hhead.kindAt.trans hident, hhead.textAt.trans htext⟩, htail⟩,
        hrest ⟨⟨rfl, ⟨hident, htext⟩, hsteps⟩, rfl⟩ hspells nofun⟩
    | no tests =>
      obtain ⟨hahead, hspells⟩ := h
      exact ⟨hno [] tests symbols i rfl rfl hspells hahead, hrest ⟨hahead, rfl⟩ hspells nofun⟩
    | here index =>
      obtain ⟨hindex, hspells⟩ := h
      exact ⟨congrArg f hindex, hrest ⟨hindex, rfl⟩ hspells nofun⟩

end Lexemes

/-! ### What phrases look ahead for -/

namespace Symbol

variable {symbol : Symbol}

/-- What stands between commas, other than commas, stands in one of the items. -/
theorem mem_separated (h : symbol ≠ .token .comma) : {items : List (List Symbol)} →
    (symbol ∈ separated items ↔ ∃ item ∈ items, symbol ∈ item)
  | [] => by simp [separated]
  | [item] => by simp [separated]
  | item :: other :: items => by
    simp [separated, @mem_separated h (other :: items), h]

theorem mem_series {close : Kind} (h : symbol ≠ .token .comma) (hclose : symbol ≠ .token close)
    {items : List (List Symbol)} :
    symbol ∈ series close items ↔ ∃ item ∈ items, symbol ∈ item := by
  simp [series, mem_separated h, hclose]

/-! Where a production may look ahead. -/

section NoLookahead

variable {tests : Lookahead}

@[simp] theorem no_not_mem_names {first : String} {more : List String} :
    .no tests ∉ names first more := by
  simp [names]

@[simp] theorem no_not_mem_parameters {parameters : List (Parameter Extent)} :
    .no tests ∉ Symbol.parameters parameters := by
  simp [Symbol.parameters, mem_series]

@[simp] theorem no_mem_returns {parameters : Option (List (Parameter Extent))} :
    .no tests ∈ Symbol.returns parameters ↔ parameters = none ∧ tests = .kinds [.kwReturns] := by
  cases parameters <;> simp [Symbol.returns]

@[simp] theorem no_not_mem_arguments {values : Option (List (Expression Extent))} :
    .no tests ∉ Symbol.arguments values := by
  cases values <;> simp [Symbol.arguments, mem_series]

@[simp] theorem no_not_mem_newName {name : Option String} : .no tests ∉ newName name := by
  simp [newName]

@[simp] theorem no_not_mem_initialValue {value : Option (Expression Extent)} :
    .no tests ∉ initialValue value := by
  simp [initialValue]

@[simp] theorem no_not_mem_attachment {target : Option (TypeName Extent)} {isGlobal : Bool} :
    .no tests ∉ attachment target isGlobal := by
  cases target <;> cases isGlobal <;> simp [attachment]

@[simp] theorem no_not_mem_attributes {items : List Attribute} :
    .no tests ∉ Symbol.attributes items := by
  simp only [Symbol.attributes, List.mem_flatMap, not_exists, not_and]
  intro item _
  cases item with
  | overrides bases =>
    cases bases <;>
      simp [Attribute.symbols, Attribute.baseSymbols, mem_series, WrittenPath.symbol]
  | _ => simp [Attribute.symbols]

end NoLookahead

end Symbol

/-- A phrase looks ahead for one word, or for a step of a path. -/
theorem Part.Phrased.lookahead {part : Part .parsed} {symbols : List Symbol} {tests : Lookahead}
    (h : part.Phrased symbols) (hno : .no tests ∈ symbols) :
    (∃ test, tests = [test]) ∨ tests = .step := by
  induction h with
  | unit _ _ ih => exact ih hno
  | path => simp at hno
  | number | string | new =>
    simp at hno
    exact .inl ⟨_, hno⟩
  | elementary =>
    simp at hno
    exact .inl ⟨_, hno.2⟩
  | userDefined =>
    simp at hno
    exact .inr hno
  | functionType =>
    simp at hno
    rcases hno with hno | ⟨-, hno⟩ <;> exact .inl ⟨_, hno⟩
  | _ =>
    simp [Symbol.mem_series, Symbol.mem_separated, option, Symbol.location, Symbol.name,
      Symbol.origin, WrittenPath.symbol] at hno

/-! ### Phrases -/

namespace Lexemes

variable {lexemes other : Lexemes} {f : Nat → Nat} {i j k n : Nat} {part : Part .parsed}

/-- What a phrase that ends at an index must not go on with, does not follow in another input
either. -/
def Sees (lexemes other : Lexemes) (f : Nat → Nat) (n : Nat) : Prop :=
  ∀ tests : Lookahead, (∃ test, tests = [test]) ∨ tests = .step →
    other.Ahead (f n) tests → lexemes.Ahead n tests

/-- It is enough that the word there is kept, and after a point the word after it, if there is one
in the other input. -/
theorem Keeps.sees (h : lexemes.Keeps other f n)
    (hdot : lexemes.kindAt n = .dot →
      lexemes.Keeps other f (n + 1) ∨ other.kindAt (f (n + 1)) = .eof) :
    lexemes.Sees other f n := by
  rintro tests (⟨test, rfl⟩ | rfl) hahead
  · exact h.ahead_singleton.mp hahead
  · obtain ⟨hfirst, hsecond⟩ := ahead_step.mp hahead
    rw [h.kindAt] at hfirst
    rw [← h.next] at hsecond
    rcases hdot hfirst with hnext | hend
    · exact ahead_step.mpr ⟨hfirst, hnext.kindAt.symm.trans hsecond⟩
    · rw [hend] at hsecond
      cases hsecond

/-- Nothing follows where the other input ends. -/
theorem Sees.of_eof (h : other.kindAt (f n) = .eof) : lexemes.Sees other f n := by
  rintro tests (⟨test, rfl⟩ | rfl) hahead
  · exact absurd h hahead.2.1
  · exact absurd h hahead.2.1

/-- A part is written in another input as well if its words are kept, and what its production looks
ahead for is not ahead there. -/
theorem Holds.carry {symbols : List Symbol} (htight : part.Tight) (hphrased : part.Phrased symbols)
    (hspells : lexemes.Spells part.place.first symbols part.place.next)
    (hkept : ∀ n, part.place.first ≤ n → n < part.place.next → lexemes.Keeps other f n)
    (hsees : ∀ front tests rest k, symbols = front ++ .no tests :: rest →
      lexemes.Spells part.place.first front k → lexemes.Spells k rest part.place.next →
        lexemes.Sees other f k) : other.Holds (part.relocate (.move f)) := by
  refine ⟨(Part.tight_relocate _ _).mpr htight, _, hphrased.move, ?_⟩
  rw [Part.place_relocate]
  refine hspells.carry (fun n hn hlt _ => hkept n hn hlt) (fun place hplace => ?_)
    fun front tests rest k hsplit hfront hrest hno hahead => ?_
  · obtain ⟨hi, hj, hcovers⟩ := hspells.part_inside (mem_parts_of_part hplace)
    exact hcovers.carry fun n hn hlt => hkept n (by omega) (by omega)
  · have hmem : .no tests ∈ symbols := hsplit ▸ List.mem_append_right _ (List.mem_cons_self ..)
    exact hno (hsees front tests rest k hsplit hfront hrest tests (hphrased.lookahead hmem) hahead)

/-- A phrase is kept with its words, where what must not come next does not. -/
theorem carry_holds (h : part.All lexemes.Holds)
    (hkept : ∀ n, part.place.first ≤ n → n < part.place.next → lexemes.Keeps other f n)
    (hsees : ∀ n, part.place.first ≤ n → n ≤ part.place.next → lexemes.Sees other f n) :
    (part.relocate (.move f)).All other.Holds := by
  induction part using Part.induction with
  | step part ih =>
    obtain ⟨htight, symbols, hphrased, hspells⟩ := h.here
    refine Part.all_iff.mpr ⟨Holds.carry htight hphrased hspells hkept
      fun _ _ _ k _ hfront hrest => hsees k hfront.inside.1 hrest.inside.1, ?_⟩
    rw [Part.fields_relocate, List.forall_mem_map]
    intro field hfield
    rw [List.forall_mem_map]
    intro child hchild
    have hinside := hphrased.outlined.inside hspells hfield hchild
    exact ih field hfield child hchild (h.below hfield hchild)
      (fun n hn hlt => hkept n (by omega) (by omega))
      (fun n hn hle => hsees n (by omega) (by omega))

/-- A phrase is kept if the word after it is kept as well, and is no point. -/
theorem IsPhrase.carry (h : lexemes.IsPhrase i part j)
    (hkept : ∀ n, i ≤ n → n ≤ j → lexemes.Keeps other f n) (hdot : lexemes.kindAt j ≠ .dot) :
    other.IsPhrase (f i) (part.relocate (.move f)) (f j) := by
  have hplace := h.place
  refine ⟨by rw [Part.place_relocate, hplace]; rfl, carry_holds h.holds ?_ ?_⟩ <;> rw [hplace]
  · exact fun n hn hlt => hkept n hn (Nat.le_of_lt hlt)
  · intro n hn hle
    refine (hkept n hn hle).sees fun hdot' => .inl (hkept (n + 1) (Nat.le_succ_of_le hn) ?_)
    rcases Nat.eq_or_lt_of_le hle with rfl | hlt
    · exact absurd hdot' hdot
    · exact hlt

end Lexemes

/-! ### Phrases that end with a token of their own -/

namespace Lexemes

variable {lexemes other : Lexemes} {f : Nat → Nat} {i j n : Nat} {part : Part .parsed}

/-- Up to a last token that is no point, what comes next is the same. -/
theorem Spells.sees_of_last {front : List Symbol} {kind : Kind}
    (h : lexemes.Spells i (front ++ [.token kind]) j) (hkind : kind ≠ .dot)
    (hkept : ∀ n, i ≤ n → n < j → lexemes.Keeps other f n) (hn : i ≤ n) (hlt : n < j) :
    lexemes.Sees other f n := by
  obtain ⟨k, -, ⟨-, hk⟩, hlast⟩ := spells_append.mp h
  have hnext : k + 1 = j := hlast
  refine (hkept n hn hlt).sees fun hdot => .inl (hkept (n + 1) (by omega) ?_)
  rcases Nat.eq_or_lt_of_le (show n ≤ k by omega) with rfl | hlt
  · exact absurd (hk.symm.trans hdot) hkind
  · omega

/-- A phrase before a last token that is no point is kept with the words around it. -/
theorem Spells.carry_part {front : List Symbol} {kind : Kind}
    (h : lexemes.Spells i (front ++ [.token kind]) j) (hkind : kind ≠ .dot)
    (hkept : ∀ n, i ≤ n → n < j → lexemes.Keeps other f n) {child : Part .parsed}
    (hchild : child.place ∈ Symbol.parts front) (hall : child.All lexemes.Holds) :
    (child.relocate (.move f)).All other.Holds := by
  obtain ⟨k, hfront, -, hlast⟩ := spells_append.mp h
  have hnext : k + 1 = j := hlast
  obtain ⟨hi, hj, -⟩ := hfront.part_inside hchild
  exact carry_holds hall (fun n hn hlt => hkept n (by omega) (by omega))
    fun n hn hle => h.sees_of_last hkind hkept (by omega) (by omega)

/-- A phrase that ends with a token of its own is kept with its words, whatever follows, unless that
token is a point. -/
theorem carry_holds_of_last {front : List Symbol} {kind : Kind}
    (h : part.All lexemes.Holds) (hphrased : part.Phrased (front ++ [.token kind]))
    (hspells : lexemes.Spells part.place.first (front ++ [.token kind]) part.place.next)
    (hkind : kind ≠ .dot)
    (hkept : ∀ n, part.place.first ≤ n → n < part.place.next → lexemes.Keeps other f n) :
    (part.relocate (.move f)).All other.Holds := by
  refine Part.all_iff.mpr ⟨?_, ?_⟩
  · refine Holds.carry h.here.1 hphrased hspells hkept ?_
    intro front' tests rest l hsplit hfront hrest
    refine hspells.sees_of_last hkind hkept hfront.inside.1 ?_
    -- the last token is left to be spelled
    have hmem : .token kind ∈ rest := by
      have hlast := congrArg List.getLast? hsplit
      cases rest with
      | nil => simp at hlast
      | cons symbol rest =>
        rw [List.getLast?_append, List.getLast?_append] at hlast
        exact List.mem_of_getLast? (by simpa [List.getLast?_cons_cons] using hlast.symm)
    exact (hrest.covers ⟨_, hmem, rfl⟩).nonempty
  · rw [Part.fields_relocate, List.forall_mem_map]
    intro field hfield
    rw [List.forall_mem_map]
    intro child hchild
    have hmem := (hphrased.outlined.inOrder field hfield).subset (List.mem_map_of_mem hchild)
    rw [Symbol.parts_append, List.mem_append] at hmem
    exact hspells.carry_part hkind hkept (hmem.resolve_right (by simp [Symbol.parts]))
      (h.below hfield hchild)

end Lexemes

namespace Part

/-- Is this a statement, a member or a unit? -/
def IsClosed {F : Form} : Part F → Prop
  | statement _ | member _ | unit _ => True
  | _ => False

/-- Such a phrase ends with a token that no production looks ahead for. -/
theorem Phrased.closed {part : Part .parsed} {symbols : List Symbol} (h : part.Phrased symbols)
    (hpart : part.IsClosed) :
    ∃ front kind, symbols = front ++ [.token kind] ∧ (kind = .semicolon ∨ kind = .rbrace) := by
  have hlast : symbols.getLast? = some (.token .semicolon) ∨
      symbols.getLast? = some (.token .rbrace) := by
    induction h with
    | unit _ _ ih => exact ih trivial
    | _ => first
      | exact hpart.elim
      | simp [series, Symbol.attachment, Symbol.origin, List.getLast?_append, List.getLast?_cons]
  rcases hlast with hlast | hlast <;> obtain ⟨front, rfl⟩ := List.getLast?_eq_some_iff.mp hlast
  · exact ⟨front, _, rfl, .inl rfl⟩
  · exact ⟨front, _, rfl, .inr rfl⟩

end Part

/-- Such a phrase is kept with its words, whatever follows. -/
theorem Lexemes.IsPhrase.carry_of_closed {lexemes other : Lexemes} {f : Nat → Nat} {i j : Nat}
    {part : Part .parsed} (h : lexemes.IsPhrase i part j) (hpart : part.IsClosed)
    (hkept : ∀ n, i ≤ n → n < j → lexemes.Keeps other f n) :
    other.IsPhrase (f i) (part.relocate (.move f)) (f j) := by
  obtain ⟨symbols, hphrased, hspells⟩ := h.written
  obtain ⟨front, kind, rfl, hkind⟩ := hphrased.closed hpart
  have hplace := h.place
  refine ⟨by rw [Part.place_relocate, hplace]; rfl, ?_⟩
  refine carry_holds_of_last h.holds hphrased (by rwa [hplace]) ?_ (by rwa [hplace])
  rcases hkind with rfl | rfl <;> decide

end SolidityParser
