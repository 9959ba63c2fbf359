import SolidityParser.Proofs.Attributes.Specifier
import SolidityParser.Proofs.Slices

/-!
# The words of a function

The words of a function are its name, its parameters, specifiers in a row, and a rest that does not
go on with attributes (`Lexemes.IsSignature.exists_words`). With the same name, parameters and rest,
the specifiers in another order are a function too, which is the same but for its attributes
(`Lexemes.IsSignature.exists_moved`): what comes before and after them is the same where its words
are, and each specifier says one attribute wherever it stands.
-/

namespace SolidityParser

/-! ### The words of a function -/

/-- The words of a function, in the parts that the rule for functions takes one after the other. -/
structure FunctionWords where
  /-- The name. -/
  name : String
  /-- The parameters, without their parentheses. -/
  parameters : Lexeme.Group
  /-- The results and the body. -/
  rest : List Lexeme
  /-- These do not go on with attributes. -/
  stops : ∃ word words, rest = word :: words ∧ word.kind.endsAttributes = true

namespace FunctionWords

/-- The words after the name, with given attributes. -/
def signature (function : FunctionWords) (specifiers : List Specifier) : List Lexeme :=
  Lexeme.parenthesized (some function.parameters) ++
    (specifiers.flatMap (·.words) ++ function.rest)

/-- The words of the function, with given attributes. -/
def wordsWith (function : FunctionWords) (specifiers : List Specifier) : List Lexeme :=
  .of .kwFunction :: ⟨.ident, function.name⟩ :: function.signature specifiers

end FunctionWords

namespace Lexemes

variable {lexemes other : Lexemes} {i j i' j' : Nat} {parameters : List (Parameter Extent)}
  {items : List Attribute} {returns : Option (List (Parameter Extent))}
  {body : Option (Block .parsed)} {repairs : Repairs}

/-! ### The parts of a signature -/

/-- What a function says after its name is its parameters, its attributes, its results and its
body, one after the other. The attributes end at a word that no attribute begins with. -/
theorem IsSignature.sections
    (h : lexemes.IsSignature repairs i parameters items returns body j) :
    ∃ k l m, lexemes.Spells i (Symbol.parameters parameters) k ∧ lexemes.HasAttributes k items l ∧
      lexemes.Spells l (Symbol.returns returns) m ∧
      lexemes.Spells m (Symbol.body (body.map (·.place))) j ∧
      (lexemes.kindAt l).endsAttributes = true ∧ l ≤ m ∧ m < j := by
  obtain ⟨m, hfront, hbody⟩ := spells_append.mp h.spells
  obtain ⟨l, hfront, hreturns⟩ := spells_append.mp hfront
  obtain ⟨k, hgiven, hattributes⟩ := spells_append.mp hfront
  have hmodifier (v) (hv : .modifier v ∈ items) :=
    h.attributes.modifiers v (FunctionAttributes.mem_modifiers_ofItems.mpr hv)
  have hattributes : lexemes.HasAttributes k items l :=
    hasAttributes_iff.mpr ⟨hattributes, h.ofFunction, hmodifier⟩
  have hcovers : lexemes.Covers ⟨m, j⟩ := hbody.covers (by
    cases body <;> exact ⟨_, List.mem_singleton_self _, rfl⟩)
  have hstop : (lexemes.kindAt l).endsAttributes = true := by
    cases returns with
    | some _ =>
      rw [hreturns.1.2]
      rfl
    | none =>
      -- without results it is the body that stands after the attributes: a brace or a semicolon
      obtain ⟨-, rfl⟩ := hreturns
      rcases Grammar.body_begins hbody h.body with hkind | hkind <;> rw [hkind] <;> rfl
  exact ⟨k, l, m, hgiven, hattributes, hreturns, hbody, hstop, hreturns.inside.1, hcovers.nonempty⟩

/-- No parameter of a function goes past a parenthesis that closes, so that the parameters end
where their own parenthesis does. -/
theorem IsSignature.closes (h : lexemes.IsSignature repairs i parameters items returns body j) :
    ∀ item ∈ parameters.map fun p => [.part p.place], lexemes.Closes item :=
  List.forall_mem_map.mpr fun p hp =>
    .part (.parameter p) trivial (h.given p (List.mem_append_left _ hp))

/-! ### From a signature to its words, and back -/

/-- The words after the name of a function are those of its parameters, its attributes, and the
rest: whatever a signature takes up can be written as `FunctionWords`. -/
theorem IsSignature.exists_words (hspelled : lexemes.Spelled) (name : String)
    (h : lexemes.IsSignature repairs i parameters items returns body j) :
    ∃ (written : FunctionWords) (specifiers : List Specifier), written.name = name ∧
      lexemes.HasRow i (written.signature specifiers) j := by
  obtain ⟨k, l, m, hgiven, hattributes, -, -, hstop, hle, hlt⟩ := h.sections
  have hlt : l < j := hle.trans_lt hlt
  obtain ⟨group, hgroup⟩ := Spells.exists_group hspelled hgiven h.closes
  obtain ⟨specifiers, hspecifiers⟩ := hattributes.exists_specifiers hspelled
  obtain ⟨rest, hrest⟩ := exists_hasRow lexemes hlt.le
  have hstops : ∃ word words, rest = word :: words ∧ word.kind.endsAttributes = true := by
    cases rest with
    | nil =>
      -- a body takes at least one word, so that something stands after the attributes
      obtain rfl : l = j := hrest
      exact absurd hlt (Nat.lt_irrefl _)
    | cons word words => exact ⟨word, words, rfl, by rw [← hrest.1.1, hstop]⟩
  exact ⟨⟨name, group, rest, hstops⟩, specifiers, rfl, hgroup.append (hspecifiers.append hrest)⟩

/-- Parameters and attributes take up the words of each, so that the rest is that of the words, and
each specifier says something. -/
theorem HasRow.sections {written : FunctionWords} {specifiers : List Specifier} {k l : Nat}
    (hrow : lexemes.HasRow i (written.signature specifiers) j)
    (hgiven : lexemes.Spells i (Symbol.parameters parameters) k)
    (hcloses : ∀ item ∈ parameters.map fun p => [.part p.place], lexemes.Closes item)
    (hattributes : lexemes.HasAttributes k items l)
    (hstop : (lexemes.kindAt l).endsAttributes = true) :
    lexemes.HasRow i (Lexeme.parenthesized (some written.parameters)) k ∧
      lexemes.HasRow l written.rest j ∧ ∀ s ∈ specifiers, ∃ said, s.Says said := by
  have hafter := hrow.group hgiven hcloses
  obtain ⟨word, words, hwords, hword⟩ := written.stops
  have hends (n) (hn : lexemes.HasRow n written.rest j) :
      (lexemes.kindAt n).endsAttributes = true := by
    rw [hwords] at hn
    rw [hn.1.1, hword]
  obtain ⟨hrest, hsays⟩ := hafter.specifier_row hattributes hends hstop
  exact ⟨hrow.front hafter, hrest, hsays⟩

/-! ### What is the same where its words are

Each part of a signature is carried over to another input that has the same words elsewhere, where
`f` says of a word of the first input which word of the other it is. The symbols of the part are
spelled there, and every node below it stands where it is moved to. -/

/-- Parameters between parentheses are where their words are: nothing has to be known of the word
after them, since a parenthesis closes them. -/
theorem carry_parameters {f : Nat → Nat}
    (h : ∀ p ∈ parameters, (Part.parameter p : Part .parsed).All lexemes.Holds)
    (hspells : lexemes.Spells i (Symbol.parameters parameters) j)
    (hkept : ∀ n, i ≤ n → n < j → lexemes.Keeps other f n) :
    other.Spells (f i) (Symbol.parameters (parameters.map (·.relocate (Extent.move f)))) (f j) ∧
      ∀ p ∈ parameters.map (·.relocate (Extent.move f)),
        (Part.parameter p : Part .parsed).All other.Holds := by
  have hpart (place : Extent) (hplace : .part place ∈ Symbol.parameters parameters) :
      other.Covers (place.move f) := by
    obtain ⟨hi, hj, hcovers⟩ := hspells.part_inside (mem_parts_of_part hplace)
    exact hcovers.carry fun n hn hlt => hkept n (by omega) (by omega)
  constructor
  · rw [← Symbol.map_move_parameters]
    refine hspells.carry (fun n hn hlt _ => hkept n hn hlt) hpart fun front tests rest m hsplit => ?_
    -- parameters test for nothing that is not there
    have hmem : .no tests ∈ Symbol.parameters parameters := hsplit ▸ by simp
    simp at hmem
  · have hsymbols : Symbol.parameters parameters = (.token .lparen :: Symbol.separated
        (parameters.map fun p => [.part p.place])) ++ [.token .rparen] := rfl
    rw [hsymbols] at hspells
    refine List.forall_mem_map.mpr fun p hp => ?_
    change ((Part.parameter p : Part .parsed).relocate (.move f)).All other.Holds
    refine hspells.carry_part (by decide) hkept ?_ (h p hp)
    simpa [Part.place, Symbol.parts, List.flatMap_map, ← List.map_eq_flatMap] using ⟨p, hp, rfl⟩

/-- So are results. Where there are none, the word at their start has to be kept too, since it is
what says that there are none. -/
theorem carry_returns {f : Nat → Nat} (hspells : lexemes.Spells i (Symbol.returns returns) j)
    (hgiven : ∀ p ∈ returns.getD [], (Part.parameter p : Part .parsed).All lexemes.Holds)
    (hfirst : lexemes.Keeps other f i) (hkept : ∀ n, i ≤ n → n < j → lexemes.Keeps other f n) :
    other.Spells (f i) (Symbol.returns (returns.map (List.map (·.relocate (Extent.move f)))))
        (f j) ∧
      ∀ p ∈ (returns.map (List.map (·.relocate (Extent.move f)))).getD [],
        (Part.parameter p : Part .parsed).All other.Holds := by
  cases returns with
  | none =>
    obtain ⟨hno, rfl⟩ := hspells
    have hno' : ¬ other.Ahead (f i) (.kinds [.kwReturns]) := fun hahead =>
      hno (hfirst.ahead_singleton.mp hahead)
    exact ⟨⟨hno', rfl⟩, by simp⟩
  | some parameters =>
    obtain ⟨⟨hne, hk⟩, hparameters⟩ := hspells
    obtain ⟨hspells', hgiven'⟩ := carry_parameters hgiven hparameters fun n hn hlt =>
      hkept n (by omega) hlt
    rw [hfirst.next] at hspells'
    exact ⟨⟨⟨hne, hfirst.kindAt.trans hk⟩, hspells'⟩, hgiven'⟩

/-- So is a body, if what comes next does not go on with it: a statement at its end without braces
of its own could otherwise go on in the other input. -/
theorem carry_body {f : Nat → Nat} (hspells : lexemes.Spells i (Symbol.body (body.map (·.place))) j)
    (hbody : ∀ b ∈ body, (Part.block b).All (lexemes.Supports .none))
    (hkept : ∀ n, i ≤ n → n < j → lexemes.Keeps other f n)
    (hnext : (other.kindAt (f j)).joins = false) :
    other.Spells (f i) (Symbol.body ((body.map (·.relocate (Relocation.move f))).map (·.place)))
        (f j) ∧
      ∀ b ∈ body.map (·.relocate (Relocation.move f)), (Part.block b).All (other.Supports .none) := by
  have hpart (place : Extent) (hplace : .part place ∈ Symbol.body (body.map (·.place))) :
      other.Covers (place.move f) := by
    obtain ⟨hi, hj, hcovers⟩ := hspells.part_inside (mem_parts_of_part hplace)
    exact hcovers.carry fun n hn hlt => hkept n (by omega) (by omega)
  constructor
  · have hmoved : other.Spells (f i) ((Symbol.body (body.map (·.place))).map (.move f)) (f j) := by
      refine hspells.carry (fun n hn hlt _ => hkept n hn hlt) hpart
        fun front tests rest m hsplit => ?_
      -- neither a block nor a semicolon tests for anything
      have hmem : .no tests ∈ Symbol.body (body.map (·.place)) := hsplit ▸ by simp
      cases body <;> simp [Symbol.body] at hmem
    simpa [Option.map_map, Function.comp_def, Block.place_relocate, Relocation.move] using hmoved
  · intro b hb
    obtain ⟨b, rfl, rfl⟩ := Option.map_eq_some_iff.mp hb
    obtain ⟨⟨rfl, -⟩, rfl⟩ := hspells
    change ((Part.block b).relocate (.move f)).All _
    exact carry_supports (hbody b rfl) id hkept hnext

/-! ### A function with other attributes -/

/-- With other attributes, a function is the same but for these, where its words are. What each
specifier says (`said`) is fixed by the first function; any of them in any order, between the same
parameters and the same rest, then say just that, and the parts before and after them are moved by
`f` and `g` to where their words are. -/
theorem IsSignature.exists_moved {written : FunctionWords} {specifiers : List Specifier}
    (h : lexemes.IsSignature .none i parameters items returns body j)
    (hrow : lexemes.HasRow i (written.signature specifiers) j) :
    ∃ said : Specifier → Attribute, (∀ s ∈ specifiers, s.Says (said s)) ∧
      ∀ {other : Lexemes} {i' j' : Nat} {others : List Specifier}, others ⊆ specifiers →
        other.HasRow i' (written.signature others) j' → (other.kindAt j').joins = false →
        ∃ (f g : Nat → Nat) (items' : List Attribute),
          items'.map (·.move fun _ => 0) = others.map said ∧
          other.IsSignature .none i' (parameters.map (·.relocate (Extent.move f))) items'
            (returns.map (List.map (·.relocate (Extent.move g))))
            (body.map (·.relocate (Relocation.move g))) j' := by
  obtain ⟨k, l, m, hgiven, hattributes, hreturns, hbody, hstop, hle, hlt⟩ := h.sections
  obtain ⟨hparameters, hrest, hsays⟩ := hrow.sections hgiven h.closes hattributes hstop
  have : Nonempty Attribute := ⟨.isVirtual⟩
  choose! said hsaid using hsays
  refine ⟨said, hsaid, fun {other i' j' others} hsubset hrow' hnext => ?_⟩
  -- in the other input: the parameters up to `k'`, the attributes up to `l'`, then the rest
  obtain ⟨k', hparameters', hrow'⟩ := hasRow_append.mp hrow'
  obtain ⟨l', hspecifiers, hrest'⟩ := hasRow_append.mp hrow'
  obtain ⟨items', hitems', hattributes'⟩ :=
    hspecifiers.exists_attributes fun s hs => hsaid s (hsubset hs)
  obtain ⟨hspells', hfunction, -⟩ := hasAttributes_iff.mp hattributes'
  -- rows of the same words are equally long, and so is what stands on them
  have hlength := hparameters.length
  have hlength' := hparameters'.length
  have hlength₁ := hrest.length
  have hlength₂ := hrest'.length
  have hi : i - i + i' = i' := by omega
  have hk : k - i + i' = k' := by omega
  have hl : l - l + l' = l' := by omega
  have hj : j - l + l' = j' := by omega
  have hfront (n : Nat) (hn : i ≤ n) (hlt : n < k) := hparameters.keeps hparameters' hn hlt
  have hback (n : Nat) (hn : l ≤ n) (hlt : n < j) := hrest.keeps hrest' hn hlt
  obtain ⟨hspells₁, hgiven₁⟩ := carry_parameters
    (fun p hp => h.given p (List.mem_append_left _ hp)) hgiven hfront
  obtain ⟨hspells₂, hgiven₂⟩ := carry_returns hreturns
    (fun p hp => h.given p (List.mem_append_right _ hp)) (hback l (Nat.le_refl _) (by omega))
    fun n hn hlt => hback n hn (by omega)
  obtain ⟨hspells₃, hbody'⟩ := carry_body hbody h.body
    (fun n hn hlt => hback n (hle.trans hn) hlt) (by rwa [hj])
  rw [hi, hk] at hspells₁
  rw [hl] at hspells₂
  rw [hj] at hspells₃
  have hspells := ((hspells₁.append hspells').append hspells₂).append hspells₃
  have hplain := h.plain
  refine ⟨fun n => n - i + i', fun n => n - l + l', items', hitems', hspells, ?_, hfunction,
    List.forall_mem_append.mpr ⟨hgiven₁, hgiven₂⟩, hattributes'.holds, hbody'⟩
  -- what is moved is indexed where it was
  cases returns <;> simpa [or_imp, forall_and, Parameter.isIndexed_relocate] using hplain

end Lexemes

end SolidityParser
