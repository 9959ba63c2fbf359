import Mathlib
import SolidityParser.Proofs.Render.Declaration
import SolidityParser.Proofs.Repairs
import SolidityParser.Proofs.Unread

/-!
# What the JSON of a source leaves out

The JSON of a tree says all of it but one thing: a call with an empty list of named arguments has
the JSON of a call without arguments (`Source.render_parse_not_injective`). If two sources have the
same JSON, and the same calls have an empty list of named arguments, they have the same tree
(`Source.parse_eq_iff_render_eq`). Which calls these are is known from where they stand, as one with
named arguments ends in a brace and a parenthesis, and one without in two parentheses.
-/

namespace SolidityParser

/-- Where a program calls with an empty list of named arguments. -/
def Program.emptyNamed (program : Program) : Set Span :=
  {span | ∃ u ∈ program.body, ∃ callee,
    (Part.unit u).Within (.expression (.call span callee (.named [])))}

section Calls

variable {layout : Layout} {lexemes : Lexemes} {repairs : Repairs} {size : Nat}
  {place place' : Extent} {callee callee' : Expression Extent}

/-- An empty list of named arguments ends with a brace. -/
theorem Lexemes.Supports.emptyNamed_ends
    (h : lexemes.Supports repairs (.expression (.call place callee (.named [])))) :
    lexemes.kindAt (place.next - 2) = .rbrace := by
  cases h with
  | phrase holds =>
    obtain ⟨-, symbols, hphrased, hspells⟩ := holds
    cases hphrased
    obtain ⟨-, -, -, ⟨-, hbrace⟩, -, hend⟩ := hspells
    rwa [show place.next - 2 = _ from congrArg (· - 2) hend.symm]
  | composed _ _ composed => cases composed
  | recovered recovered => cases recovered

/-- A call without arguments ends with two parentheses. -/
theorem Lexemes.Supports.emptyPositional_ends
    (h : lexemes.Supports repairs (.expression (.call place callee (.positional [])))) :
    lexemes.kindAt (place.next - 2) = .lparen := by
  cases h with
  | phrase holds =>
    obtain ⟨-, symbols, hphrased, hspells⟩ := holds
    cases hphrased
    obtain ⟨-, ⟨-, hparen⟩, -, hend⟩ := hspells
    rwa [show place.next - 2 = _ from congrArg (· - 2) hend.symm]
  | composed _ _ composed => cases composed
  | recovered recovered => cases recovered

/-- No call without arguments stands where one with an empty list of named arguments does. -/
theorem Layout.emptyNamed_ne_emptyPositional (hp : layout.tokens.Placed size)
    (h : layout.tokens.lexemes.Supports repairs (.expression (.call place callee (.named []))))
    (h' : layout.tokens.lexemes.Supports repairs
      (.expression (.call place' callee' (.positional [])))) :
    layout.span place ≠ layout.span place' := by
  intro heq
  have hruns := Layout.runs_span hp h.covers
  have hruns' := Layout.runs_span hp h'.covers
  have hnext : place.next = place'.next := (hruns.unique hp (heq ▸ hruns')).2
  have hbrace := h.emptyNamed_ends
  rw [hnext, h'.emptyPositional_ends] at hbrace
  cases hbrace

/-- A number that stands in the input has the value of its text. -/
theorem Lexemes.Supports.number_value {value : NumberValue} {raw : String} {unit : Option String}
    (h : lexemes.Supports repairs (.expression (.number place value raw unit))) :
    value = NumberValue.ofLiteral raw := by
  cases h with
  | phrase holds =>
    obtain ⟨-, symbols, hphrased, -⟩ := holds
    cases hphrased <;> rfl
  | composed _ _ composed => cases composed
  | recovered recovered => cases recovered

end Calls

/-- An expression in another form was one before. -/
theorem Part.relocate_eq_expression {F G : Form} {r : Relocation F G} {part : Part F}
    {e : Expression G.Place} (h : part.relocate r = .expression e) :
    ∃ v, part = .expression v ∧ v.relocate r.place = e := by
  cases part <;> simp_all [relocate]

/-- A call with an empty list of named arguments was one before. -/
theorem Expression.relocate_eq_emptyNamed {σ τ : Type} {f : σ → τ} {e : Expression σ} {place : τ}
    {callee : Expression τ} (h : e.relocate f = .call place callee (.named [])) :
    ∃ p c, e = .call p c (.named []) ∧ f p = place := by
  cases e with
  | call p c given => cases given <;> simp_all [relocate, Arguments.relocate]
  | _ => simp [relocate] at h

namespace Source

variable {source source' : String} {tolerant tolerant' : Bool} {p p' : Program}

/-- In the tree of a source, the calls with an empty list of named arguments are told by where they
stand, and the numbers by their texts. -/
theorem parse_marked (h : parse source tolerant = .ok p) :
    ∀ u ∈ p.body, (Part.unit u).All (Part.Marked (· ∈ p.emptyNamed)) := by
  have hp : (layout source).tokens.Placed (Text.byteLength source.toList) := lex_placed source
  obtain ⟨-, units, hunits, rfl⟩ := parse_eq_ok_iff.mp h
  obtain ⟨j, hsource⟩ := Grammar.parseUnits_isSource (lex_wellSpelled source) hunits
  refine List.forall_mem_map.mpr fun u hu => ?_
  change ((Part.unit u).relocate (layout source).relocation).All _
  refine (Part.all_relocate _).mpr fun part hwithin => ?_
  have hpart := hsource.stands u hu part hwithin
  cases part with
  | expression e =>
    cases e with
    | number => exact hpart.number_value
    | call place callee given =>
      cases given with
      | named values =>
        cases values with
        | nil =>
          exact ⟨_, List.mem_map_of_mem hu, _, Part.within_relocate.mpr ⟨_, hwithin, rfl⟩⟩
        | cons => trivial
      | positional values =>
        cases values with
        | nil =>
          rintro ⟨_, hv, callee', hcall⟩
          obtain ⟨v, hv', rfl⟩ := List.mem_map.mp hv
          have hcall : ((Part.unit v).relocate (layout source).relocation).Within _ := hcall
          obtain ⟨q, hq, heq⟩ := Part.within_relocate.mp hcall
          obtain ⟨e, rfl, he⟩ := Part.relocate_eq_expression heq
          obtain ⟨place', callee', rfl, hplace⟩ := Expression.relocate_eq_emptyNamed he
          exact Layout.emptyNamed_ne_emptyPositional hp (hsource.stands v hv' _ hq) hpart hplace
        | cons => trivial
    | _ => trivial
  | _ => trivial

/-- Two sources have the same tree if it has the same JSON, and the same calls in it have an empty
list of named arguments. -/
theorem parse_eq_iff_render_eq (h : parse source tolerant = .ok p)
    (h' : parse source' tolerant' = .ok p') :
    p = p' ↔ p.render .plain = p'.render .plain ∧ p.emptyNamed = p'.emptyNamed := by
  constructor
  · rintro rfl
    exact ⟨rfl, rfl⟩
  · rintro ⟨hrender, hnamed⟩
    rw [Program.render_plain, Program.render_plain] at hrender
    refine Program.toJson_inj (parse_marked h) ?_ hrender
    rw [hnamed]
    exact parse_marked h'

/-- A constant whose value is a call with these arguments, between parentheses three bytes apart. -/
def constantOfCall (given : Arguments Span) : Program :=
  ⟨⟨0, 22⟩, [.constant ⟨⟨0, 22⟩, .elementary ⟨0, 4⟩ "uint" false, "X",
    .call ⟨16, 21⟩ (.identifier ⟨16, 17⟩ "f") given⟩]⟩

theorem parse_emptyNamed :
    parse "uint constant X=f(\x7b\x7d);" = .ok (constantOfCall (.named [])) := by
  rw [parse, read_ofList_of_le (by decide)]
  cbv

theorem parse_emptyPositional :
    parse "uint constant X=f(  );" = .ok (constantOfCall (.positional [])) := by
  rw [parse, read_ofList_of_le (by decide)]
  cbv

/-- The trees of two sources that differ have the same JSON, and other calls have an empty list of
named arguments. -/
theorem parse_eq_iff_render_eq_constantOfCall :
    constantOfCall (.named []) = constantOfCall (.positional []) ↔
      (constantOfCall (.named [])).render .plain = (constantOfCall (.positional [])).render .plain ∧
      (constantOfCall (.named [])).emptyNamed = (constantOfCall (.positional [])).emptyNamed :=
  parse_eq_iff_render_eq parse_emptyNamed parse_emptyPositional

/-- Sources with different trees may have the same JSON. -/
theorem render_parse_not_injective :
    ¬ ∀ source source' tolerant tolerant' p p', parse source tolerant = .ok p →
      parse source' tolerant' = .ok p' → p.render .plain = p'.render .plain → p = p' := by
  intro h
  have hrender : (constantOfCall (.named [])).render .plain =
      (constantOfCall (.positional [])).render .plain := by
    rw [Program.render_plain, Program.render_plain]
    rfl
  cases h _ _ _ _ _ _ parse_emptyNamed parse_emptyPositional hrender

end Source

end SolidityParser
