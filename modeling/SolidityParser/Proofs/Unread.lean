import SolidityParser.Proofs.Lexer.Munch
import SolidityParser.Proofs.Production.Unread
import SolidityParser.Proofs.Repairs

/-!
# What is left unread in a source

Two passages of a source are kept as raw text: the value of a pragma, and the body of an assembly
block (`Part.Leaves`). Everything else is read.

* `Source.parse_bracketed`: without tolerance, the brackets among all tokens that are read are
  matched and properly nested, and so are the braces alone in each assembly body.
* `Source.parse_errors`: in either mode, an error of the lexer stands in one of the passages, or in
  a statement that was skipped. So no source with an open block comment parses: the error goes on to
  the end of the text, and after each passage and each skipped statement comes another token.
-/

namespace SolidityParser

/-! ### Passages of a located tree -/

/-- The tokens from one index up to another are those of a node that no rule reads: of a pragma
those between its name and its semicolon, of an assembly block those between its first brace and its
last token. The node keeps their text. -/
inductive Part.Leaves (layout : Layout) : Part .located → Nat → Nat → Prop
  | pragma {directive : Pragma .located} {i j : Nat}
      (runs : layout.tokens.Runs i directive.place (j + 1))
      (name : layout.tokens.kind (i + 1) = .ident) (closing : layout.tokens.kind j = .semicolon)
      (value : directive.value = layout.pragmaValue ⟨i + 2, j⟩) :
      Leaves layout (.unit (.pragma directive)) (i + 2) j
  | assembly {place : Span} {language : Option String} {flags : List String} {body : String}
      {i k j : Nat} (runs : layout.tokens.Runs i place (j + 1)) (inside : i < k)
      (opening : layout.tokens.kind k = .lbrace)
      (first : ∀ n, i ≤ n → n < k → layout.tokens.kind n ≠ .lbrace)
      (closing : layout.tokens.kind j = .rbrace)
      (text : body = String.ofList (layout.passage ⟨k, j + 1⟩)) :
      Leaves layout (.statement (.assembly place language flags body)) (k + 1) j

/-- Is this an assembly block? -/
def Part.IsAssembly {F : Form} : Part F → Prop
  | statement (.assembly ..) => True
  | _ => False

namespace Program

/-- A token at an index is left unread in a program. -/
def Hides (layout : Layout) (program : Program) (n : Nat) : Prop :=
  ∃ u ∈ program.body, ∃ part, (Part.unit u).Within part ∧
    ∃ i j, part.Leaves layout i j ∧ i ≤ n ∧ n < j

/-- A token at an index is in a statement of a program that was skipped. -/
def Skips (tokens : TokenList) (program : Program) (n : Nat) : Prop :=
  ∃ u ∈ program.body, ∃ part, (Part.unit u).Within part ∧ part.IsIncomplete ∧
    ∃ i j, tokens.Runs i part.place j ∧ i ≤ n ∧ n < j

/-- Each error of the lexer is left unread or, where that is tolerated, skipped. -/
def Dismisses (layout : Layout) (tolerant : Bool) (program : Program) : Prop :=
  ∀ n, layout.tokens.kind n = .error →
    program.Hides layout n ∨ tolerant = true ∧ program.Skips layout.tokens n

open Classical in
/-- The brackets of a source are matched and properly nested, but for what a program leaves unread;
of that, the braces in each assembly body are. -/
structure Bracketed (layout : Layout) (program : Program) : Prop where
  /-- The tokens that are read. -/
  read : Kind.Nested (((List.range layout.tokens.size).filter fun n =>
    ¬ program.Hides layout n).map layout.tokens.kind)
  /-- The tokens of each assembly body. -/
  bodies : ∀ u ∈ program.body, (Part.unit u).All fun part => part.IsAssembly →
    ∃ i j, part.Leaves layout i j ∧
      Kind.Nested (((List.range' i (j - i)).map layout.tokens.kind).filter Kind.isBrace)

end Program

/-! ### Placing a tree -/

namespace Part

/-- The parts of a tree in another form. -/
theorem within_relocate {F G : Form} {r : Relocation F G} {top : Part F} {q : Part G} :
    (top.relocate r).Within q ↔ ∃ p, top.Within p ∧ p.relocate r = q := by
  constructor
  · have hall : (top.relocate r).All fun q => ∃ p, top.Within p ∧ p.relocate r = q :=
      (all_relocate r).mpr fun p hp => ⟨p, hp, rfl⟩
    exact hall q
  · rintro ⟨p, hp, rfl⟩
    have hall : (top.relocate r).All fun q => (top.relocate r).Within q := fun _ hq => hq
    exact (all_relocate r).mp hall p hp

end Part

/-- A node leaves no more than one passage unread. -/
theorem Part.Leaves.unique {layout : Layout} {size i j k l : Nat} {part : Part .located}
    (hp : layout.tokens.Placed size) (h : part.Leaves layout i j) (h' : part.Leaves layout k l) :
    i = k ∧ j = l := by
  cases h with
  | pragma runs =>
    cases h' with
    | pragma runs' =>
      obtain ⟨rfl, hend⟩ := runs.unique hp runs'
      exact ⟨rfl, Nat.succ.inj hend⟩
  | @assembly _ _ _ _ i k j runs inside opening first =>
    cases h' with
    | @assembly _ _ _ _ _ k' _ runs' inside' opening' first' =>
      obtain ⟨rfl, hend⟩ := runs.unique hp runs'
      -- both opening braces come first
      have hle : k' ≤ k := Nat.le_of_not_lt fun hlt => first' k (Nat.le_of_lt inside) hlt opening
      have hge : k ≤ k' := Nat.le_of_not_lt fun hlt => first k' (Nat.le_of_lt inside') hlt opening'
      exact ⟨congrArg (· + 1) (Nat.le_antisymm hge hle), Nat.succ.inj hend⟩

namespace Lexemes

variable {layout : Layout} {size i j n : Nat} {repairs : Repairs} {part : Part .parsed}

/-- What the grammar left unread, the node in the source leaves unread. -/
theorem Supports.leaves (hp : layout.tokens.Placed size)
    (h : layout.tokens.lexemes.Supports repairs part) {e : Extent} (he : part.unread? = some e) :
    (part.relocate layout.relocation).Leaves layout e.first e.next := by
  have hruns := Layout.runs_span hp h.covers
  unfold Part.unread? at he
  split at he
  · next directive =>
    cases he
    obtain ⟨-, hname, hfirst, -, hnext, hclosing⟩ := h.pragma
    have hvalue : layout.pragmaValue directive.value =
        layout.pragmaValue ⟨directive.place.first + 2, directive.value.next⟩ := by rw [← hfirst]
    have hruns : layout.tokens.Runs directive.place.first (layout.span directive.place)
        directive.place.next := hruns
    rw [hnext] at hruns
    rw [hfirst]
    exact .pragma hruns ((layout.tokens.kind_eq _).trans hname)
      ((layout.tokens.kind_eq _).trans hclosing) hvalue
  · next place language flags body =>
    cases he
    obtain ⟨⟨symbols, hspells, -, hnames, hparts⟩, hinside, hopening, -, hlt, hclosing, hnext⟩ :=
      h.assembly
    have hend : body.next - 1 + 1 = body.next := by omega
    have hruns : layout.tokens.Runs place.first (layout.span place) place.next := hruns
    rw [hnext, ← hend] at hruns
    refine .assembly hruns hinside ((layout.tokens.kind_eq _).trans hopening) (fun n hn hlt => ?_)
      ((layout.tokens.kind_eq _).trans hclosing) ?_
    · -- the opening brace is the first
      rw [layout.tokens.kind_eq]
      intro hbrace
      rcases hspells.cases_at hn hlt with hnamed | hpath | ⟨_, hplace, -⟩
      · exact hnames (hbrace ▸ hnamed)
      · rw [hbrace] at hpath
        rcases hpath with hpath | hpath <;> cases hpath
      · exact hparts _ hplace
    · rw [hend]
      rfl
  · cases he

/-- So does a node that stands in the input, and nothing else. -/
theorem Supports.leaves_iff (hp : layout.tokens.Placed size)
    (h : layout.tokens.lexemes.Supports repairs part) :
    (part.relocate layout.relocation).Leaves layout i j ↔ part.unread? = some ⟨i, j⟩ := by
  refine ⟨fun hleaves => ?_, fun he => h.leaves hp he⟩
  cases hread : part.unread? with
  | some e =>
    obtain ⟨rfl, rfl⟩ := hleaves.unique hp (h.leaves hp hread)
    rfl
  | none =>
    cases part with
    | unit u => cases u <;> first | (cases hread; done) | cases hleaves
    | statement s => cases s <;> first | (cases hread; done) | cases hleaves
    | _ => cases hleaves

namespace IsSource

variable {lexemes : Lexemes} {units : List (SourceUnit .parsed)} {u v : SourceUnit .parsed}

/-- The units of a source do not overlap. -/
theorem apart (h : lexemes.IsSource repairs units j) (hu : u ∈ units) (hv : v ∈ units)
    (hne : u ≠ v) : u.place.next ≤ v.place.first ∨ v.place.next ≤ u.place.first := by
  have hordered := h.row.parts_ordered
  rw [Symbol.parts_row, List.pairwise_map] at hordered
  have hsymm : Std.Symm fun u v : SourceUnit .parsed =>
      u.place.next ≤ v.place.first ∨ v.place.next ≤ u.place.first := ⟨fun _ _ => Or.symm⟩
  exact (hordered.imp (S := fun u v : SourceUnit .parsed =>
    u.place.next ≤ v.place.first ∨ v.place.next ≤ u.place.first) Or.inl).forall hu hv hne

/-- A token of a source stands in one of its units. -/
theorem exists_unit (h : lexemes.IsSource repairs units j) (hn : n < j) :
    ∃ u ∈ units, u.place.first ≤ n ∧ n < u.place.next := by
  obtain ⟨place, hplace, hinside⟩ := h.row.row_at (Nat.zero_le n) hn
  obtain ⟨u, hu, rfl⟩ := List.mem_map.mp hplace
  exact ⟨u, hu, hinside⟩

/-- A unit of a source ends before the source does. -/
theorem next_le (h : lexemes.IsSource repairs units j) (hu : u ∈ units) : u.place.next ≤ j :=
  (h.row.part_inside (by rw [Symbol.parts_row]; exact List.mem_map_of_mem hu)).2.1

/-- Of a source without repairs, the tokens that are read leave no bracket open. -/
theorem enters (h : lexemes.IsSource .none units j) :
    lexemes.Enters (fun n => ∃ u ∈ units, (Part.unit u).Hides n) [] 0 [] j := by
  refine h.row.enters (Symbol.paired_row []) (fun place hplace closers => ?_) ?_
  · obtain ⟨u, hu, rfl⟩ : ∃ u ∈ units, u.place = place := by simpa [Symbol.row] using hplace
    refine (enters_of_all (h.stands u hu) closers).congr fun n hn hlt => ?_
    constructor
    · exact fun hhides => ⟨u, hu, hhides⟩
    · rintro ⟨v, hv, hhides⟩
      by_cases heq : u = v
      · exact heq ▸ hhides
      · have hinside := inside_of_hides (h.stands v hv) hhides
        have hapart := h.apart hu hv heq
        dsimp only [Part.place] at hinside hn hlt
        omega
  · rintro n - - ⟨u, hu, hhides⟩
    have hinside := inside_of_hides (h.stands u hu) hhides
    exact ⟨u.place, by simpa [Symbol.row] using ⟨u, hu, rfl⟩, hinside.1, Nat.lt_of_succ_lt hinside.2⟩

/-- The last token of a source is no error. -/
theorem last_ne_error (h : lexemes.IsSource repairs units j) (hn : n + 1 = j) :
    lexemes.kindAt n ≠ .error := by
  intro hkind
  obtain ⟨u, hu, hi, hlt⟩ := h.exists_unit (show n < j by omega)
  have hle := h.next_le hu
  rcases error_of_all (h.stands u hu) hi hlt hkind with hhides | ⟨p, hwithin, hincomplete, hp⟩
  · have hinside := (inside_of_hides (h.stands u hu) hhides).2
    dsimp only [Part.place] at hinside
    omega
  · -- what was skipped would end where the input does
    have hinside : u.place.first ≤ p.place.first ∧ p.place.next ≤ u.place.next :=
      within_inside (h.stands u hu) hwithin
    have hend : p.place.next = j := by omega
    refine kindAt_next_ne_eof (h.stands u hu) id hwithin hincomplete ?_
    rw [hend]
    exact h.ends

end IsSource

end Lexemes

/-! ### Open block comments -/

/-- Where a lexer comes to the opening of a block comment, no closing delimiter follows. -/
def Text.HasOpenComment (text : List Char) : Prop :=
  ∃ ps rest, Lexer.Cuts text ps ('/' :: '*' :: rest) ∧ ¬ ['*', '/'] <:+: rest

/-- An open block comment is an error, and no other token comes after it. -/
theorem Text.HasOpenComment.kindAt {source : String} (h : HasOpenComment source.toList) :
    ∃ n, n + 2 = (lex source).tokens.size ∧ (lex source).tokens.lexemes.kindAt n = .error := by
  obtain ⟨ps, rest, hcuts, hnever⟩ := h
  have hlongest : Pattern.longest? ('/' :: '*' :: rest) = some (.blockComment, 2) := rfl
  have hopen : Delimiter.blockCommentEnd? rest = none :=
    Delimiter.blockCommentEnd?_eq_none_iff.mpr hnever
  have hfront : Lexer.front ('/' :: '*' :: rest) = (.token .error, rest.length + 2) := by
    simp [Lexer.front, hlongest, Lexer.extend, hopen]
  have hlast := Lexer.Cuts.cons (List.cons_ne_nil '/' ('*' :: rest)) (.nil _)
  rw [hfront] at hlast
  have hpieces := (hcuts.append (by simpa using hlast)).eq_pieces
  have hlexemes := Lexer.lex_lexemes source
  rw [← hpieces, List.filterMap_append] at hlexemes
  refine ⟨(ps.filterMap Lexer.lexeme?).length, ?_, ?_⟩
  · have hsize : (lex source).tokens.size = (lex source).tokens.lexemes.size :=
      (Array.size_map ..).symm
    rw [hsize, hlexemes]
    simp [Lexer.lexeme?]
  · rw [hlexemes, Lexemes.kindAt]
    simp [Lexer.lexeme?]

namespace Source

variable {source : String} {tolerant : Bool} {program : Program}

/-- What a program leaves unread is what the grammar did. -/
theorem hides_iff {layout : Layout} {size n : Nat} {repairs : Repairs}
    {units : List (SourceUnit .parsed)} (hp : layout.tokens.Placed size)
    (h : ∀ u ∈ units, (Part.unit u).All (layout.tokens.lexemes.Supports repairs)) :
    (layout.program units).Hides layout n ↔ ∃ u ∈ units, (Part.unit u).Hides n := by
  constructor
  · rintro ⟨_, hmem, part, hwithin, i, j, hleaves, hn⟩
    obtain ⟨u, hu, rfl⟩ := List.mem_map.mp hmem
    have hwithin : ((Part.unit u).relocate layout.relocation).Within part := hwithin
    obtain ⟨p, hp', rfl⟩ := Part.within_relocate.mp hwithin
    have hread := ((h u hu p hp').leaves_iff hp).mp hleaves
    exact ⟨u, hu, p, hp', _, hread, hn⟩
  · rintro ⟨u, hu, p, hwithin, e, hread, hn⟩
    have hwithin' := (Part.within_relocate (r := layout.relocation)).mpr ⟨p, hwithin, rfl⟩
    exact ⟨_, List.mem_map_of_mem hu, _, hwithin', _, _, (h u hu p hwithin).leaves hp hread, hn⟩

/-- Without tolerance, the brackets of a source that parses are properly nested. -/
theorem parse_bracketed (h : parse source = .ok program) :
    program.Bracketed (layout source) := by
  have hp : (layout source).tokens.Placed (Text.byteLength source.toList) := lex_placed source
  obtain ⟨-, units, hunits, rfl⟩ := parse_eq_ok_iff.mp h
  obtain ⟨j, hsource⟩ := Grammar.parseUnits_isSource (lex_wellSpelled source) hunits
  have hlast : j = (lex source).tokens.size - 1 :=
    hp.eq_last hsource.ends fun n hn => hsource.row.inside.2 n (Nat.zero_le n) hn
  have hsize : j + 1 = (layout source).tokens.size := by
    have hpos : 0 < (lex source).tokens.size := hp.size_pos
    change j + 1 = (lex source).tokens.size
    omega
  have hkind : (layout source).tokens.kind = (lex source).tokens.lexemes.kindAt :=
    funext (lex source).tokens.kind_eq
  constructor
  case read =>
    classical
    -- the end of the input is read as well
    have henters := hsource.enters.trans <| .single (fun ⟨u, hu, hhides⟩ => by
      have hinside := Lexemes.inside_of_hides (hsource.stands u hu) hhides
      have hle := hsource.next_le hu
      dsimp only [Part.place] at hinside
      omega) hsource.ends rfl
    have hread := (henters.congr fun n _ _ => (hides_iff hp hsource.stands).symm).enterAll?
    rw [Nat.sub_zero, hsize, ← List.range_eq_range'] at hread
    rw [hkind]
    exact Kind.nested_of_enterAll? hread
  case bodies =>
    rw [hkind]
    refine List.forall_mem_map.mpr fun u hu => ?_
    change ((Part.unit u).relocate (layout source).relocation).All _
    refine (Part.all_relocate _).mpr fun p hwithin hassembly => ?_
    have hsupports := hsource.stands u hu p hwithin
    cases p with
    | statement s =>
      cases s with
      | assembly =>
        obtain ⟨kinds, henter, hspells⟩ := hsupports.assembly.kinds
        refine ⟨_, _, hsupports.leaves hp rfl, ?_⟩
        dsimp only
        rw [hspells.kinds_eq]
        exact Kind.nested_of_enterAll? henter
      | _ => exact hassembly.elim
    | _ => exact hassembly.elim

/-- A pragma and an assembly block with brackets that match nothing. -/
def astray : String :=
  "pragma p ](; contract C { function f(int[2] a) { assembly { ) { } [ } } }"

/-- The brackets of a source with others left unread. -/
theorem parse_bracketed_astray :
    ∃ program, parse astray = .ok program ∧ program.Bracketed (layout astray) := by
  have hok : (parse astray).isOk = true := by
    rw [astray, parse, read_ofList]
    decide +kernel
  cases h : parse astray with
  | error e =>
    rw [h] at hok
    cases hok
  | ok program => exact ⟨program, rfl, parse_bracketed h⟩

/-- In either mode, an error in a source that parses is left unread or skipped, and no block comment
is open. -/
theorem parse_errors (h : parse source tolerant = .ok program) :
    program.Dismisses (layout source) tolerant ∧ ¬ Text.HasOpenComment source.toList := by
  have hp : (layout source).tokens.Placed (Text.byteLength source.toList) := lex_placed source
  obtain ⟨-, units, hunits, rfl⟩ := parse_eq_ok_iff.mp h
  obtain ⟨j, hsource⟩ := Grammar.parseUnits_isSource (lex_wellSpelled source) hunits
  have hlast : j = (lex source).tokens.size - 1 :=
    hp.eq_last hsource.ends fun n hn => hsource.row.inside.2 n (Nat.zero_le n) hn
  refine ⟨fun n hkind => ?_, fun hopen => ?_⟩
  · have hkind : (lex source).tokens.lexemes.kindAt n = .error :=
      ((lex source).tokens.kind_eq n).symm.trans hkind
    have hn : n < j := by
      have hlt := hp.succ_lt_size (show (lex source).tokens.lexemes.kindAt n ≠ .eof by
        rw [hkind]
        decide)
      change n + 1 < (lex source).tokens.size at hlt
      omega
    obtain ⟨u, hu, hi, hlt⟩ := hsource.exists_unit hn
    rcases Lexemes.error_of_all (hsource.stands u hu) hi hlt hkind with
      hhides | ⟨p, hwithin, hincomplete, hp'⟩
    · exact .inl ((hides_iff hp hsource.stands).mpr ⟨u, hu, hhides⟩)
    · have hsupports := hsource.stands u hu p hwithin
      have hallowed := hsupports.allowed hincomplete
      have hwithin : ((Part.unit u).relocate (layout source).relocation).Within
          (p.relocate (layout source).relocation) := Part.within_relocate.mpr ⟨p, hwithin, rfl⟩
      refine .inr ⟨?_, _, List.mem_map_of_mem hu, p.relocate (layout source).relocation, hwithin,
        (Part.isIncomplete_relocate _).mpr hincomplete, _, _, ?_, hp'⟩
      · cases tolerant with
        | true => rfl
        | false => cases hallowed
      · rw [Part.place_relocate]
        exact Layout.runs_span hp hsupports.covers
  · obtain ⟨n, hn, hkind⟩ := hopen.kindAt
    exact hsource.last_ne_error (by omega) hkind

/-- Errors in a pragma, in a broken statement and in an assembly block. -/
def invalid : String :=
  "pragma p #; contract C { function f() { # ; assembly { # } } }"

/-- The errors of a source that parses with tolerance. -/
theorem parse_errors_invalid :
    ∃ program, parse invalid true = .ok program ∧
      program.Dismisses (layout invalid) true ∧ ¬ Text.HasOpenComment invalid.toList := by
  have hok : (parse invalid true).isOk = true := by
    rw [invalid, parse, read_ofList]
    decide +kernel
  cases h : parse invalid true with
  | error e =>
    rw [h] at hok
    cases hok
  | ok program => exact ⟨program, rfl, parse_errors h⟩

end Source

end SolidityParser
