import SolidityParser.Proofs.Production.Bracket
import SolidityParser.Proofs.Production.Thin

/-!
# Tokens that no rule reads

The grammar leaves two kinds of passages unread: the value of a pragma and the body of an assembly
block (`Part.unread?`). `Part.Hides` says that a token is in one of them, in a node or somewhere
below. All other tokens are read: in what stands in an input without repairs, they take the open
brackets back to where they were (`Lexemes.enters_of_all`), and no error is among them but in
statements that were skipped (`Lexemes.error_of_all`).
-/

namespace SolidityParser

/-! ### Runs over the tokens that are read -/

/-- From an index up to another, the tokens that are not hidden take the open brackets to others. -/
inductive Lexemes.Enters (lexemes : Lexemes) (hidden : Nat → Prop) :
    List Kind → Nat → List Kind → Nat → Prop
  | stop (closers : List Kind) (i : Nat) : Enters lexemes hidden closers i closers i
  | read {closers next last : List Kind} {i j : Nat} (seen : ¬ hidden i)
      (enter : (lexemes.kindAt i).enter? closers = some next)
      (rest : Enters lexemes hidden next (i + 1) last j) : Enters lexemes hidden closers i last j
  | skip {closers last : List Kind} {i j : Nat} (unseen : hidden i)
      (rest : Enters lexemes hidden closers (i + 1) last j) : Enters lexemes hidden closers i last j

namespace Lexemes

variable {lexemes : Lexemes} {hidden other : Nat → Prop} {closers next last : List Kind}
  {i j k n : Nat} {symbols : List Symbol}

namespace Enters

/-- A stretch does not go back. -/
theorem le (h : lexemes.Enters hidden closers i last j) : i ≤ j := by
  induction h with
  | stop => exact Nat.le_refl _
  | read _ _ _ ih | skip _ _ ih => exact Nat.le_of_succ_le ih

/-- Two stretches are one. -/
theorem trans (h : lexemes.Enters hidden closers i next k)
    (h' : lexemes.Enters hidden next k last j) : lexemes.Enters hidden closers i last j := by
  induction h with
  | stop => exact h'
  | read seen enter _ ih => exact .read seen enter (ih h')
  | skip unseen _ ih => exact .skip unseen (ih h')

/-- Only the tokens in between matter. -/
theorem congr (h : lexemes.Enters hidden closers i last j)
    (heq : ∀ n, i ≤ n → n < j → (hidden n ↔ other n)) : lexemes.Enters other closers i last j := by
  induction h with
  | stop => exact .stop _ _
  | read seen enter rest ih =>
    have hle := rest.le
    refine .read (fun h => seen ((heq _ (Nat.le_refl _) hle).mpr h)) enter ?_
    exact ih fun n hn hlt => heq n (by omega) hlt
  | skip unseen rest ih =>
    have hle := rest.le
    refine .skip ((heq _ (Nat.le_refl _) hle).mp unseen) ?_
    exact ih fun n hn hlt => heq n (by omega) hlt

/-- Tokens that are all hidden change nothing. -/
theorem of_hidden (hle : i ≤ j) (h : ∀ n, i ≤ n → n < j → hidden n) (closers : List Kind) :
    lexemes.Enters hidden closers i closers j := by
  induction hd : j - i generalizing i with
  | zero =>
    obtain rfl : i = j := by omega
    exact .stop _ _
  | succ d ih =>
    refine .skip (h i (Nat.le_refl _) (by omega)) ?_
    exact ih (by omega) (fun n hn hlt => h n (by omega) hlt) (by omega)

/-- One token that is read. -/
theorem single {kind : Kind} (seen : ¬ hidden i) (hkind : lexemes.kindAt i = kind)
    (enter : kind.enter? closers = some next) : lexemes.Enters hidden closers i next (i + 1) :=
  .read seen (hkind ▸ enter) (.stop _ _)

/-- The kinds of the tokens that are not hidden are entered one after the other. -/
theorem enterAll? [DecidablePred hidden] (h : lexemes.Enters hidden closers i last j) :
    Kind.enterAll? closers
      (((List.range' i (j - i)).filter fun n => ¬ hidden n).map lexemes.kindAt) = some last := by
  induction h with
  | stop => simp [Kind.enterAll?]
  | @read _ _ _ i j seen enter rest ih =>
    have hle := rest.le
    rw [show j - i = j - (i + 1) + 1 by omega, List.range'_succ, List.filter_cons_of_pos (by simpa),
      List.map_cons, Kind.enterAll?, enter]
    exact ih
  | @skip _ _ i j unseen rest ih =>
    have hle := rest.le
    rw [show j - i = j - (i + 1) + 1 by omega, List.range'_succ,
      List.filter_cons_of_neg (by simpa)]
    exact ih

end Enters

/-- Tokens in a row have the kinds that are spelled. -/
theorem Spells.kinds_eq {kinds : List Kind} (h : lexemes.Spells i (kinds.map .token) j) :
    (List.range' i (j - i)).map lexemes.kindAt = kinds := by
  induction kinds generalizing i with
  | nil =>
    obtain rfl : i = j := h
    simp
  | cons k kinds ih =>
    obtain ⟨⟨-, hk⟩, hrest⟩ := h
    have hle := hrest.inside.1
    rw [show j - i = j - (i + 1) + 1 by omega, List.range'_succ, List.map_cons, ih hrest, hk]

/-- Names with points between are no brackets. -/
theorem Steps.enters {names : List String} (h : lexemes.Steps i names j)
    (hseen : ∀ n, i ≤ n → n < j → ¬ hidden n) : lexemes.Enters hidden closers i closers j := by
  induction names generalizing i with
  | nil =>
    obtain rfl := h
    exact .stop _ _
  | cons name names ih =>
    obtain ⟨⟨hdot, hident, -⟩, hrest⟩ := h
    have hle := hrest.inside.1
    refine (Enters.single (hseen _ (Nat.le_refl _) (by omega)) hdot rfl).trans ?_
    refine (Enters.single (hseen _ (by omega) (by omega)) hident rfl).trans ?_
    exact ih hrest fun n hn hlt => hseen n (by omega) hlt

/-- What symbols spell takes the open brackets where the symbols do, if each smaller construct among
them changes nothing, and nothing else is hidden. -/
theorem Spells.enters (h : lexemes.Spells i symbols j)
    (hclosers : Symbol.closers? closers symbols = some last)
    (hparts : ∀ place, .part place ∈ symbols → ∀ closers,
      lexemes.Enters hidden closers place.first closers place.next)
    (hhidden : ∀ n, i ≤ n → n < j → hidden n →
      ∃ place, .part place ∈ symbols ∧ place.first ≤ n ∧ n < place.next) :
    lexemes.Enters hidden closers i last j := by
  induction symbols generalizing i closers with
  | nil =>
    obtain rfl := h
    cases hclosers
    exact .stop _ _
  | cons symbol symbols ih =>
    have hparts' (place) (hplace : .part place ∈ symbols) := hparts place (.tail _ hplace)
    -- what is hidden further on is in a later part
    have later {k : Nat} (hk : i ≤ k) (hsymbol : ∀ place, .part place = symbol → place.next ≤ k)
        (n : Nat) (hn : k ≤ n) (hlt : n < j) (hhid : hidden n) :
        ∃ place, .part place ∈ symbols ∧ place.first ≤ n ∧ n < place.next := by
      obtain ⟨place, hplace, hfirst, hnext⟩ := hhidden n (by omega) hlt hhid
      rcases List.mem_cons.mp hplace with heq | hplace
      · have := hsymbol place heq
        omega
      · exact ⟨place, hplace, hfirst, hnext⟩
    -- and so no token before the parts is hidden
    have seen {k : Nat} (hrest : lexemes.Spells k symbols j)
        (hsymbol : ∀ place, .part place ≠ symbol) (n : Nat) (hn : i ≤ n) (hlt : n < k) :
        ¬ hidden n := by
      intro hhid
      have hkj := hrest.inside.1
      obtain ⟨place, hplace, hfirst, -⟩ := hhidden n hn (by omega) hhid
      rcases List.mem_cons.mp hplace with heq | hplace
      · exact hsymbol place heq
      · have := (hrest.part_inside (mem_parts_of_part hplace)).1
        omega
    cases symbol with
    | token kind =>
      obtain ⟨⟨-, hkind⟩, hrest⟩ := h
      obtain ⟨next, henter, hclosers⟩ := Option.bind_eq_some_iff.mp hclosers
      refine (Enters.single (seen hrest nofun i (Nat.le_refl _) (by omega)) hkind henter).trans ?_
      exact ih hrest hclosers hparts' (later (Nat.le_succ i) nofun)
    | word kind text =>
      obtain ⟨⟨-, hkind, -⟩, hrest⟩ := h
      obtain ⟨next, henter, hclosers⟩ := Option.bind_eq_some_iff.mp hclosers
      refine (Enters.single (seen hrest nofun i (Nat.le_refl _) (by omega)) hkind henter).trans ?_
      exact ih hrest hclosers hparts' (later (Nat.le_succ i) nofun)
    | part place =>
      obtain ⟨⟨rfl, hcovers⟩, hrest⟩ := h
      have hlt := hcovers.nonempty
      refine (hparts place (List.mem_cons_self ..) closers).trans ?_
      refine ih hrest hclosers hparts' (later (Nat.le_of_lt hlt) ?_)
      rintro _ ⟨⟩
      exact Nat.le_refl _
    | path place first more =>
      obtain ⟨⟨rfl, ⟨hident, -⟩, hsteps⟩, hrest⟩ := h
      have hle := hsteps.inside.1
      have hseen := seen hrest nofun
      refine (Enters.single (hseen _ (Nat.le_refl _) (by omega)) hident rfl).trans ?_
      refine (hsteps.enters fun n hn hlt => hseen n (by omega) hlt).trans ?_
      exact ih hrest hclosers hparts' (later (by omega) nofun)
    | no | here => exact ih h.2 hclosers hparts' (later (Nat.le_refl _) nofun)

end Lexemes

/-! ### Braces that close -/

/-- Is this a brace? -/
def Kind.isBrace (k : Kind) : Bool := k matches .lbrace | .rbrace

/-- Tokens that close open braces, and stop there, end with a brace; of those before it, each brace
is entered. -/
theorem Kind.Close.enterAll? {depth : Nat} {kinds : List Kind} (h : Kind.Close (depth + 1) kinds) :
    ∃ inner, kinds = inner ++ [.rbrace] ∧
      Kind.enterAll? (List.replicate depth .rbrace) (inner.filter Kind.isBrace) = some [] := by
  induction kinds generalizing depth with
  | nil => exact h.elim
  | cons k kinds ih =>
    have hrest : Kind.Close (k.bracesAfter (depth + 1)) kinds := h
    by_cases hopen : k = .lbrace
    · subst hopen
      obtain ⟨inner, rfl, henter⟩ := ih hrest
      exact ⟨.lbrace :: inner, rfl, henter⟩
    by_cases hclose : k = .rbrace
    · subst hclose
      cases depth with
      | zero =>
        obtain rfl : kinds = [] := by simpa [Kind.Close, Kind.bracesAfter] using hrest
        exact ⟨[], rfl, rfl⟩
      | succ depth =>
        obtain ⟨inner, rfl, henter⟩ := ih hrest
        exact ⟨.rbrace :: inner, rfl, henter⟩
    · have hafter : k.bracesAfter (depth + 1) = depth + 1 := by
        unfold Kind.bracesAfter
        split <;> simp_all
      have hbrace : k.isBrace = false := by
        unfold Kind.isBrace
        split <;> simp_all
      rw [hafter] at hrest
      obtain ⟨inner, rfl, henter⟩ := ih hrest
      exact ⟨k :: inner, rfl, by rwa [List.filter_cons_of_neg (by simp [hbrace])]⟩

/-! ### Passages -/

namespace Part

/-- The tokens of a node that no rule reads: the value of a pragma, and what stands between the
braces of an assembly block. -/
def unread? : Part .parsed → Option Extent
  | unit (.pragma directive) => some directive.value
  | statement (.assembly _ _ _ body) => some ⟨body.first + 1, body.next - 1⟩
  | _ => none

/-- A token at an index is left unread, in a node or somewhere below. -/
def Hides (part : Part .parsed) (n : Nat) : Prop :=
  ∃ p, part.Within p ∧ ∃ e ∈ p.unread?, e.first ≤ n ∧ n < e.next

variable {part child : Part .parsed} {field : List (Part .parsed)} {n : Nat}

/-- A token is left unread in the node itself, or in one right below. -/
theorem hides_iff : part.Hides n ↔ (∃ e ∈ part.unread?, e.first ≤ n ∧ n < e.next) ∨
    ∃ field ∈ part.fields, ∃ child ∈ field, child.Hides n := by
  constructor
  · rintro ⟨p, hwithin, hp⟩
    cases hwithin with
    | self => exact .inl hp
    | step hfield hchild rest => exact .inr ⟨_, hfield, _, hchild, p, rest, hp⟩
  · rintro (hp | ⟨field, hfield, child, hchild, p, hwithin, hp⟩)
    · exact ⟨part, .self _, hp⟩
    · exact ⟨p, .step hfield hchild hwithin, hp⟩

/-- A node with a passage has no other parts. -/
theorem fields_of_unread? {e : Extent} (h : part.unread? = some e) : part.fields = [] := by
  unfold unread? at h
  split at h <;> first | rfl | cases h

/-- A node with a passage hides just its tokens. -/
theorem hides_iff_of_unread? {e : Extent} (h : part.unread? = some e) :
    part.Hides n ↔ e.first ≤ n ∧ n < e.next := by
  rw [hides_iff, h, fields_of_unread? h]
  simp

/-- Nothing is left unread below statements and declarations. -/
theorem IsOpen.not_hides (h : part.IsOpen) : ¬ part.Hides n := by
  induction part using Part.induction with
  | step part ih =>
    rw [hides_iff]
    rintro (⟨e, he, -⟩ | ⟨field, hfield, child, hchild, hhides⟩)
    · cases part <;> first | exact h.elim | cases he
    · exact ih field hfield child hchild (h.isPhrasal.below_isOpen field hfield child hchild) hhides

end Part

namespace Lexemes

variable {lexemes : Lexemes} {repairs : Repairs} {part child : Part .parsed}
  {field : List (Part .parsed)} {n : Nat}

/-- The value of a pragma stands between its name and its semicolon. -/
structure PragmaRead (lexemes : Lexemes) (directive : Pragma .parsed) : Prop where
  /-- The keyword. -/
  keyword : lexemes.kindAt directive.place.first = .kwPragma
  /-- The name. -/
  name : lexemes.kindAt (directive.place.first + 1) = .ident
  /-- The value begins there. -/
  first : directive.value.first = directive.place.first + 2
  /-- It is not reversed. -/
  le : directive.value.first ≤ directive.value.next
  /-- It ends there. -/
  next : directive.place.next = directive.value.next + 1
  /-- The semicolon. -/
  closing : lexemes.kindAt directive.value.next = .semicolon

/-- A pragma passes over everything between its name and its semicolon. -/
theorem Supports.pragma {directive : Pragma .parsed}
    (h : lexemes.Supports repairs (.unit (.pragma directive))) : lexemes.PragmaRead directive := by
  cases h with
  | phrase holds =>
    obtain ⟨-, symbols, hphrased, hspells⟩ := holds
    cases hphrased with
    | pragma =>
      obtain ⟨⟨-, hkeyword⟩, ⟨-, hname, -⟩, hfirst, hrest⟩ := hspells
      obtain ⟨k, hkinds, hnext, ⟨-, hclosing⟩, hend⟩ := spells_append.mp hrest
      have hle := hkinds.inside.1
      obtain rfl : _ = k := hnext
      exact ⟨hkeyword, hname, hfirst, by dsimp only at hfirst ⊢; omega, hend.symm, hclosing⟩
    | unit hmember => cases hmember
  | composed _ _ composed =>
    cases composed with
    | unit hmember => cases hmember
  | recovered recovered => cases recovered

/-- The body of an assembly block comes last, and ends with the brace that closes its first. -/
structure AssemblyRead (lexemes : Lexemes) (place body : Extent) : Prop where
  /-- What comes before it has no brace, and all of it is read. -/
  front : ∃ symbols, lexemes.Spells place.first symbols body.first ∧ Symbol.Paired symbols ∧
    ¬ Symbol.Names .lbrace symbols ∧ ∀ place, .part place ∉ symbols
  /-- It does not come first. -/
  inside : place.first < body.first
  /-- The opening brace. -/
  opening : lexemes.kindAt body.first = .lbrace
  /-- The tokens after it, up to a brace, close what they open. -/
  kinds : ∃ kinds : List Kind, Kind.enterAll? [] (kinds.filter Kind.isBrace) = some [] ∧
    lexemes.Spells (body.first + 1) (kinds.map .token) (body.next - 1)
  /-- There may be none. -/
  lt : body.first + 1 < body.next
  /-- The closing brace. -/
  closing : lexemes.kindAt (body.next - 1) = .rbrace
  /-- Nothing comes after it. -/
  next : place.next = body.next

/-- Assembly passes over everything between its braces. -/
theorem Supports.assembly {place body : Extent} {language : Option String} {flags : List String}
    (h : lexemes.Supports repairs (.statement (.assembly place language flags body))) :
    lexemes.AssemblyRead place body := by
  cases h with
  | phrase holds =>
    obtain ⟨-, symbols, hphrased, -⟩ := holds
    cases hphrased
  | composed _ _ composed spells =>
    cases composed with
    | @assembly _ _ language flags kinds hclose =>
      obtain ⟨k, hall, hrest, hlast⟩ := spells_append.mp spells
      obtain ⟨l, hfront, hfirst, ⟨-, hopening⟩, hkinds⟩ := spells_append.mp hall
      obtain rfl : _ = l := hfirst
      obtain rfl : _ = k := hrest
      obtain ⟨inner, rfl, henter⟩ := hclose.enterAll?
      rw [List.map_append] at hkinds
      obtain ⟨m, hinner, ⟨-, hclosing⟩, hend⟩ := spells_append.mp hkinds
      obtain rfl : m = body.next - 1 := Nat.eq_sub_of_add_eq hend
      have hle := hinner.inside.1
      refine ⟨⟨_, hfront, ?_, ?_, ?_⟩, ?_, hopening, ⟨inner, henter, hinner⟩, ?_, hclosing,
        hlast.symm⟩
      · refine .append ?_ Symbol.paired_flags
        exact (Symbol.paired_token (k := .kwAssembly) rfl).append
          (Symbol.paired_map fun _ _ => Symbol.paired_word rfl)
      · cases language <;> cases flags <;> simp [Symbol.flags, Symbol.names_series]
      · cases language <;> cases flags <;> simp [Symbol.flags, Symbol.mem_series]
      · exact (hfront.covers ⟨.token .kwAssembly, by simp, rfl⟩).nonempty
      · have hend : body.next - 1 + 1 = body.next := hend
        omega
  | recovered recovered => cases recovered

/-- Any other node that was not repaired names its parts, its brackets in pairs, and no error. -/
theorem Supports.read (h : lexemes.Supports repairs part) (hread : part.unread? = none) :
    lexemes.Recovered repairs part ∨ ∃ symbols, Symbol.Paired symbols ∧
      lexemes.Spells part.place.first symbols part.place.next ∧
      (∀ place, .part place ∈ symbols →
        ∃ field ∈ part.fields, ∃ child ∈ field, child.place = place) ∧
      ∀ field ∈ part.fields, ∀ child ∈ field, ¬ child.IsOpen → .part child.place ∈ symbols := by
  cases h with
  | phrase holds =>
    obtain ⟨-, symbols, hphrased, hspells⟩ := holds
    refine .inr ⟨symbols, hphrased.paired ?_, hspells, fun _ => hphrased.child_of_part, ?_⟩
    · rintro d rfl
      cases hread
    · exact fun field hfield child hchild hopen =>
        absurd (hphrased.isPhrasal.below_isOpen field hfield child hchild) hopen
  | composed _ _ composed spells =>
    refine .inr ⟨_, composed.paired ?_, spells, fun _ => composed.child_of_part,
      composed.part_of_child⟩
    rintro place language flags body rfl
    cases hread
  | recovered recovered => exact .inl recovered

/-! ### Tokens that are hidden -/

/-- A passage lies within its node, and has a token of the node before it and after it. -/
theorem Supports.unread_inside (h : lexemes.Supports repairs part) {e : Extent}
    (he : e ∈ part.unread?) : part.place.first < e.first ∧ e.next < part.place.next := by
  unfold Part.unread? at he
  split at he
  · cases he
    have hread := h.pragma
    have hfirst := hread.first
    have hnext := hread.next
    dsimp only [Part.place, SourceUnit.place]
    omega
  · cases he
    have hread := h.assembly
    have hinside := hread.inside
    have hlt := hread.lt
    have hnext := hread.next
    dsimp only [Part.place, Statement.place]
    omega
  · cases he

/-- What a node holds of the tokens of a passage lies within it, and does not come first. -/
theorem Supports.held_inside (h : lexemes.Supports repairs part) {e : Extent}
    (he : e ∈ part.bodies ∨ e ∈ part.values) :
    part.place.first < e.first ∧ e.first < part.place.next ∧ e.first ≤ e.next ∧
      e.next ≤ part.place.next := by
  cases part with
  | statement s =>
    cases s with
    | assembly =>
      obtain rfl : e = _ := by simpa [Part.bodies, Part.values] using he
      have hread := h.assembly
      have hinside := hread.inside
      have hlt := hread.lt
      have hnext := hread.next
      dsimp only [Part.place, Statement.place]
      omega
    | _ => simp [Part.bodies, Part.values] at he
  | unit u =>
    cases u with
    | pragma directive =>
      obtain rfl : e = _ := by simpa [Part.bodies, Part.values] using he
      have hread := h.pragma
      have hfirst := hread.first
      have hle := hread.le
      have hnext := hread.next
      dsimp only [Part.place, SourceUnit.place]
      omega
    | _ => simp [Part.bodies, Part.values] at he
  | _ => simp [Part.bodies, Part.values] at he

/-- Hidden tokens lie within the node, and do not come last. -/
theorem inside_of_hides (h : part.All (lexemes.Supports repairs)) (hn : part.Hides n) :
    part.place.first ≤ n ∧ n + 1 < part.place.next := by
  induction part using Part.induction with
  | step part ih =>
    rcases Part.hides_iff.mp hn with ⟨e, he, hfirst, hnext⟩ | ⟨field, hfield, child, hchild, hn⟩
    · have hinside := h.here.unread_inside he
      omega
    · have hinside := h.here.inside hfield hchild
      have hn := ih field hfield child hchild (h.below hfield hchild) hn
      omega

/-- Whether a token is hidden depends on the part that it stands in. -/
theorem hides_iff_of_child (h : part.All (lexemes.Supports repairs)) (hread : part.unread? = none)
    (hfield : field ∈ part.fields) (hchild : child ∈ field) (hi : child.place.first ≤ n)
    (hj : n < child.place.next) : part.Hides n ↔ child.Hides n := by
  rw [Part.hides_iff]
  constructor
  · rintro (⟨e, he, -⟩ | ⟨field', hfield', child', hchild', hn⟩)
    · rw [hread] at he
      cases he
    · by_cases heq : child' = child
      · exact heq ▸ hn
      · have hinside := inside_of_hides (h.below hfield' hchild') hn
        have hapart := h.here.apart hfield' hchild' hfield hchild heq
        omega
  · exact fun hn => .inr ⟨field, hfield, child, hchild, hn⟩

/-- Of what stands in the input without repairs, the tokens that are read leave the open brackets as
they were. -/
theorem enters_of_all (h : part.All (lexemes.Supports .none)) (closers : List Kind) :
    lexemes.Enters part.Hides closers part.place.first closers part.place.next := by
  induction part using Part.induction generalizing closers with
  | step part ih =>
    cases hread : part.unread? with
    | none =>
      rcases h.here.read hread with hrecovered | ⟨symbols, hpaired, hspells, hchildren, hnamed⟩
      · cases hrecovered with
        | skipped allowed => cases allowed
        | cut allowed => cases allowed
      · refine hspells.enters (hpaired closers) (fun place hplace closers => ?_) ?_
        · obtain ⟨field, hfield, child, hchild, rfl⟩ := hchildren place hplace
          refine (ih field hfield child hchild (h.below hfield hchild) closers).congr ?_
          exact fun n hn hlt => (hides_iff_of_child h hread hfield hchild hn hlt).symm
        · intro n _ _ hn
          rcases Part.hides_iff.mp hn with ⟨e, he, -⟩ | ⟨field, hfield, child, hchild, hn⟩
          · rw [hread] at he
            cases he
          · have hopen : ¬ child.IsOpen := fun hopen => hopen.not_hides hn
            have hinside := inside_of_hides (h.below hfield hchild) hn
            exact ⟨_, hnamed field hfield child hchild hopen, hinside.1, by omega⟩
    | some e =>
      have hides (n : Nat) : part.Hides n ↔ e.first ≤ n ∧ n < e.next :=
        Part.hides_iff_of_unread? hread
      unfold Part.unread? at hread
      split at hread
      · next directive =>
        cases hread
        obtain ⟨hkeyword, hname, hfirst, hle, hnext, hclosing⟩ := h.here.pragma
        have hseen (n : Nat) (hn : n < directive.value.first ∨ directive.value.next ≤ n) :
            ¬ (Part.unit (.pragma directive)).Hides n := by
          rw [hides]
          omega
        change lexemes.Enters _ closers directive.place.first closers directive.place.next
        rw [hnext]
        refine (Enters.single (hseen _ (by omega)) hkeyword rfl).trans ?_
        refine (Enters.single (hseen _ (by omega)) hname rfl).trans ?_
        rw [show directive.place.first + 1 + 1 = directive.value.first from hfirst.symm]
        refine (Enters.of_hidden hle (fun n hn hlt => (hides n).mpr ⟨hn, hlt⟩) closers).trans ?_
        exact .single (hseen _ (by omega)) hclosing rfl
      · next place language flags body =>
        cases hread
        obtain ⟨⟨symbols, hspells, hpaired, -, hparts⟩, hinside, hopening, -, hlt, hclosing, hnext⟩ :=
          h.here.assembly
        have hseen (n : Nat) (hn : n < body.first + 1 ∨ body.next - 1 ≤ n) :
            ¬ (Part.statement (.assembly place language flags body)).Hides n := by
          rw [hides]
          dsimp only
          omega
        change lexemes.Enters _ closers place.first closers place.next
        rw [hnext, show body.next = body.next - 1 + 1 by omega]
        refine (hspells.enters (hpaired closers) (fun _ hplace => absurd hplace (hparts _))
          fun n _ hn hhides => absurd hhides (hseen n (by omega))).trans ?_
        refine (Enters.single (hseen _ (by omega)) hopening rfl).trans ?_
        refine (Enters.of_hidden (i := body.first + 1) (j := body.next - 1) (by omega)
          (fun n hn hlt => (hides n).mpr ⟨hn, hlt⟩) _).trans ?_
        exact .single (hseen _ (by omega)) hclosing rfl
      · cases hread

/-- What stands in the input lies within what it is found in. -/
theorem within_inside (h : part.All (lexemes.Supports repairs)) {p : Part .parsed}
    (hp : part.Within p) : part.place.first ≤ p.place.first ∧ p.place.next ≤ part.place.next := by
  induction hp with
  | self => exact ⟨Nat.le_refl _, Nat.le_refl _⟩
  | step hfield hchild _ ih =>
    have hinside := h.here.inside hfield hchild
    have hrest := ih (h.below hfield hchild)
    omega

/-- A token that parts in a row take up stands in one of them. -/
theorem Spells.row_at {places : List Extent} {i j : Nat}
    (h : lexemes.Spells i (Symbol.row places) j) (hi : i ≤ n) (hj : n < j) :
    ∃ place ∈ places, place.first ≤ n ∧ n < place.next := by
  induction places generalizing i with
  | nil =>
    have : i = j := h
    omega
  | cons place places ih =>
    obtain ⟨⟨rfl, -⟩, hrest⟩ := h
    by_cases hlt : n < place.next
    · exact ⟨place, List.mem_cons_self .., hi, hlt⟩
    · obtain ⟨other, hother, hinside⟩ := ih hrest (by omega)
      exact ⟨other, .tail _ hother, hinside⟩

/-! ### Errors -/

/-- An error that symbols spell stands in a smaller construct, if they name none. -/
theorem Spells.error_at {symbols : List Symbol} {i j : Nat} (h : lexemes.Spells i symbols j)
    (herror : ¬ Symbol.Names .error symbols) (hi : i ≤ n) (hj : n < j)
    (hkind : lexemes.kindAt n = .error) :
    ∃ place, .part place ∈ symbols ∧ place.first ≤ n ∧ n < place.next := by
  rcases h.cases_at hi hj with hnames | hpath | hpart
  · exact absurd (hkind ▸ hnames) herror
  · rw [hkind] at hpath
    rcases hpath with hpath | hpath <;> cases hpath
  · exact hpart

/-- An error in a node with a passage stands in the passage. -/
theorem Supports.error_hidden (h : lexemes.Supports repairs part) {e : Extent}
    (hread : part.unread? = some e) (hi : part.place.first ≤ n) (hj : n < part.place.next)
    (hkind : lexemes.kindAt n = .error) : e.first ≤ n ∧ n < e.next := by
  -- the error is none of the tokens around the passage
  have hne {m : Nat} {k : Kind} (hm : lexemes.kindAt m = k) (hk : k ≠ .error) : n ≠ m := by
    rintro rfl
    exact hk (hm.symm.trans hkind)
  unfold Part.unread? at hread
  split at hread
  · cases hread
    obtain ⟨hkeyword, hname, hfirst, -, hnext, hclosing⟩ := h.pragma
    have hkeyword := hne hkeyword (by decide)
    have hname := hne hname (by decide)
    have hclosing := hne hclosing (by decide)
    dsimp only [Part.place, SourceUnit.place] at hi hj
    omega
  · next place language flags body =>
    cases hread
    obtain ⟨⟨symbols, hspells, hpaired, -, hparts⟩, hinside, hopening, -, -, hclosing, hnext⟩ :=
      h.assembly
    have hopening := hne hopening (by decide)
    have hclosing := hne hclosing (by decide)
    have hfront : body.first ≤ n := by
      by_contra hlt
      obtain ⟨_, hplace, -⟩ := hspells.error_at (Symbol.not_names_error (hpaired [])) hi
        (by omega) hkind
      exact hparts _ hplace
    dsimp only [Part.place, Statement.place] at hi hj ⊢
    omega
  · cases hread

/-- Of what stands in the input, each error is left unread, or in a statement that was skipped. -/
theorem error_of_all (h : part.All (lexemes.Supports repairs)) (hi : part.place.first ≤ n)
    (hj : n < part.place.next) (hkind : lexemes.kindAt n = .error) :
    part.Hides n ∨
      ∃ p, part.Within p ∧ p.IsIncomplete ∧ p.place.first ≤ n ∧ n < p.place.next := by
  induction part using Part.induction with
  | step part ih =>
    -- an error below is one here
    have below {field : List (Part .parsed)} {child : Part .parsed} (hfield : field ∈ part.fields)
        (hchild : child ∈ field) (hi : child.place.first ≤ n) (hj : n < child.place.next) :
        part.Hides n ∨
          ∃ p, part.Within p ∧ p.IsIncomplete ∧ p.place.first ≤ n ∧ n < p.place.next := by
      rcases ih field hfield child hchild (h.below hfield hchild) hi hj with
        hhides | ⟨p, hwithin, hp⟩
      · exact .inl (Part.hides_iff.mpr (.inr ⟨field, hfield, child, hchild, hhides⟩))
      · exact .inr ⟨p, .step hfield hchild hwithin, hp⟩
    cases hread : part.unread? with
    | some e =>
      exact .inl ((Part.hides_iff_of_unread? hread).mpr (h.here.error_hidden hread hi hj hkind))
    | none =>
      rcases h.here.read hread with hrecovered | ⟨symbols, hpaired, hspells, hchildren, -⟩
      · cases hrecovered with
        | skipped => exact .inr ⟨_, .self _, trivial, hi, hj⟩
        | @cut place body _ _ spells =>
          obtain ⟨_, hplace, hi, hj⟩ :=
            spells.error_at (by simp [Symbol.row, Symbol.names_map, Symbol.kind?]) hi hj hkind
          obtain ⟨s, hs, rfl⟩ : ∃ s ∈ body, s.place = _ := by simpa [Symbol.row] using hplace
          exact below (List.mem_singleton_self _)
            (List.mem_map_of_mem (f := Part.statement) hs) hi hj
      · obtain ⟨_, hplace, hi, hj⟩ :=
          hspells.error_at (Symbol.not_names_error (hpaired [])) hi hj hkind
        obtain ⟨field, hfield, child, hchild, rfl⟩ := hchildren _ hplace
        exact below hfield hchild hi hj

/-- After a statement of a block comes another one, a closing brace, or a member of the contract. -/
theorem Supports.block_next {place : Extent} {body : List (Statement .parsed)}
    {s : Statement .parsed} (h : lexemes.Supports repairs (.block (.mk place body)))
    (hs : s ∈ body) : (∃ next ∈ body, next.place.first = s.place.next ∧
        lexemes.Covers next.place) ∨
      lexemes.kindAt s.place.next = .rbrace ∨
      repairs.cutsBlocks = true ∧ Grammar.atMember lexemes s.place.next = true := by
  obtain ⟨-, -, k, hrow, hend⟩ := h.block
  have hrow' : lexemes.Spells (place.first + 1) (Symbol.row (body.map (·.place)) ++ []) k := by
    rwa [List.append_nil]
  rcases hrow'.row_next (List.mem_map_of_mem hs) with ⟨_, hnext, hfirst⟩ | hlast
  · have hcovers := (hrow.part_inside (by rwa [Symbol.parts_row])).2.2
    obtain ⟨next, hmem, rfl⟩ := List.mem_map.mp hnext
    exact .inl ⟨next, hmem, hfirst, hcovers⟩
  · obtain rfl : s.place.next = k := hlast
    exact .inr (hend.imp And.left fun ⟨hcuts, hmember, _⟩ => ⟨hcuts, hmember⟩)

/-- No member begins where the input ends. -/
theorem kindAt_ne_eof_of_atMember (h : Grammar.atMember lexemes n = true) :
    lexemes.kindAt n ≠ .eof := by
  intro heof
  simp [Grammar.atMember, Grammar.beginsMember, heof] at h

/-- A statement is skipped only where that is allowed. -/
theorem Supports.allowed (h : lexemes.Supports repairs part) (hpart : part.IsIncomplete) :
    repairs = .all := by
  cases h with
  | phrase holds =>
    obtain ⟨-, symbols, hphrased, -⟩ := holds
    exact absurd hpart hphrased.isPhrasal.not_isIncomplete
  | composed _ _ composed => cases composed <;> exact hpart.elim
  | recovered recovered =>
    cases recovered with
    | skipped allowed => exact allowed
    | cut => exact hpart.elim

/-- A statement that was skipped stands in a block. -/
theorem exists_block (h : part.All (lexemes.Supports repairs)) (hpart : ¬ part.IsIncomplete)
    {p : Part .parsed} (hp : part.Within p) (hincomplete : p.IsIncomplete) :
    ∃ b s, part.Within (.block b) ∧ s ∈ b.body ∧ p = .statement s := by
  induction hp with
  | self => exact absurd hincomplete hpart
  | @step part child p field hfield hchild rest ih =>
    by_cases hchild' : child.IsIncomplete
    · -- a skipped statement has no parts
      have hself : p = child := by
        cases rest with
        | self => rfl
        | step hfield =>
          cases child with
          | statement s => cases s <;> first | exact hchild'.elim | cases hfield
          | _ => exact hchild'.elim
      subst hself
      have hblock : part.IsBlock := by
        by_contra hblock
        exact h.here.child_complete hblock hfield hchild hchild'
      cases part with
      | block b =>
        obtain rfl := List.mem_singleton.mp hfield
        obtain ⟨s, hs, rfl⟩ := List.mem_map.mp hchild
        exact ⟨b, s, .self _, hs, rfl⟩
      | _ => exact hblock.elim
    · obtain ⟨b, s, hwithin, hs, rfl⟩ := ih (h.below hfield hchild) hchild' hincomplete
      exact ⟨b, s, .step hfield hchild hwithin, hs, rfl⟩

/-- After a statement that was skipped, the input does not end. -/
theorem kindAt_next_ne_eof (h : part.All (lexemes.Supports repairs)) (hpart : ¬ part.IsIncomplete)
    {p : Part .parsed} (hp : part.Within p) (hincomplete : p.IsIncomplete) :
    lexemes.kindAt p.place.next ≠ .eof := by
  obtain ⟨⟨place, body⟩, s, hwithin, hs, rfl⟩ := exists_block h hpart hp hincomplete
  change lexemes.kindAt s.place.next ≠ .eof
  rcases (h _ hwithin).block_next hs with ⟨next, -, hfirst, hcovers⟩ | hclose | ⟨-, hmember⟩
  · rw [← hfirst]
    exact hcovers.inside _ (Nat.le_refl _) hcovers.nonempty
  · rw [hclose]
    decide
  · exact kindAt_ne_eof_of_atMember hmember

end Lexemes

end SolidityParser
