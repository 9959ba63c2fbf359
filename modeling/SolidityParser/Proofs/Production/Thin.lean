import Mathlib.Data.List.Pairwise
import Mathlib.Data.Nat.Find
import SolidityParser.Proofs.Production.Nested

/-!
# Words of statements that could not be read

Of a tree, `Part.Spares` holds of the words that are in no statement that could not be read. A word
that is not spared has a brace before it in the same part (`exists_lbrace`), so a statement or a
declaration keeps its first words (`spares_first`), and a member begins where it did
(`atMember_of_keeps`). `Lexemes.Thins` says that another input has the spared words, one after the
other, and no others; `Lexemes.Follows` says what must not come up after a part there.
-/

namespace SolidityParser

open SolidityParser.Symbol (option separated series parts)

namespace Part

/-- A token at an index is in no statement that could not be read. -/
def Spares (part : Part .parsed) (n : Nat) : Prop :=
  part.All fun p : Part .parsed => p.IsIncomplete → ¬ (p.place.first ≤ n ∧ n < p.place.next)

variable {part child : Part .parsed} {field : List (Part .parsed)} {n : Nat}

theorem IsPhrasal.not_isIncomplete {F : Form} {part : Part F} (h : part.IsPhrasal) :
    ¬ part.IsIncomplete := by
  intro hincomplete
  cases part with
  | statement s => cases s <;> first | exact hincomplete | exact h
  | _ => exact hincomplete

/-- Where there are only phrases, no statement is incomplete. -/
theorem IsPhrasal.all_complete {F : Form} {part : Part F} (h : part.IsPhrasal) :
    part.All fun p => ¬ p.IsIncomplete := by
  induction part using Part.induction with
  | step part ih =>
    exact all_iff.mpr ⟨h.not_isIncomplete, fun field hfield child hchild =>
      ih field hfield child hchild (h.below field hfield child hchild)⟩

theorem IsPhrasal.spares (h : part.IsPhrasal) : part.Spares n :=
  h.all_complete.mono fun _ hp hincomplete => absurd hincomplete hp

end Part

namespace Lexemes

variable {lexemes other : Lexemes} {f : Nat → Nat} {repairs : Repairs} {i j n : Nat}
  {part child : Part .parsed} {field : List (Part .parsed)}

/-- What stands in the input lies within what it is part of. -/
theorem Supports.inside (h : lexemes.Supports repairs part) (hfield : field ∈ part.fields)
    (hchild : child ∈ field) :
    part.place.first ≤ child.place.first ∧ child.place.next ≤ part.place.next := by
  obtain ⟨symbols, houtlined, hspells⟩ := h.spelled
  exact houtlined.inside hspells hfield hchild

/-- A token outside a tree is in none of its statements. -/
theorem spares_of_outside (h : part.All (lexemes.Supports repairs))
    (hn : n < part.place.first ∨ part.place.next ≤ n) : part.Spares n := by
  induction part using Part.induction with
  | step part ih =>
    refine Part.all_iff.mpr ⟨fun _ => by omega, fun field hfield child hchild => ?_⟩
    have hinside := h.here.inside hfield hchild
    exact ih field hfield child hchild (h.below hfield hchild) (by omega)

/-- Of the parts right below a part, at most one has a token at an index. -/
theorem Supports.apart (h : lexemes.Supports repairs part) {child' : Part .parsed}
    {field' : List (Part .parsed)} (hfield : field ∈ part.fields) (hchild : child ∈ field)
    (hfield' : field' ∈ part.fields) (hchild' : child' ∈ field') (hne : child ≠ child') :
    child.place.next ≤ child'.place.first ∨ child'.place.next ≤ child.place.first := by
  obtain ⟨symbols, houtlined, hspells⟩ := h.spelled
  have hsymm : Std.Symm fun child other : Part .parsed =>
      child.place.next ≤ other.place.first ∨ other.place.next ≤ child.place.first :=
    ⟨fun _ _ => Or.symm⟩
  exact (houtlined.apart hspells).forall (List.mem_flatten_of_mem hfield hchild)
    (List.mem_flatten_of_mem hfield' hchild') hne

/-- Whether a token is spared depends on the part that it stands in. -/
theorem spares_of_child (h : part.All (lexemes.Supports repairs)) (hpart : ¬ part.IsIncomplete)
    (hfield : field ∈ part.fields) (hchild : child ∈ field) (hi : child.place.first ≤ n)
    (hj : n < child.place.next) (hspares : child.Spares n) : part.Spares n := by
  refine Part.all_iff.mpr ⟨fun hincomplete => absurd hincomplete hpart,
    fun field' hfield' child' hchild' => ?_⟩
  by_cases heq : child' = child
  · exact heq ▸ hspares
  · refine spares_of_outside (h.below hfield' hchild') ?_
    have := h.here.apart hfield' hchild' hfield hchild heq
    omega

/-- A token that is not spared stands in a part below, that has statements in it. -/
theorem exists_of_not_spares (h : part.All (lexemes.Supports repairs))
    (hpart : ¬ part.IsIncomplete) (hn : ¬ part.Spares n) :
    ∃ field ∈ part.fields, ∃ child ∈ field, ¬ child.IsOpen ∧ ¬ child.Spares n ∧
      child.place.first ≤ n ∧ n < child.place.next := by
  by_contra hnone
  push Not at hnone
  refine hn (Part.all_iff.mpr ⟨fun hincomplete => absurd hincomplete hpart,
    fun field hfield child hchild => ?_⟩)
  by_contra hspares
  have hopen : ¬ child.IsOpen := fun hopen => hspares hopen.isPhrasal.spares
  have hinside : child.place.first ≤ n ∧ n < child.place.next := by
    by_contra hout
    exact hspares (spares_of_outside (h.below hfield hchild) (by omega))
  have := hnone field hfield child hchild hopen hspares hinside.1
  omega

/-! ### Blocks -/

/-- How a block is written, cut short or not. -/
theorem Supports.block {place : Extent} {body : List (Statement .parsed)}
    (h : lexemes.Supports repairs (.block (.mk place body))) :
    (∀ s ∈ body, lexemes.Chosen s) ∧ lexemes.kindAt place.first = .lbrace ∧
      ∃ k, lexemes.Spells (place.first + 1) (Symbol.row (body.map (·.place))) k ∧
        (lexemes.kindAt k = .rbrace ∧ place.next = k + 1 ∨
          repairs.cutsBlocks = true ∧ Grammar.atMember lexemes k = true ∧ place.next = k) := by
  cases h with
  | phrase holds =>
    obtain ⟨-, symbols, hphrased, -⟩ := holds
    cases hphrased
  | composed _ decided composed spells =>
    cases composed
    obtain ⟨⟨-, hbrace⟩, hrest⟩ := spells
    obtain ⟨k, hrow, ⟨-, hclose⟩, hend⟩ := spells_append.mp hrest
    exact ⟨decided.chosen, hbrace, k, hrow, .inl ⟨hclose, Eq.symm hend⟩⟩
  | recovered recovered =>
    cases recovered with
    | cut allowed chosen spells member =>
      obtain ⟨⟨-, hbrace⟩, hrow⟩ := spells
      exact ⟨chosen, hbrace, _, hrow, .inr ⟨allowed, member, rfl⟩⟩

/-- What is neither a phrase nor a block, nor was skipped, is written by a production. -/
theorem Supports.composed_of (h : lexemes.Supports repairs part) (hphrasal : ¬ part.IsPhrasal)
    (hblock : ¬ part.IsBlock) (hpart : ¬ part.IsIncomplete) :
    ∃ symbols, part.Composed symbols ∧ lexemes.Decided part ∧
      lexemes.Spells part.place.first symbols part.place.next := by
  cases h with
  | phrase holds =>
    obtain ⟨-, symbols, hphrased, -⟩ := holds
    exact absurd hphrased.isPhrasal hphrasal
  | composed _ decided composed spells => exact ⟨_, composed, decided, spells⟩
  | recovered recovered =>
    cases recovered with
    | skipped => exact absurd trivial hpart
    | cut => exact absurd trivial hblock

/-- A part below a part that is no block, and could be read, could be read. -/
theorem Supports.child_complete (h : lexemes.Supports repairs part) (hblock : ¬ part.IsBlock)
    (hfield : field ∈ part.fields) (hchild : child ∈ field) : ¬ child.IsIncomplete := by
  by_cases hphrasal : part.IsPhrasal
  · exact (hphrasal.below field hfield child hchild).not_isIncomplete
  · by_cases hpart : part.IsIncomplete
    · cases part with
      | statement s => cases s <;> first | exact hpart.elim | cases hfield
      | _ => exact hpart.elim
    · obtain ⟨symbols, hcomposed, hdecided, -⟩ := h.composed_of hphrasal hblock hpart
      exact hcomposed.child_complete hdecided hblock field hfield child hchild

/-- A part that could be read has a brace before each token that is not spared. -/
theorem exists_lbrace (h : part.All (lexemes.Supports repairs)) (hpart : ¬ part.IsIncomplete)
    (hn : ¬ part.Spares n) : ∃ l, part.place.first ≤ l ∧ l < n ∧ lexemes.kindAt l = .lbrace := by
  induction part using Part.induction with
  | step part ih =>
    obtain ⟨field, hfield, child, hchild, -, hspares, hi, -⟩ := exists_of_not_spares h hpart hn
    by_cases hblock : part.IsBlock
    · cases part with
      | block value =>
        obtain ⟨place, body⟩ := value
        obtain ⟨-, hbrace, k, hrow, -⟩ := h.here.block
        have hplace : child.place ∈ body.map (·.place) := by
          obtain rfl := List.mem_singleton.mp hfield
          obtain ⟨s, hs, rfl⟩ := List.mem_map.mp hchild
          exact List.mem_map_of_mem hs
        have hinside := hrow.part_inside (by rwa [Symbol.parts_row])
        exact ⟨place.first, Nat.le_refl _, by omega, hbrace⟩
      | _ => exact hblock.elim
    · have hcomplete := h.here.child_complete hblock hfield hchild
      obtain ⟨l, hl, hlt, hbrace⟩ :=
        ih field hfield child hchild (h.below hfield hchild) hcomplete hspares
      have hinside := h.here.inside hfield hchild
      exact ⟨l, by omega, hlt, hbrace⟩

/-- The first token of a part that could be read is spared. -/
theorem spares_first (h : part.All (lexemes.Supports repairs)) (hpart : ¬ part.IsIncomplete) :
    part.Spares part.place.first := by
  by_contra hn
  obtain ⟨l, hl, hlt, -⟩ := exists_lbrace h hpart hn
  omega

/-- Of a part that is no block, a token that begins or ends each part below that has it is
spared. -/
theorem spares_of_boundary (h : part.All (lexemes.Supports repairs)) (hpart : ¬ part.IsIncomplete)
    (hblock : ¬ part.IsBlock)
    (hn : ∀ field ∈ part.fields, ∀ child ∈ field, ¬ child.IsOpen →
      ¬ (child.place.first < n ∧ n < child.place.next)) : part.Spares n := by
  by_contra hspares
  obtain ⟨field, hfield, child, hchild, hopen, hchild', -, hj⟩ :=
    exists_of_not_spares h hpart hspares
  obtain ⟨l, hl, hlt, -⟩ := exists_lbrace (h.below hfield hchild)
    (h.here.child_complete hblock hfield hchild) hchild'
  exact hn field hfield child hchild hopen ⟨by omega, hj⟩

end Lexemes

/-! ### Semicolons and braces -/

namespace Part

/-- A statement or a declaration that is a phrase has a semicolon or a brace of its own. -/
theorem Phrased.marked {part : Part .parsed} {symbols : List Symbol} (h : part.Phrased symbols)
    (hpart : part.IsClosed) : Symbol.Names .semicolon symbols ∨ Symbol.Names .lbrace symbols := by
  induction h with
  | unit _ _ ih => exact ih trivial
  | _ => first
    | exact hpart.elim
    | simp [Symbol.attachment, Symbol.origin]

/-- So has any other, or else a part with statements or declarations in it. -/
theorem Composed.marked {part : Part .parsed} {symbols : List Symbol} (h : part.Composed symbols) :
    (Symbol.Names .semicolon symbols ∨ Symbol.Names .lbrace symbols) ∨
      ∃ field ∈ part.fields, ∃ child ∈ field, ¬ child.IsOpen := by
  induction h with
  | unit hmember _ ih => exact SourceUnit.fields_of_member? hmember ▸ ih
  | @receive _ _ body | @fallback _ _ _ _ _ body | @function _ _ _ _ _ body
  | @modifier _ _ _ _ body =>
    cases body with
    | none =>
      refine .inl (.inl (Symbol.names_append.mpr (.inr ?_)))
      simp [Symbol.body]
    | some body =>
      exact .inr ⟨[.block body], by simp [fields, memberFields, functionFields], _,
        List.mem_singleton_self _, id⟩
  | blockStatement | doWhile | unchecked =>
    exact .inr ⟨_, List.mem_cons_self .., _, List.mem_cons_self .., id⟩
  | ifElse | whileLoop | clause =>
    exact .inr ⟨_, .tail _ (List.mem_cons_self ..), _, List.mem_cons_self .., id⟩
  | constructor | tryCatch =>
    exact .inr ⟨_, .tail _ (.tail _ (List.mem_cons_self ..)), _, List.mem_cons_self .., id⟩
  | _ => exact .inl (by simp)

end Part

namespace Lexemes

variable {lexemes other : Lexemes} {f : Nat → Nat} {repairs : Repairs} {i j n : Nat}
  {part child : Part .parsed} {field : List (Part .parsed)}

/-- A token that is named is spelled. -/
theorem Spells.exists_of_names {symbols : List Symbol} {k : Kind} (h : lexemes.Spells i symbols j)
    (hnames : Symbol.Names k symbols) : ∃ n, i ≤ n ∧ n < j ∧ lexemes.kindAt n = k := by
  obtain ⟨symbol, hmem, hkind⟩ := hnames
  obtain ⟨front, rest, rfl⟩ := List.append_of_mem hmem
  obtain ⟨n, hfront, hspells⟩ := spells_append.mp h
  have hle := hfront.inside.1
  cases symbol with
  | token kind =>
    obtain ⟨⟨-, hk⟩, hrest⟩ := hspells
    have hlt := hrest.inside.1
    exact ⟨n, hle, by omega, hk.trans (Option.some.inj hkind)⟩
  | word kind text =>
    obtain ⟨⟨-, hk, -⟩, hrest⟩ := hspells
    have hlt := hrest.inside.1
    exact ⟨n, hle, by omega, hk.trans (Option.some.inj hkind)⟩
  | _ => cases hkind

/-- Each statement and each declaration that could be read has a semicolon or a brace. -/
theorem exists_mark (h : part.All (lexemes.Supports repairs)) (hopen : ¬ part.IsOpen)
    (hpart : ¬ part.IsIncomplete) : ∃ n, part.place.first ≤ n ∧ n < part.place.next ∧
      (lexemes.kindAt n = .semicolon ∨ lexemes.kindAt n = .lbrace) := by
  induction part using Part.induction with
  | step part ih =>
    have named {symbols : List Symbol}
        (hspells : lexemes.Spells part.place.first symbols part.place.next)
        (hnames : Symbol.Names .semicolon symbols ∨ Symbol.Names .lbrace symbols) :
        ∃ n, part.place.first ≤ n ∧ n < part.place.next ∧
          (lexemes.kindAt n = .semicolon ∨ lexemes.kindAt n = .lbrace) := by
      rcases hnames with hnames | hnames <;>
        obtain ⟨n, hn, hlt, hkind⟩ := hspells.exists_of_names hnames
      · exact ⟨n, hn, hlt, .inl hkind⟩
      · exact ⟨n, hn, hlt, .inr hkind⟩
    by_cases hphrasal : part.IsPhrasal
    · obtain ⟨-, symbols, hphrased, hspells⟩ := h.here.holds hphrasal
      refine named hspells (hphrased.marked ?_)
      cases part <;> trivial
    by_cases hblock : part.IsBlock
    · cases part with
      | block value =>
        obtain ⟨place, body⟩ := value
        exact ⟨place.first, Nat.le_refl _, h.here.covers.nonempty, .inr h.here.block.2.1⟩
      | _ => exact hblock.elim
    obtain ⟨symbols, hcomposed, hdecided, hspells⟩ := h.here.composed_of hphrasal hblock hpart
    rcases hcomposed.marked with hnames | ⟨field, hfield, child, hchild, hopen⟩
    · exact named hspells hnames
    · obtain ⟨n, hn, hlt, hkind⟩ := ih field hfield child hchild (h.below hfield hchild) hopen
        (h.here.child_complete hblock hfield hchild)
      have hinside := h.here.inside hfield hchild
      exact ⟨n, by omega, by omega, hkind⟩

/-! ### Members -/

end Lexemes

/-- A kind of token that stands in no pattern that a member begins with. -/
def Kind.isMark (k : Kind) : Bool := k matches .semicolon | .lbrace | .rbrace

namespace Lexemes

variable {lexemes other : Lexemes} {f : Nat → Nat} {repairs : Repairs} {i j n : Nat}
  {part child : Part .parsed} {field : List (Part .parsed)}

/-- A member begins where it did, if the words up to a semicolon or a brace are kept. -/
theorem atMember_of_keeps {l : Nat} (hkept : ∀ m, n ≤ m → m < l → lexemes.Keeps other f m)
    (hle : n ≤ l) (hlast : (lexemes.kindAt l).isMark = true)
    (h : Grammar.atMember lexemes n = true) : Grammar.atMember other (f n) = true := by
  -- a token of the pattern is not the last one
  have hnext {d : Nat} {k : Kind} (hd : n + d ≤ l) (hk : lexemes.kindAt (n + d) = k)
      (hmark : k.isMark = false) :
      n + d < l ∧ other.kindAt (f n + d) = k ∧ lexemes.Keeps other f (n + d) := by
    have hlt : n + d < l := by
      refine Nat.lt_of_le_of_ne hd fun heq => ?_
      rw [← hk, heq, hlast] at hmark
      cases hmark
    have hkeeps := hkept (n + d) (Nat.le_add_right ..) hlt
    exact ⟨hlt, by rw [← Keeps.add hkept hd, hkeeps.kindAt, hk], hkeeps⟩
  have hcall (hlt : n < l) (hmember : (lexemes.kindAt (n + 1) == .lparen &&
      lexemes.kindAt (n + 2) == .rparen &&
        Grammar.isAttribute (lexemes.kindAt (n + 3))) = true) :
      (other.kindAt (f n + 1) == .lparen && other.kindAt (f n + 2) == .rparen &&
        Grammar.isAttribute (other.kindAt (f n + 3))) = true := by
    simp only [Bool.and_eq_true, beq_iff_eq] at hmember
    obtain ⟨⟨hopen, hclose⟩, hattribute⟩ := hmember
    obtain ⟨hlt, hopen, -⟩ := hnext (d := 1) hlt hopen rfl
    obtain ⟨hlt, hclose, -⟩ := hnext (d := 2) hlt hclose rfl
    obtain ⟨-, hlast, -⟩ := hnext (d := 3) hlt rfl <| by
      unfold Kind.isMark
      split <;> simp_all [Grammar.isAttribute]
    rw [hopen, hclose, hlast, hattribute]
    rfl
  obtain ⟨hlt, hkind, hkeeps⟩ := hnext (d := 0) hle rfl <| by
    unfold Kind.isMark
    unfold Grammar.atMember at h
    split <;> simp_all [Grammar.beginsMember]
  simp only [Nat.add_zero] at hkind hlt hkeeps
  unfold Grammar.atMember at h ⊢
  simp only [Nat.add_zero, hkind, hkeeps.textAt] at h ⊢
  split at h
  · obtain ⟨-, hident, -⟩ := hnext (d := 1) hlt (eq_of_beq h) rfl
    rw [hident]
    rfl
  · split at h
    · exact hcall hlt h
    · exact hcall hlt h
    · simp only [Bool.and_eq_true, beq_iff_eq] at h
      obtain ⟨hname, hopen⟩ := h
      obtain ⟨hlt, hname, -⟩ := hnext (d := 1) hlt hname rfl
      obtain ⟨-, hopen, -⟩ := hnext (d := 2) hlt hopen rfl
      simp [hname, hopen]
    · cases h
  · exact h

/-! ### Thinned inputs -/

/-- Of a tree, another input has all words but those of statements that could not be read. -/
structure Thins (lexemes other : Lexemes) (f : Nat → Nat) (part : Part .parsed) : Prop where
  /-- The other words are kept. -/
  kept : ∀ n, part.place.first ≤ n → n < part.place.next → part.Spares n → lexemes.Keeps other f n
  /-- These are not. -/
  skipped : ∀ n, ¬ part.Spares n → f (n + 1) = f n

/-- What comes next in another input is nothing that a statement before it would go on with, nor
does it hide the start of a member, if blocks may be cut short there. -/
structure Follows (lexemes other : Lexemes) (f : Nat → Nat) (repairs : Repairs) (n : Nat) :
    Prop where
  /-- No keyword comes up that was not there. -/
  keyword : ∀ k, k = .kwElse ∨ k = .kwCatch ∨ k = .kwReturns → other.kindAt (f n) = k →
    lexemes.kindAt n = k
  /-- A member begins where it did. -/
  member : repairs.cutsBlocks = true → Grammar.atMember lexemes n = true →
    Grammar.atMember other (f n) = true

/-- Of a tree without such statements, all words are kept. -/
theorem Thins.of_complete (h : part.All fun p => ¬ p.IsIncomplete)
    (hkept : ∀ n, part.place.first ≤ n → n < part.place.next → lexemes.Keeps other f n) :
    lexemes.Thins other f part :=
  ⟨fun n hn hlt _ => hkept n hn hlt, fun _ hspares =>
    absurd (h.mono fun _ hp hincomplete => absurd hincomplete hp) hspares⟩

/-- Below a part that could be read, the same words are kept. -/
theorem Thins.below (h : lexemes.Thins other f part) (hs : part.All (lexemes.Supports repairs))
    (hpart : ¬ part.IsIncomplete) (hfield : field ∈ part.fields) (hchild : child ∈ field) :
    lexemes.Thins other f child := by
  have hinside := hs.here.inside hfield hchild
  refine ⟨fun n hn hlt hspares => h.kept n (by omega) (by omega) ?_,
    fun n hspares => h.skipped n fun hpart' => hspares (hpart'.below hfield hchild)⟩
  exact spares_of_child hs hpart hfield hchild hn hlt hspares

/-- All words of a phrase are kept. -/
theorem Thins.kept_of_isPhrasal (h : lexemes.Thins other f part) (hpart : part.IsPhrasal) :
    ∀ n, part.place.first ≤ n → n < part.place.next → lexemes.Keeps other f n :=
  fun n hn hlt => h.kept n hn hlt hpart.spares

/-- Of a statement that could not be read, nothing is left. -/
theorem Thins.next_eq (h : lexemes.Thins other f part) (hpart : part.IsIncomplete)
    (hlt : part.place.first < part.place.next) : f part.place.next = f part.place.first := by
  have hskip (d : Nat) (hd : part.place.first + d ≤ part.place.next) :
      f (part.place.first + d) = f part.place.first := by
    induction d with
    | zero => rfl
    | succ d ih =>
      rw [← Nat.add_assoc, h.skipped _ fun hspares => ?_, ih (by omega)]
      exact hspares.here hpart ⟨by omega, by omega⟩
  have := hskip (part.place.next - part.place.first) (by omega)
  rwa [show part.place.first + (part.place.next - part.place.first) = part.place.next by omega]
    at this

/-- What comes before a part that could be read, does not go on with it in the other input
either. -/
theorem Thins.follows (h : lexemes.Thins other f part) (hs : part.All (lexemes.Supports repairs))
    (hopen : ¬ part.IsOpen) (hpart : ¬ part.IsIncomplete) :
    lexemes.Follows other f repairs part.place.first := by
  have hfirst := h.kept _ (Nat.le_refl _) hs.here.covers.nonempty (spares_first hs hpart)
  refine ⟨fun k _ hk => hfirst.kindAt.symm.trans hk, fun _ hmember => ?_⟩
  -- the words up to the first semicolon or brace are kept
  obtain ⟨n, hn, hlt, hmark⟩ := exists_mark hs hopen hpart
  have hex : ∃ n, part.place.first ≤ n ∧ n < part.place.next ∧
      (lexemes.kindAt n = .semicolon ∨ lexemes.kindAt n = .lbrace) := ⟨n, hn, hlt, hmark⟩
  obtain ⟨hl, hllt, hmark⟩ := Nat.find_spec hex
  refine atMember_of_keeps (l := Nat.find hex) (fun m hm hml => ?_) hl ?_ hmember
  · refine h.kept m hm (by omega) ?_
    by_contra hspares
    obtain ⟨l, hl, hlm, hbrace⟩ := exists_lbrace hs hpart hspares
    exact Nat.find_min hex (Nat.lt_trans hlm hml) ⟨hl, by omega, .inr hbrace⟩
  · rcases hmark with hk | hk <;> rw [hk] <;> rfl

end Lexemes
end SolidityParser
