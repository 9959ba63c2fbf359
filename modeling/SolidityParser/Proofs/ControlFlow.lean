import SolidityParser.Proofs.Rows
import SolidityParser.Proofs.Slices

/-!
# Control flow is read from its words

**Theorem** (`Source.parseStatement_controlFlow`): a source is read as a given statement made of
blocks, choices, loops, jumps and names if and only if it has the words of the statement, and in
each choice that has an `else` the statement before it does not end in a choice without one. In
other words `else` belongs to the nearest `if` that it can belong to, and nothing else keeps such a
statement from being read from its words.

That an `else` never follows a statement that could have taken it holds of all that is laid out in
an input (`Lexemes.Lays.kindAt_ne_else`), since a choice without `else` is written where none comes
next. The other way round, the words of a tree stand for it wherever no `else` comes next that it
would take (`Lexemes.ReadsByWords`): by induction over the tree, each node is written by its
production.
-/

namespace SolidityParser

variable {F G : Form}

/-! ### The words of a statement -/

/-- The word of a name. Other expressions are not written out. -/
def Expression.nameWords {σ : Type} : Expression σ → List Lexeme
  | .identifier _ name => [⟨.ident, name⟩]
  | _ => []

mutual

/-- The words of a statement in order. Only control flow and names are written out. -/
def Statement.words : Statement F → List Lexeme
  | .block body => body.words
  | .expression _ value => value.nameWords ++ [.of .semicolon]
  | .ifElse _ test consequent alternate =>
    .of .kwIf :: .of .lparen :: (test.nameWords ++ .of .rparen ::
      (consequent.words ++ Statement.wordsOfElse alternate))
  | .whileLoop _ test body =>
    .of .kwWhile :: .of .lparen :: (test.nameWords ++ .of .rparen :: body.words)
  | .doWhile _ body test =>
    .of .kwDo :: (body.words ++ .of .kwWhile :: .of .lparen ::
      (test.nameWords ++ [.of .rparen, .of .semicolon]))
  | .returned _ argument =>
    .of .kwReturn :: (argument.toList.flatMap Expression.nameWords ++ [.of .semicolon])
  | .breakLoop _ => [.of .kwBreak, .of .semicolon]
  | .continueLoop _ => [.of .kwContinue, .of .semicolon]
  | .declaration .. | .forLoop .. | .tryCatch .. | .emit .. | .revert .. | .throwError _
  | .unchecked .. | .assembly .. | .placeholder _ | .incomplete _ => []

/-- The words of the other branch of a choice, with `else` before it. -/
def Statement.wordsOfElse : Option (Statement F) → List Lexeme
  | none => []
  | some s => .of .kwElse :: s.words

/-- The words of statements in a row. -/
def Statement.wordsOfList : List (Statement F) → List Lexeme
  | [] => []
  | s :: statements => s.words ++ Statement.wordsOfList statements

/-- The words of a block. -/
def Block.words : Block F → List Lexeme
  | .mk _ body => .of .lbrace :: (Statement.wordsOfList body ++ [.of .rbrace])

end

/-! ### The words name their kinds

Keywords and symbols are spelled as their kinds are, so the words of a statement come back when the
text they make is lexed, if the names in it do. -/

section Plain

/-- The word of a name is an identifier. -/
theorem Expression.plain_nameWords {σ : Type} (e : Expression σ) : Lexeme.Plain e.nameWords := by
  cases e with
  | identifier place name => exact .cons (.inl rfl) .nil
  | _ => exact .nil

mutual

/-- All other words of a statement are keywords and symbols. By cases as the words are given. -/
theorem Statement.plain_words : (s : Statement F) → Lexeme.Plain s.words
  | .block body => body.plain_words
  | .expression _ value => value.plain_nameWords.append <| .of (by decide) .nil
  | .ifElse _ test consequent alternate =>
    .of (by decide) <| .of (by decide) <| test.plain_nameWords.append <| .of (by decide) <|
      consequent.plain_words.append (Statement.plain_wordsOfElse alternate)
  | .whileLoop _ test body =>
    .of (by decide) <| .of (by decide) <| test.plain_nameWords.append <| .of (by decide)
      body.plain_words
  | .doWhile _ body test =>
    .of (by decide) <| body.plain_words.append <| .of (by decide) <| .of (by decide) <|
      test.plain_nameWords.append <| .of (by decide) <| .of (by decide) .nil
  | .returned _ none => .of (by decide) <| .of (by decide) .nil
  | .returned _ (some value) =>
    .of (by decide) <| (value.plain_nameWords.append .nil).append <| .of (by decide) .nil
  | .breakLoop _ | .continueLoop _ => .of (by decide) <| .of (by decide) .nil
  | .declaration .. | .forLoop .. | .tryCatch .. | .emit .. | .revert .. | .throwError _
  | .unchecked .. | .assembly .. | .placeholder _ | .incomplete _ => .nil

/-- So are those of an `else`. -/
theorem Statement.plain_wordsOfElse : (s : Option (Statement F)) →
    Lexeme.Plain (Statement.wordsOfElse s)
  | none => .nil
  | some s => .of (by decide) s.plain_words

/-- So are those of statements in a row. -/
theorem Statement.plain_wordsOfList : (statements : List (Statement F)) →
    Lexeme.Plain (Statement.wordsOfList statements)
  | [] => .nil
  | s :: statements => s.plain_words.append (Statement.plain_wordsOfList statements)

/-- So are those of a block. -/
theorem Block.plain_words : (b : Block F) → Lexeme.Plain b.words
  | .mk _ body =>
    .of (by decide) <| (Statement.plain_wordsOfList body).append <| .of (by decide) .nil

end

end Plain

/-! ### Control flow -/

/-- An expression that is a name. -/
def Expression.IsName {σ : Type} : Expression σ → Prop
  | .identifier .. => True
  | _ => False

/-- A node of control flow over names. A name that is a statement is not `_`, which is one by
itself. -/
def Part.OfControlFlow : Part F → Prop
  | expression value => value.IsName
  | statement (.expression _ value) => value.nameWords ≠ [⟨.ident, "_"⟩]
  | statement (.block _) | statement (.ifElse ..) | statement (.whileLoop ..)
  | statement (.doWhile ..) | statement (.returned ..) | statement (.breakLoop _)
  | statement (.continueLoop _) | block _ => True
  | _ => False

/-- A statement of control flow over names. -/
def Statement.IsControlFlow (s : Statement F) : Prop := (Part.statement s).All Part.OfControlFlow

/-- A statement ends in a choice that has no `else`. -/
def Statement.EndsOpen : Statement F → Prop
  | .ifElse _ _ _ none => True
  | .ifElse _ _ _ (some alternate) => alternate.EndsOpen
  | .whileLoop _ _ body | .forLoop _ _ _ _ body => body.EndsOpen
  | _ => False

/-- The statement before an `else` ends in no choice without one. -/
def Part.ElseNearest : Part F → Prop
  | statement (.ifElse _ _ consequent (some _)) => ¬ consequent.EndsOpen
  | _ => True

/-- Every `else` belongs to the nearest `if` that it can belong to. -/
def Statement.BindsElse (s : Statement F) : Prop := (Part.statement s).All Part.ElseNearest

/-! ### Trees and the trees right below -/

/-- What holds of every part of a tree holds of every part of the trees right below. -/
theorem Part.All.child {P : Part F → Prop} {top child : Part F} (h : All P top)
    (hchild : child ∈ top.fields.flatten) : All P child := by
  obtain ⟨field, hfield, hchild⟩ := List.mem_flatten.mp hchild
  exact h.below hfield hchild

/-- A tree has a property if its root does and the trees right below do. -/
theorem Part.All.of_below {P : Part F → Prop} {top : Part F} (below : List (Part F))
    (h : P top ∧ top.fields.flatten = below) (hbelow : ∀ child ∈ below, All P child) :
    All P top := by
  obtain ⟨htop, rfl⟩ := h
  exact Part.all_iff.mpr ⟨htop, fun field hfield child hchild =>
    hbelow child (List.mem_flatten.mpr ⟨field, hfield, hchild⟩)⟩

/-! ### Words and choices in another form

A tree keeps its words when its places change, and so does it keep what is asked of it here. -/

section Forms

variable (r : Relocation F G)

/-- A name is spelled alike in every form. -/
theorem Expression.nameWords_relocate {σ τ : Type} (f : σ → τ) (e : Expression σ) :
    (e.relocate f).nameWords = e.nameWords := by
  cases e <;> simp [relocate, nameWords]

mutual

/-- The words of a statement do not depend on its places. -/
theorem Statement.words_relocate : (s : Statement F) → (s.relocate r).words = s.words
  | .block body => body.words_relocate
  | .expression _ value => congrArg (· ++ _) (value.nameWords_relocate _)
  | .ifElse _ test consequent alternate => by
    simp only [Statement.relocate, Statement.words, test.nameWords_relocate,
      consequent.words_relocate, Statement.wordsOfElse_relocate alternate]
  | .whileLoop _ test body => by
    simp only [Statement.relocate, Statement.words, test.nameWords_relocate, body.words_relocate]
  | .doWhile _ body test => by
    simp only [Statement.relocate, Statement.words, test.nameWords_relocate, body.words_relocate]
  | .returned _ none => rfl
  | .returned _ (some value) => by
    simp only [Statement.relocate, Expression.relocateOption, Statement.words, Option.toList_some,
      List.flatMap_singleton, value.nameWords_relocate]
  | .breakLoop _ | .continueLoop _ | .declaration .. | .forLoop .. | .tryCatch .. | .emit ..
  | .revert .. | .throwError _ | .unchecked .. | .assembly .. | .placeholder _
  | .incomplete _ => rfl

/-- Nor do those of an `else`. -/
theorem Statement.wordsOfElse_relocate : (s : Option (Statement F)) →
    Statement.wordsOfElse (Statement.relocateOption r s) = Statement.wordsOfElse s
  | none => rfl
  | some s => congrArg (_ :: ·) s.words_relocate

/-- Nor do those of statements in a row. -/
theorem Statement.wordsOfList_relocate : (statements : List (Statement F)) →
    Statement.wordsOfList (Statement.relocateList r statements) = Statement.wordsOfList statements
  | [] => rfl
  | s :: statements =>
    congrArg₂ (· ++ ·) s.words_relocate (Statement.wordsOfList_relocate statements)

/-- Nor do those of a block. -/
theorem Block.words_relocate : (b : Block F) → (b.relocate r).words = b.words
  | .mk _ body => by
    simp only [Block.relocate, Block.words, Statement.wordsOfList_relocate body]

end

/-- A node is of control flow in every form or in none. -/
theorem Part.ofControlFlow_relocate (part : Part F) :
    (part.relocate r).OfControlFlow ↔ part.OfControlFlow := by
  cases part with
  | expression value => cases value <;> exact Iff.rfl
  | statement value =>
    cases value
    case expression value =>
      simp [relocate, Statement.relocate, OfControlFlow, Expression.nameWords_relocate]
    all_goals exact Iff.rfl
  | _ => exact Iff.rfl

/-- A statement ends in a choice without `else` in every form or in none. -/
theorem Statement.endsOpen_relocate (s : Statement F) : (s.relocate r).EndsOpen ↔ s.EndsOpen := by
  fun_induction EndsOpen s with
  | case1 => exact Iff.rfl
  | case2 _ _ _ _ ih | case3 _ _ _ ih | case4 _ _ _ _ _ ih => exact ih
  | case5 s hnone hsome hwhile hfor =>
    cases s
    case ifElse alternate =>
      cases alternate with
      | none => exact absurd rfl (hnone _ _ _)
      | some alternate => exact absurd rfl (hsome _ _ _ _)
    case whileLoop => exact absurd rfl (hwhile _ _ _)
    case forLoop => exact absurd rfl (hfor _ _ _ _ _)
    all_goals exact Iff.rfl

/-- So an `else` belongs to the nearest `if` in every form or in none. -/
theorem Part.elseNearest_relocate (part : Part F) :
    (part.relocate r).ElseNearest ↔ part.ElseNearest := by
  cases part with
  | statement value =>
    cases value
    case ifElse place test consequent alternate =>
      cases alternate with
      | none => exact Iff.rfl
      | some alternate => exact not_congr (Statement.endsOpen_relocate r consequent)
    all_goals exact Iff.rfl
  | _ => exact Iff.rfl

end Forms

namespace Lexemes

variable {lexemes : Lexemes} {repairs : Repairs} {i j k : Nat}

/-! ### No statement takes less than it could -/

/-- After a statement that ends in a choice without `else` comes none. -/
theorem kindAt_ne_else (s : Statement .parsed)
    (hs : (Part.statement s).All (lexemes.Supports repairs)) (h : s.EndsOpen) :
    lexemes.kindAt s.place.next ≠ .kwElse := by
  fun_induction Statement.EndsOpen s with
  | case1 place test consequent =>
    obtain ⟨symbols, hcomposed, -, hspells⟩ := hs.here.composed_of id id id
    cases hcomposed
    obtain ⟨-, -, -, -, -, hno, hend⟩ := hspells
    rw [show consequent.place.next = place.next from hend] at hno
    exact fun helse => hno ((ahead_kind (by decide)).mpr helse)
  | case2 place test consequent alternate ih =>
    obtain ⟨symbols, hcomposed, -, hspells⟩ := hs.here.composed_of id id id
    cases hcomposed
    obtain ⟨-, -, -, -, -, -, -, hend⟩ := hspells
    have hnext := ih (hs.child (by simp [Part.fields, Part.statementFields])) h
    rwa [show alternate.place.next = place.next from hend] at hnext
  | case3 place test body ih =>
    obtain ⟨symbols, hcomposed, -, hspells⟩ := hs.here.composed_of id id id
    cases hcomposed
    obtain ⟨-, -, -, -, -, hend⟩ := hspells
    have hnext := ih (hs.child (by simp [Part.fields, Part.statementFields])) h
    rwa [show body.place.next = place.next from hend] at hnext
  | case4 place initial test update body ih =>
    obtain ⟨symbols, hcomposed, -, hspells⟩ := hs.here.composed_of id id id
    cases hcomposed
    obtain ⟨k, -, -, -, hend⟩ := spells_append.mp hspells
    have hnext := ih (hs.child (by simp [Part.fields, Part.statementFields])) h
    rwa [show body.place.next = place.next from hend] at hnext
  | case5 => exact h.elim

/-- So what stands in an input binds each `else` to the nearest `if` that it can belong to. -/
theorem all_elseNearest {part : Part .parsed} (h : part.All (lexemes.Supports repairs)) :
    part.All Part.ElseNearest := by
  intro p hwithin
  have hp := h.within hwithin
  cases p with
  | statement s =>
    cases s
    case ifElse place test consequent alternate =>
      cases alternate with
      | none => trivial
      | some alternate =>
        obtain ⟨symbols, hcomposed, -, hspells⟩ := hp.here.composed_of id id id
        cases hcomposed
        obtain ⟨-, -, -, -, -, ⟨-, helse⟩, -⟩ := hspells
        exact fun hopen => kindAt_ne_else consequent
          (hp.child (by simp [Part.fields, Part.statementFields]))
          hopen helse
    all_goals trivial
  | _ => trivial

/-! ### Words of what stands in an input -/

end Lexemes

/-- The words of a part of control flow. -/
def Part.words : Part F → List Lexeme
  | expression value => value.nameWords
  | statement value => value.words
  | block value => value.words
  | _ => []

namespace Lexemes

variable {lexemes : Lexemes} {i j : Nat} {part : Part .parsed}

/-- What is right below a part stands there with its words. -/
def ShowsBelow (lexemes : Lexemes) (part : Part .parsed) : Prop :=
  ∀ child ∈ part.fields.flatten, lexemes.HasRow child.place.first child.words child.place.next

/-- A name that may stand by itself is the word where it stands. -/
theorem hasRow_name {e : Expression Extent} (h : lexemes.Holds (.expression e)) (hname : e.IsName)
    (hwhole : e.IsWhole) : lexemes.HasRow e.place.first e.nameWords e.place.next := by
  cases e with
  | identifier place name =>
    obtain ⟨-, symbols, hphrased, hspells⟩ := h
    rcases Expression.level_identifier place name with ⟨-, hident⟩ | ⟨hlevel, -⟩
    · cases hphrased
      rw [hident] at hspells
      exact ⟨hspells.1.2, hspells.2⟩
    · rw [Expression.IsWhole, hlevel] at hwhole
      exact absurd hwhole (Nat.not_succ_le_self _)
  | _ => exact hname.elim

/-- Statements in a row have their words one after the other. -/
theorem hasRow_list {body : List (Statement .parsed)}
    (hbody : ∀ s ∈ body, lexemes.HasRow s.place.first s.words s.place.next)
    (h : lexemes.Spells i (Symbol.row (body.map (·.place))) j) :
    lexemes.HasRow i (Statement.wordsOfList body) j := by
  induction body generalizing i with
  | nil => exact h
  | cons s body ih =>
    obtain ⟨hplace, hrest⟩ := h
    exact (hbody s List.mem_cons_self).part hplace
      (ih (fun s hs => hbody s (List.mem_cons_of_mem _ hs)) hrest)

section Shown

variable (hspelled : lexemes.Spelled) (hbelow : lexemes.ShowsBelow part)

include hspelled hbelow

/-- A block has the words of its statements between braces. It is closed by one, since nothing was
repaired. -/
theorem hasRow_block {b : Block .parsed} (hpart : part = .block b)
    (h : lexemes.Supports .none part) : lexemes.HasRow b.place.first b.words b.place.next := by
  subst hpart
  obtain ⟨place, body⟩ := b
  obtain ⟨-, hopen, k, hrow, ⟨hclose, hend⟩ | ⟨hcuts, -⟩⟩ := h.block
  · refine .of hspelled (by decide) ⟨by decide, hopen⟩ (.append (k := k) ?_ ?_)
    · refine hasRow_list (fun s hs => hbelow (.statement s) ?_) hrow
      simpa [Part.fields, Block.body] using hs
    · exact .of hspelled (by decide) ⟨by decide, hclose⟩ hend.symm
  · cases hcuts

/-- A statement of control flow has its own words around those of the parts right below. By cases:
the production of the statement says where its tokens and its parts are. -/
theorem hasRow_statement {s : Statement .parsed} (hpart : part = .statement s)
    (h : lexemes.Supports .none part) (hflow : part.OfControlFlow) :
    lexemes.HasRow s.place.first s.words s.place.next := by
  subst hpart
  have htokens {k : Kind} (hk : k ∈ [Kind.kwIf, .kwElse, .kwWhile, .kwDo, .kwReturn, .kwBreak,
      .kwContinue, .lparen, .rparen, .semicolon]) : k ∈ Kind.keywords ++ Kind.symbols := by
    revert k
    decide
  cases s with
  | block body => exact hbelow (.block body) (by simp [Part.fields, Part.statementFields])
  | expression place value =>
    obtain ⟨symbols, hcomposed, -, hspells⟩ := h.composed_of id id id
    cases hcomposed
    obtain ⟨hvalue, hsemi, hend⟩ := hspells
    have hrow := hbelow (.expression value) (by simp [Part.fields, Part.statementFields])
    exact hrow.part hvalue (.of hspelled (htokens (by decide)) hsemi hend)
  | ifElse place test consequent alternate =>
    obtain ⟨symbols, hcomposed, -, hspells⟩ := h.composed_of id id id
    cases hcomposed
    obtain ⟨hif, hopen, htest, hclose, hthen, helse⟩ := hspells
    have hrow := hbelow (.expression test) (by simp [Part.fields, Part.statementFields])
    have hrow' := hbelow (.statement consequent) (by simp [Part.fields, Part.statementFields])
    refine .of hspelled (htokens (by decide)) hif <| .of hspelled (htokens (by decide)) hopen <|
      hrow.part htest <| .of hspelled (htokens (by decide)) hclose <| hrow'.part hthen ?_
    cases alternate with
    | none => exact helse.2
    | some alternate =>
      obtain ⟨helse, halternate, hend⟩ := helse
      have hrow := hbelow (.statement alternate) (by simp [Part.fields, Part.statementFields])
      exact .of hspelled (htokens (by decide)) helse (halternate.1 ▸ hend ▸ hrow)
  | whileLoop place test body =>
    obtain ⟨symbols, hcomposed, -, hspells⟩ := h.composed_of id id id
    cases hcomposed
    obtain ⟨hwhile, hopen, htest, hclose, hbody, hend⟩ := hspells
    have hrow := hbelow (.expression test) (by simp [Part.fields, Part.statementFields])
    have hrow' := hbelow (.statement body) (by simp [Part.fields, Part.statementFields])
    exact .of hspelled (htokens (by decide)) hwhile <| .of hspelled (htokens (by decide)) hopen <|
      hrow.part htest <| .of hspelled (htokens (by decide)) hclose (hbody.1 ▸ hend ▸ hrow')
  | doWhile place body test =>
    obtain ⟨symbols, hcomposed, -, hspells⟩ := h.composed_of id id id
    cases hcomposed
    obtain ⟨hdo, hbody, hwhile, hopen, htest, hclose, hsemi, hend⟩ := hspells
    have hrow := hbelow (.expression test) (by simp [Part.fields, Part.statementFields])
    have hrow' := hbelow (.statement body) (by simp [Part.fields, Part.statementFields])
    exact .of hspelled (htokens (by decide)) hdo <| hrow'.part hbody <|
      .of hspelled (htokens (by decide)) hwhile <| .of hspelled (htokens (by decide)) hopen <|
      hrow.part htest <| .of hspelled (htokens (by decide)) hclose <|
      .of hspelled (htokens (by decide)) hsemi hend
  | returned place argument =>
    obtain ⟨symbols, hcomposed, -, hspells⟩ := h.composed_of id id id
    cases hcomposed
    obtain ⟨hreturn, hspells⟩ := hspells
    obtain ⟨k, hargument, hsemi, hend⟩ := spells_append.mp hspells
    refine .of hspelled (htokens (by decide)) hreturn (.append (k := k) ?_
      (.of hspelled (htokens (by decide)) hsemi hend))
    cases argument with
    | none => exact hargument
    | some value =>
      have hrow := hbelow (.expression value) (by simp [Part.fields, Part.statementFields])
      change lexemes.HasRow _ (value.nameWords ++ []) k
      exact hrow.part hargument.1 hargument.2
  | breakLoop place | continueLoop place =>
    obtain ⟨symbols, hcomposed, -, hspells⟩ := h.composed_of id id id
    cases hcomposed
    obtain ⟨hword, hsemi, hend⟩ := hspells
    exact .of hspelled (htokens (by decide)) hword (.of hspelled (htokens (by decide)) hsemi hend)
  | _ => exact hflow.elim

end Shown

/-- What stands in an input stands there with its words. -/
theorem hasRow_words (hspelled : lexemes.Spelled) (part : Part .parsed)
    (h : part.All (lexemes.Supports .none)) (hflow : part.All Part.OfControlFlow)
    (hwhole : ∀ e, part = .expression e → e.IsWhole) :
    lexemes.HasRow part.place.first part.words part.place.next := by
  induction part using Part.induction with
  | step part ih =>
    cases part with
    | expression e => exact hasRow_name (h.here.holds trivial) hflow.here (hwhole e rfl)
    | block b =>
      refine hasRow_block hspelled (fun child hmem => ?_) rfl h.here
      obtain ⟨field, hfield, hchild⟩ := List.mem_flatten.mp hmem
      exact ih field hfield child hchild (h.below hfield hchild) (hflow.below hfield hchild)
        fun e he => h.here.tight field hfield e (he ▸ hchild)
    | statement s =>
      refine hasRow_statement hspelled (fun child hmem => ?_) rfl h.here hflow.here
      obtain ⟨field, hfield, hchild⟩ := List.mem_flatten.mp hmem
      exact ih field hfield child hchild (h.below hfield hchild) (hflow.below hfield hchild)
        fun e he => h.here.tight field hfield e (he ▸ hchild)
    | _ => exact hflow.here.elim

/-! ### Statements that stand where their words do -/

/-- Where the words of a part stand, and no `else` comes next that it would take, there stands the
part, once it has places. -/
def ReadsByWords (lexemes : Lexemes) : Part .bare → Prop
  | .expression e => ∀ i j, lexemes.HasRow i e.nameWords j →
    ∃ placed : Expression Extent, placed.relocate (fun _ => ()) = e ∧
      lexemes.IsPhrase i (.expression placed) j ∧ placed.IsWhole
  | .statement s => ∀ i j, lexemes.HasRow i s.words j →
    (s.EndsOpen → lexemes.kindAt j ≠ .kwElse) →
      ∃ placed : Statement .parsed, placed.relocate (.forget .parsed) = s ∧
        lexemes.IsStatement .none i placed j
  | .block b => ∀ i j, lexemes.HasRow i b.words j →
    ∃ placed : Block .parsed, placed.relocate (.forget .parsed) = b ∧
      lexemes.Lays .none i (.block placed) j
  | _ => True

/-- A name where no keyword is spelled as one. -/
theorem reads_name (hw : lexemes.WellSpelled) {e : Expression Unit} (hname : e.IsName) :
    lexemes.ReadsByWords (.expression e) := by
  cases e with
  | identifier place name =>
    rintro i j ⟨⟨hkind, htext⟩, hend⟩
    have hident : Kind.ofWord name = .ident := by
      have hword := hw i (.inl hkind)
      rwa [htext, hkind] at hword
    refine ⟨.identifier ⟨i, j⟩ name, rfl, .of_written rfl trivial (.name (.inl hident)) ?_ ?_, ?_⟩
    · rw [hident]
      exact ⟨⟨by decide, hkind, htext⟩, hend⟩
    · simp [Part.fields, Part.expressionFields]
    · rw [Expression.IsWhole, Expression.level, if_pos hident]
      exact Nat.zero_le _
  | _ => exact hname.elim

/-- No declaration of variables is a single word and a semicolon. -/
theorem not_declares_of_semicolon (h : lexemes.kindAt (i + 1) = .semicolon) :
    ¬ lexemes.Declares i := by
  rintro ⟨place, slots, initial, j, hphrase⟩
  have hle := hphrase.le_of_semicolon trivial (Nat.le_succ i) h
  obtain ⟨symbols, hphrased, hspells⟩ := hphrase.written
  cases hphrased with
  | @declaration _ declared =>
    -- a type, a name and the semicolon
    obtain ⟨⟨hfirst, -⟩, hrest⟩ := hspells
    have hlast := (hrest.covers ⟨.token .semicolon, by simp, rfl⟩).nonempty
    have hdeclared : (Part.declared declared).All lexemes.Holds :=
      hphrase.holds.child (by simp [Part.fields, Part.statementFields])
    obtain ⟨-, symbols, hphrased, hwritten⟩ := hdeclared.here
    cases hphrased with
    | declared =>
      obtain ⟨⟨htype, hcovers⟩, hname⟩ := hwritten
      have htypeEnd := hcovers.nonempty
      have hnameEnd :=
        (hname.covers ⟨_, List.mem_append_right _ (List.mem_singleton_self _), rfl⟩).nonempty
      dsimp only [Part.place] at *
      omega
  | declarationList =>
    obtain ⟨k, hslots, -, -, ⟨hvalue, hcovers⟩, -, hend⟩ := spells_append.mp hspells
    have hopen := hslots.inside.1
    have hnonempty := hcovers.nonempty
    simp only [spells_nil] at hend
    omega

/-! ### One level of a statement

Each of these takes the words of a statement apart where the production does, puts the parts where
their words are, and gives the statement that has these parts. What is left to show is that it was
the first way to read it, and that its expressions are whole. -/

section Statements

/-- A name as a statement. -/
theorem reads_nameStatement {value : Expression Unit}
    (hvalue : lexemes.ReadsByWords (.expression value)) (hname : value.IsName)
    (hunnamed : value.nameWords ≠ [⟨.ident, "_"⟩]) :
    lexemes.ReadsByWords (.statement (.expression () value)) := by
  rintro i j hrow -
  obtain ⟨k, hword, ⟨hsemi, -⟩, hend⟩ := hasRow_append.mp hrow
  obtain ⟨placed, rfl, hphrase, hwhole⟩ := hvalue i k hword
  have hk : k = i + 1 ∧ ¬ lexemes.isWordAt i "_" = true := by
    cases placed with
    | identifier place name =>
      obtain ⟨⟨-, htext⟩, hk⟩ := hword
      refine ⟨hk.symm, fun hplaceholder => hunnamed ?_⟩
      rw [Lexemes.textAt_of_isWordAt hplaceholder] at htext
      rw [htext]
      rfl
    | _ => exact hname.elim
  obtain ⟨rfl, hplaceholder⟩ := hk
  have hspells : lexemes.Spells i [.part placed.place, .token .semicolon] j :=
    hphrase.spells ⟨⟨by decide, hsemi⟩, hend⟩
  have hchosen : lexemes.Chosen (.expression ⟨i, j⟩ placed) := by
    refine ⟨not_declares_of_semicolon hsemi, fun h => hplaceholder h.1, fun h => ?_⟩
    have hident := hsemi.symm.trans h.2
    cases hident
  refine ⟨.expression ⟨i, j⟩ placed, rfl,
    .of_composed rfl .expression hspells (.of_none ⟨rfl, rfl, rfl, rfl⟩) hchosen ?_ ?_⟩
  · simpa [Part.fields, Part.statementFields] using hwhole
  · simpa [Part.fields, Part.statementFields] using hphrase.lays.stands

/-- The test of a choice or of a loop, between parentheses. -/
theorem spells_test {test : Expression Unit} {words : List Lexeme}
    (htest : lexemes.ReadsByWords (.expression test))
    (h : lexemes.HasRow i (.of .lparen :: (test.nameWords ++ .of .rparen :: words)) j) :
    ∃ placed : Expression Extent, placed.relocate (fun _ => ()) = test ∧ placed.IsWhole ∧
      (Part.expression placed).All (lexemes.Supports .none) ∧
      ∃ k, lexemes.HasRow k words j ∧ ∀ {rest : List Symbol} {l : Nat}, lexemes.Spells k rest l →
        lexemes.Spells i (.token .lparen :: .part placed.place :: .token .rparen :: rest) l := by
  obtain ⟨⟨hopen, -⟩, hrow⟩ := h
  obtain ⟨k, hword, ⟨hclose, -⟩, hwords⟩ := hasRow_append.mp hrow
  obtain ⟨placed, rfl, hphrase, hwhole⟩ := htest (i + 1) k hword
  exact ⟨placed, rfl, hwhole, hphrase.lays.stands, k + 1, hwords, fun hrest =>
    ⟨⟨by decide, hopen⟩, hphrase.spells ⟨⟨by decide, hclose⟩, hrest⟩⟩⟩

/-- A choice. The statement before an `else` of its own ends in no choice without one, so it does
not take that `else`; a choice without `else` is one only where none comes next. -/
theorem reads_ifElse {test : Expression Unit} {consequent : Statement .bare}
    {alternate : Option (Statement .bare)} (htest : lexemes.ReadsByWords (.expression test))
    (hconsequent : lexemes.ReadsByWords (.statement consequent))
    (halternate : ∀ s ∈ alternate, lexemes.ReadsByWords (.statement s))
    (hnearest : (Part.statement (.ifElse () test consequent alternate) : Part .bare).ElseNearest) :
    lexemes.ReadsByWords (.statement (.ifElse () test consequent alternate)) := by
  rintro i j ⟨⟨hif, -⟩, hrow⟩ hopen
  obtain ⟨t, rfl, hwhole, ht, k, hrow, hspells⟩ := spells_test htest hrow
  obtain ⟨l, hthen, hrow⟩ := hasRow_append.mp hrow
  cases alternate with
  | none =>
    obtain rfl : l = j := hrow
    have hnone : lexemes.kindAt l ≠ .kwElse := hopen trivial
    obtain ⟨c, rfl, hc⟩ := hconsequent k l hthen fun _ => hnone
    have hcomplete : lexemes.Decided (.statement (.ifElse ⟨i, l⟩ t c none)) := by
      refine .of_branches ⟨rfl, rfl⟩ ?_
      simpa [Part.branches] using ⟨hc.chosen, hc.lays.stands.here.complete⟩
    refine ⟨.ifElse ⟨i, l⟩ t c none, rfl, .of_composed rfl .ifElse
      ⟨⟨by decide, hif⟩, hspells (hc.lays.spells ⟨?_, rfl⟩)⟩ hcomplete ⟨trivial, trivial⟩ ?_ ?_⟩
    · intro helse
      exact hnone ((ahead_kind (by decide)).mp helse)
    · simpa [Part.fields, Part.statementFields] using hwhole
    · simpa [Part.fields, Part.statementFields] using ⟨ht, hc.lays.stands⟩
  | some alternate =>
    obtain ⟨⟨helse, -⟩, hother⟩ := hrow
    obtain ⟨c, rfl, hc⟩ := hconsequent k l hthen fun hends => absurd hends hnearest
    obtain ⟨a, rfl, ha⟩ := halternate alternate rfl (l + 1) j hother hopen
    have hbranches : lexemes.Spells k
        [.part c.place, .token .kwElse, .part a.place] j :=
      hc.lays.spells ⟨⟨by decide, helse⟩, ha.lays.spells rfl⟩
    have hcomplete : lexemes.Decided (.statement (.ifElse ⟨i, j⟩ t c (some a))) := by
      refine .of_branches ⟨rfl, rfl⟩ ?_
      simpa [Part.branches] using ⟨⟨hc.chosen, hc.lays.stands.here.complete⟩,
        ha.chosen, ha.lays.stands.here.complete⟩
    refine ⟨.ifElse ⟨i, j⟩ t c (some a), rfl, .of_composed rfl .ifElse
      ⟨⟨by decide, hif⟩, hspells hbranches⟩ hcomplete ⟨trivial, trivial⟩ ?_ ?_⟩
    · simpa [Part.fields, Part.statementFields] using hwhole
    · simpa [Part.fields, Part.statementFields] using ⟨ht, hc.lays.stands, ha.lays.stands⟩

/-- A loop with its test first. An `else` that its body would take would be taken by the loop. -/
theorem reads_whileLoop {test : Expression Unit} {body : Statement .bare}
    (htest : lexemes.ReadsByWords (.expression test))
    (hbody : lexemes.ReadsByWords (.statement body)) :
    lexemes.ReadsByWords (.statement (.whileLoop () test body)) := by
  rintro i j ⟨⟨hwhile, -⟩, hrow⟩ hopen
  obtain ⟨t, rfl, hwhole, ht, k, hrow, hspells⟩ := spells_test htest hrow
  obtain ⟨b, rfl, hb⟩ := hbody k j hrow hopen
  have hcomplete : lexemes.Decided (.statement (.whileLoop ⟨i, j⟩ t b)) := by
    refine .of_branches ⟨rfl, rfl⟩ ?_
    simpa [Part.branches] using ⟨hb.chosen, hb.lays.stands.here.complete⟩
  refine ⟨.whileLoop ⟨i, j⟩ t b, rfl, .of_composed rfl .whileLoop
    ⟨⟨by decide, hwhile⟩, hspells (hb.lays.spells rfl)⟩ hcomplete ⟨trivial, trivial⟩ ?_ ?_⟩
  · simpa [Part.fields, Part.statementFields] using hwhole
  · simpa [Part.fields, Part.statementFields] using ⟨ht, hb.lays.stands⟩

/-- A loop with its test last. After its body comes `while`, and so no `else`. -/
theorem reads_doWhile {test : Expression Unit} {body : Statement .bare}
    (htest : lexemes.ReadsByWords (.expression test))
    (hbody : lexemes.ReadsByWords (.statement body)) :
    lexemes.ReadsByWords (.statement (.doWhile () body test)) := by
  rintro i j ⟨⟨hdo, -⟩, hrow⟩ -
  obtain ⟨k, hrow, ⟨hwhile, -⟩, hrow'⟩ := hasRow_append.mp hrow
  have hnone : lexemes.kindAt k ≠ .kwElse := by
    rw [hwhile]
    decide
  obtain ⟨b, rfl, hb⟩ := hbody (i + 1) k hrow fun _ => hnone
  obtain ⟨t, rfl, hwhole, ht, l, ⟨⟨hsemi, -⟩, hend⟩, hspells⟩ := spells_test htest hrow'
  have htail : lexemes.Spells k
      [.token .kwWhile, .token .lparen, .part t.place, .token .rparen, .token .semicolon] j :=
    ⟨⟨by decide, hwhile⟩, hspells ⟨⟨by decide, hsemi⟩, hend⟩⟩
  have hcomplete : lexemes.Decided (.statement (.doWhile ⟨i, j⟩ b t)) := by
    refine .of_branches ⟨rfl, rfl⟩ ?_
    simpa [Part.branches] using ⟨hb.chosen, hb.lays.stands.here.complete⟩
  refine ⟨.doWhile ⟨i, j⟩ b t, rfl, .of_composed rfl .doWhile
    ⟨⟨by decide, hdo⟩, hb.lays.spells htail⟩ hcomplete ⟨trivial, trivial⟩ ?_ ?_⟩
  · simpa [Part.fields, Part.statementFields] using hwhole
  · simpa [Part.fields, Part.statementFields] using ⟨hb.lays.stands, ht⟩

/-- A `return`, with an argument or without. -/
theorem reads_returned {argument : Option (Expression Unit)}
    (hargument : ∀ e ∈ argument, lexemes.ReadsByWords (.expression e)) :
    lexemes.ReadsByWords (.statement (.returned () argument)) := by
  rintro i j ⟨⟨hreturn, -⟩, hrow⟩ -
  obtain ⟨k, hrow, ⟨hsemi, -⟩, hend⟩ := hasRow_append.mp hrow
  obtain ⟨a, rfl, hspells, ha⟩ : ∃ placed : Option (Expression Extent),
      placed.map (·.relocate fun _ => ()) = argument ∧
      lexemes.Spells (i + 1) (Symbol.option (placed.map (·.place))) k ∧
      ∀ e ∈ placed, e.IsWhole ∧ (Part.expression e).All (lexemes.Supports .none) := by
    cases argument with
    | none => exact ⟨none, rfl, hrow, by simp⟩
    | some e =>
      obtain ⟨placed, rfl, hphrase, hwhole⟩ := hargument e rfl (i + 1) k (by simpa using hrow)
      exact ⟨some placed, rfl, hphrase.spells rfl, by simpa using ⟨hwhole, hphrase.lays.stands⟩⟩
  have htail : lexemes.Spells (i + 1) (Symbol.option (a.map (·.place)) ++ [.token .semicolon]) j :=
    hspells.append ⟨⟨by decide, hsemi⟩, hend⟩
  refine ⟨.returned ⟨i, j⟩ a, ?_, .of_composed rfl .returned ⟨⟨by decide, hreturn⟩, htail⟩
    (.of_none ⟨rfl, rfl, rfl, rfl⟩) ⟨trivial, trivial⟩ ?_ ?_⟩
  · simp [Statement.relocate, Relocation.forget]
  · simpa [Part.fields, Part.statementFields] using fun e he => (ha e he).1
  · simpa [Part.fields, Part.statementFields] using fun e he => (ha e he).2

/-- A keyword and a semicolon. -/
theorem reads_jump {s : Statement .bare} (h : s = .breakLoop () ∨ s = .continueLoop ()) :
    lexemes.ReadsByWords (.statement s) := by
  rcases h with rfl | rfl
  all_goals
    rintro i j ⟨⟨hword, -⟩, ⟨hsemi, -⟩, hend⟩ -
    have hsymbols {k : Kind} (hne : k ≠ .eof) (hk : lexemes.kindAt i = k) :
        lexemes.Spells i [.token k, .token .semicolon] j :=
      ⟨⟨hne, hk⟩, ⟨by decide, hsemi⟩, hend⟩
  · exact ⟨.breakLoop ⟨i, j⟩, rfl,
      (IsStatement.of_leaf .breakLoop (hsymbols (by decide) hword) ⟨rfl, rfl⟩).1⟩
  · exact ⟨.continueLoop ⟨i, j⟩, rfl,
      (IsStatement.of_leaf .continueLoop (hsymbols (by decide) hword) ⟨rfl, rfl⟩).1⟩

/-- No statement of control flow begins with `else`. -/
theorem HasRow.kindAt_ne_else {s : Statement .bare} (hs : s.IsControlFlow)
    (h : lexemes.HasRow i s.words j) : lexemes.kindAt i ≠ .kwElse := by
  have begins {word : Lexeme} {words : List Lexeme} (hword : word.kind ≠ .kwElse)
      (h : lexemes.HasRow i (word :: words) j) : lexemes.kindAt i ≠ .kwElse := by
    rwa [h.1.1]
  cases s with
  | block body =>
    cases body
    exact begins (by decide) h
  | expression place value =>
    have hname : (Part.expression value : Part .bare).All Part.OfControlFlow :=
      hs.child (by simp [Part.fields, Part.statementFields])
    cases value with
    | identifier => exact begins Kind.noConfusion h
    | _ => exact hname.here.elim
  | ifElse | whileLoop | doWhile | returned | breakLoop | continueLoop => exact begins (by decide) h
  | _ => exact hs.here.elim

/-- Statements in a row. What comes after one is the next, which does not begin with `else`, or what
comes after all of them. -/
theorem reads_list {body : List (Statement .bare)} (hflow : ∀ s ∈ body, s.IsControlFlow)
    (hbody : ∀ s ∈ body, lexemes.ReadsByWords (.statement s))
    (h : lexemes.HasRow i (Statement.wordsOfList body) j) (hj : lexemes.kindAt j ≠ .kwElse) :
    ∃ placed : List (Statement .parsed), placed.map (·.relocate (.forget .parsed)) = body ∧
      lexemes.Spells i (Symbol.row (placed.map (·.place))) j ∧
      ∀ s ∈ placed, lexemes.Chosen s ∧ (Part.statement s).All (lexemes.Supports .none) := by
  induction body generalizing i with
  | nil => exact ⟨[], rfl, h, by simp⟩
  | cons s body ih =>
    obtain ⟨k, hfirst, hrest⟩ := hasRow_append.mp h
    obtain ⟨-, hrestFlow⟩ := List.forall_mem_cons.mp hflow
    obtain ⟨hreads, hrestReads⟩ := List.forall_mem_cons.mp hbody
    have hk : lexemes.kindAt k ≠ .kwElse := by
      cases body with
      | nil =>
        obtain rfl : k = j := hrest
        exact hj
      | cons next body =>
        obtain ⟨l, hnext, -⟩ := hasRow_append.mp hrest
        exact hnext.kindAt_ne_else (hrestFlow next List.mem_cons_self)
    obtain ⟨p, rfl, hp⟩ := hreads i k hfirst fun _ => hk
    obtain ⟨placed, rfl, hspells, hall⟩ := ih hrestFlow hrestReads hrest
    exact ⟨p :: placed, rfl, hp.lays.spells hspells,
      List.forall_mem_cons.mpr ⟨⟨hp.chosen, hp.lays.stands⟩, hall⟩⟩

/-- A block. Its closing brace is no `else`. -/
theorem reads_block {body : List (Statement .bare)} (hflow : ∀ s ∈ body, s.IsControlFlow)
    (hbody : ∀ s ∈ body, lexemes.ReadsByWords (.statement s)) :
    lexemes.ReadsByWords (.block (.mk () body)) := by
  rintro i j ⟨⟨hopen, -⟩, hrow⟩
  obtain ⟨k, hrow, ⟨hclose, -⟩, hend⟩ := hasRow_append.mp hrow
  have hnone : lexemes.kindAt k ≠ .kwElse := by
    rw [hclose]
    decide
  obtain ⟨placed, rfl, hspells, hall⟩ := reads_list hflow hbody hrow hnone
  have htail : lexemes.Spells (i + 1)
      (Symbol.row (placed.map (·.place)) ++ [.token .rbrace]) j :=
    hspells.append ⟨⟨by decide, hclose⟩, hend⟩
  refine ⟨.mk ⟨i, j⟩ placed, ?_, .of_composed rfl ?_ ?_ .block ⟨⟨by decide, hopen⟩, htail⟩ ?_⟩
  · simp [Block.relocate, Relocation.forget]
  · simp [Part.Tight, Part.fields]
  · exact ⟨fun s hs => (hall s hs).1, by simp [Part.branches], by simp [Part.initial?],
      by simp [Part.members]⟩
  · simpa [Part.fields, Block.body] using fun s hs => (hall s hs).2

/-- A block as a statement. -/
theorem reads_blockStatement {body : Block .bare} (hbody : lexemes.ReadsByWords (.block body)) :
    lexemes.ReadsByWords (.statement (.block body)) := by
  rintro i j hrow -
  obtain ⟨b, rfl, hb⟩ := hbody i j hrow
  refine ⟨.block b, rfl, .of_composed hb.place .blockStatement (hb.spells rfl)
    (.of_none ⟨rfl, rfl, rfl, rfl⟩) ⟨trivial, trivial⟩ ?_ ?_⟩
  · simp [Part.fields, Part.statementFields]
  · simpa [Part.fields, Part.statementFields] using hb.stands

end Statements

/-! ### Whole statements -/

/-- Where the words of a tree of control flow stand, and no `else` comes next that it would take,
there stands the tree. By induction over the tree, with one of the lemmas above for each node. -/
theorem readsByWords_of_all (hw : lexemes.WellSpelled) (part : Part .bare)
    (hflow : part.All Part.OfControlFlow) (hnearest : part.All Part.ElseNearest) :
    lexemes.ReadsByWords part := by
  induction part using Part.induction with
  | step part ih =>
    have hbelow {child : Part .bare} (hchild : child ∈ part.fields.flatten) :
        lexemes.ReadsByWords child := by
      obtain ⟨field, hfield, hmem⟩ := List.mem_flatten.mp hchild
      exact ih field hfield child hmem (hflow.below hfield hmem) (hnearest.below hfield hmem)
    have hnode := hflow.here
    cases part with
    | expression e => exact reads_name hw hnode
    | block b =>
      obtain ⟨⟨⟩, body⟩ := b
      refine reads_block (fun s hs => hflow.child ?_) fun s hs => hbelow ?_
      all_goals simpa [Part.fields, Block.body] using hs
    | statement s =>
      cases s with
      | block body =>
        exact reads_blockStatement (hbelow (by simp [Part.fields, Part.statementFields]))
      | expression place value =>
        have hname : (Part.expression value : Part .bare).All Part.OfControlFlow :=
          hflow.child (by simp [Part.fields, Part.statementFields])
        exact reads_nameStatement (hbelow (by simp [Part.fields, Part.statementFields]))
          hname.here hnode
      | ifElse place test consequent alternate =>
        refine reads_ifElse (hbelow ?_) (hbelow ?_) (fun s hs => hbelow ?_) hnearest.here
        · simp [Part.fields, Part.statementFields]
        · simp [Part.fields, Part.statementFields]
        · simpa [Part.fields, Part.statementFields] using .inr hs
      | whileLoop place test body =>
        exact reads_whileLoop (hbelow (by simp [Part.fields, Part.statementFields]))
          (hbelow (by simp [Part.fields, Part.statementFields]))
      | doWhile place body test =>
        exact reads_doWhile (hbelow (by simp [Part.fields, Part.statementFields]))
          (hbelow (by simp [Part.fields, Part.statementFields]))
      | returned place argument =>
        refine reads_returned fun e he => hbelow ?_
        simpa [Part.fields, Part.statementFields] using he
      | breakLoop => exact reads_jump (.inl rfl)
      | continueLoop => exact reads_jump (.inr rfl)
      | _ => exact hnode.elim
    | _ => exact hnode.elim

end Lexemes

/-! ### Reading control flow -/

/-- Placing a statement in a source and taking the places away again comes to taking away the
indices of its tokens. -/
theorem Layout.forget_statement (layout : Layout) (s : Statement .parsed) :
    (s.relocate layout.relocation).relocate (.forget .located) = s.relocate (.forget .parsed) :=
  Part.statement.inj (Part.relocate_relocate layout.relocation (.forget .located) (.statement s))

namespace Source

/-- A source is read as a tree of control flow if and only if it has the words of the tree, and
every `else` in it belongs to the nearest `if` that it can belong to. Where the names are words by
themselves, the words with spaces between are such a source. -/
theorem parseStatement_controlFlow {s : Statement .bare} (h : s.IsControlFlow) :
    (∀ source, (parseStatement source).map (·.relocate (.forget .located)) = .ok s ↔
      WithinLimit source ∧ s.BindsElse ∧ (lex source).tokens.lexemes = .ofWords s.words) ∧
    ((∀ word ∈ s.words, word.kind = .ident → word.StandsAlone) →
      (lex (" ".intercalate (s.words.map (·.text)))).tokens.lexemes = .ofWords s.words) := by
  have hflow : (Part.statement s).All Part.OfControlFlow := h
  have hwords : Lexeme.Plain s.words := s.plain_words
  refine ⟨fun source => ⟨fun hok => ?_, ?_⟩, fun hnames => ?_⟩
  · -- what was read stands in the source, with its words
    cases hparse : parseStatement source with
    | error e =>
      rw [hparse] at hok
      cases hok
    | ok t =>
      obtain ⟨hsize, v, j, hstatement, hend, rfl⟩ := parseStatement_eq_ok_iff.mp hparse
      rw [hparse] at hok
      obtain rfl : v.relocate (.forget .parsed) = s :=
        (layout source).forget_statement v ▸ Except.ok.inj hok
      have hstands := hstatement.lays.stands
      refine ⟨hsize, ?_, ?_⟩
      · have hnearest : ((Part.statement v).relocate (.forget .parsed)).All Part.ElseNearest :=
          (Part.all_relocate _).mpr <| (Lexemes.all_elseNearest hstands).mono fun p hp =>
            (Part.elseNearest_relocate _ p).mpr hp
        exact hnearest
      · have hplaced : (Part.statement v).All Part.OfControlFlow := by
          have hmoved : ((Part.statement v).relocate (.forget .parsed)).All Part.OfControlFlow := h
          exact ((Part.all_relocate _).mp hmoved).mono fun p hp =>
            (Part.ofControlFlow_relocate _ p).mp hp
        have hrow := Lexemes.hasRow_words (lex_spelled source) (.statement v) hstands hplaced nofun
        rw [hstatement.lays.place] at hrow
        rw [Statement.words_relocate]
        exact hrow.eq_ofWords v.plain_words.ne_eof hend
  · -- and where its words are, it stands, and so is what is read
    rintro ⟨hsize, hnearest, hlex⟩
    obtain ⟨hrow, hend⟩ := Lexemes.hasRow_ofWords s.words
    rw [← hlex] at hrow hend
    obtain ⟨placed, rfl, hstatement⟩ := Lexemes.readsByWords_of_all (lex_wellSpelled source)
      (.statement s) hflow hnearest 0 _ hrow fun _ => by rw [hend]; decide
    rw [parseStatement_eq_ok_iff.mpr ⟨hsize, placed, _, hstatement, hend, rfl⟩]
    exact congrArg Except.ok ((layout source).forget_statement placed)
  · exact hwords.lex_intercalate hnames

/-- A choice with an `else` of its own before another `else`. -/
theorem parseStatement_controlFlow_nested :
    let name := Expression.identifier ()
    let inner : Statement .bare :=
      .ifElse () (name "c") (.expression () (name "x")) (some (.returned () (some (name "y"))))
    let s : Statement .bare :=
      .ifElse () (name "a") (.whileLoop () (name "b") inner)
        (some (.block (.mk () [.breakLoop ()])))
    s.IsControlFlow ∧ s.BindsElse ∧
      (parseStatement "if (a) while (b) if (c) x; else return y; else { break; }").map
        (·.relocate (.forget .located)) = .ok s := by
  intro name inner s
  let P : Part .bare → Prop := fun p => p.OfControlFlow ∧ p.ElseNearest
  have hs : (Part.statement s).All P := by
    have hname (word : String) : (Part.expression (name word)).All P :=
      .of_below [] ⟨⟨trivial, trivial⟩, rfl⟩ (by simp)
    have hx : (Part.statement (.expression () (name "x"))).All P :=
      .of_below [_] ⟨⟨by simp [name, Part.OfControlFlow, Expression.nameWords], trivial⟩, rfl⟩
        (by simpa using hname "x")
    have hy : (Part.statement (.returned () (some (name "y")))).All P :=
      .of_below [_] ⟨⟨trivial, trivial⟩, rfl⟩ (by simpa using hname "y")
    have hinner : (Part.statement inner).All P :=
      .of_below [_, _, _] ⟨⟨trivial, id⟩, rfl⟩ (by simpa using ⟨hname "c", hx, hy⟩)
    have hloop : (Part.statement (.whileLoop () (name "b") inner)).All P :=
      .of_below [_, _] ⟨⟨trivial, trivial⟩, rfl⟩ (by simpa using ⟨hname "b", hinner⟩)
    have hbreak : (Part.statement (.breakLoop ())).All P :=
      .of_below [] ⟨⟨trivial, trivial⟩, rfl⟩ (by simp)
    have hblock : (Part.statement (.block (.mk () [.breakLoop ()]))).All P :=
      .of_below [_] ⟨⟨trivial, trivial⟩, rfl⟩ <| by
        simpa using Part.All.of_below [_] ⟨⟨trivial, trivial⟩, rfl⟩ (by simpa using hbreak)
    exact .of_below [_, _, _] ⟨⟨trivial, id⟩, rfl⟩ (by simpa using ⟨hname "a", hloop, hblock⟩)
  have hflow : s.IsControlFlow := hs.mono fun _ h => h.1
  have hbinds : s.BindsElse := hs.mono fun _ h => h.2
  have hsize : WithinLimit "if (a) while (b) if (c) x; else return y; else { break; }" := by
    rw [withinLimit_ofList]
    decide
  refine ⟨hflow, hbinds, ((parseStatement_controlFlow hflow).1 _).mpr ⟨hsize, hbinds, ?_⟩⟩
  rw [lex_ofList]
  decide +kernel

end Source

end SolidityParser
