import SolidityParser.Proofs.Parser.Follows

/-!
# Properties of states that every run keeps

A property of states that holds where a run begins holds where it ends, be it with a value or with a
failure, if the steps that change a state keep it. For the rules that only go forward these are two:
a token is consumed, and a token is reported where another stands (`StepInvariant`). In a choice the
position goes back while the record of failures stays, and a rule may be reported in the place of
what it tried (`Invariant`).

`Parser.Keeps known p` is such a statement about the runs of `p` that begin where the tokens ahead
are of the kinds `known`. Whatever is built from combinators keeps every invariant
(`Phrase.Built.keeps`).
-/

namespace SolidityParser

/-! ### Invariants -/

/-- A property of states that is kept where a token is consumed or missed. -/
structure StepInvariant (Inv : Lexemes → ParseState → Prop) : Prop where
  /-- A token is consumed. -/
  advance : ∀ {lexemes : Lexemes} {s : ParseState}, Inv lexemes s →
    lexemes.kindAt s.position ≠ .eof → Inv lexemes { s with position := s.position + 1 }
  /-- A token is reported where another stands. -/
  miss : ∀ {lexemes : Lexemes} {s : ParseState} {k : Kind}, Inv lexemes s →
    lexemes.kindAt s.position ≠ k → Inv lexemes { s with trail := s.trail.addToken s.position k }

/-- A property of states that choices keep too. -/
structure Invariant (Inv : Lexemes → ParseState → Prop) : Prop extends StepInvariant Inv where
  /-- A rule is reported. -/
  rule : ∀ {lexemes : Lexemes} {s : ParseState} (name : RuleName), Inv lexemes s →
    Inv lexemes { s with trail := s.trail.addRule s.position name }
  /-- The position is that of one state, and the record that of another. -/
  back : ∀ {lexemes : Lexemes} {s t : ParseState}, Inv lexemes s → Inv lexemes t →
    Inv lexemes ⟨s.position, t.trail⟩
  /-- What a rule tried since a state is reported under its name. -/
  collapse : ∀ {lexemes : Lexemes} {s t : ParseState} (name : RuleName), Inv lexemes s →
    Inv lexemes t → Inv lexemes { t with trail := t.trail.collapse s.position s.trail name }

/-- What is kept by the first part of a composition, and by the second one wherever that has come
to, is kept by the whole. -/
theorem Parser.final_bind {α β : Type} {P : ParseState → Prop} {scope : Scope} {s : ParseState}
    {p : Parser α} {f : α → Parser β} (hp : P (final (p scope s)))
    (hf : ∀ v t, p scope s = .ok v t → P t → P (final (f v scope t))) :
    P (final ((p >>= f) scope s)) := by
  rw [bind_run]
  cases hrun : p scope s with
  | ok v t =>
    rw [hrun] at hp
    exact hf v t hrun hp
  | error fault t => rwa [hrun] at hp

/-- Runs of the parser keep the property. -/
def Parser.Keeps {α : Type} (Inv : Lexemes → ParseState → Prop) (known : List Kind)
    (p : Parser α) : Prop :=
  ∀ scope s, scope.lexemes.Shows s.position known → Inv scope.lexemes s →
    Inv scope.lexemes (final (p scope s))

/-- Runs of the rule keep the property. -/
def Rule.Keeps {α : Type} (Inv : Lexemes → ParseState → Prop) (known : List Kind) (r : Rule α) :
    Prop :=
  ∀ scope s, scope.lexemes.Shows s.position known → Inv scope.lexemes s →
    Inv scope.lexemes (r scope s).2

/-! ### Parsers

What only looks at the input keeps everything. A composition keeps what its parts keep; the first
part is run where kinds are known, and of the place it leads to nothing is known any more.
-/

namespace Parser.Keeps

variable {α β : Type} {Inv : Lexemes → ParseState → Prop} {known : List Kind} {p : Parser α}

protected theorem pure (v : α) : Keeps Inv known (pure v) := fun _ _ _ hs => hs

protected theorem fail : Keeps Inv known (Parser.fail : Parser α) := fun _ _ _ hs => hs

/-- What is known may be left aside. -/
theorem weaken (h : Keeps Inv [] p) : Keeps Inv known p :=
  fun scope s _ hs => h scope s trivial hs

/-- What both parts keep is kept by their composition. -/
theorem bind {f : α → Parser β} (hp : Keeps Inv known p) (hf : ∀ v, Keeps Inv [] (f v)) :
    Keeps Inv known (p >>= f) :=
  fun scope s hshows hs =>
    final_bind (hp scope s hshows hs) fun v t _ ht => hf v scope t trivial ht

/-- A test can be made use of on either side. -/
theorem ite {test : Prop} [Decidable test] {q : Parser α} (yes : test → Keeps Inv known p)
    (no : ¬ test → Keeps Inv known q) : Keeps Inv known (if test then p else q) := by
  split
  · exact yes ‹_›
  · exact no ‹_›

theorem map {g : α → β} (h : Keeps Inv known p) : Keeps Inv known (g <$> p) := by
  rw [← bind_pure_comp]
  exact h.bind fun v => .pure (g v)

/-- What is asked of the input may tell more about the tokens ahead. -/
theorem look (known' : α → List Kind) (read : Scope → ParseState → α)
    (shows : ∀ (scope : Scope) (s : ParseState), scope.lexemes.Shows s.position known →
      scope.lexemes.Shows s.position (known' (read scope s)))
    {f : α → Parser β} (hf : ∀ v, Keeps Inv (known' v) (f v)) :
    Keeps Inv known ((fun scope s => .ok (read scope s) s : Parser α) >>= f) :=
  fun scope s hshows hs => hf _ scope s (shows scope s hshows) hs

/-- Something is asked, and what is known stays known. -/
theorem ask (read : Scope → ParseState → α) {f : α → Parser β} (hf : ∀ v, Keeps Inv known (f v)) :
    Keeps Inv known ((fun scope s => .ok (read scope s) s : Parser α) >>= f) :=
  look (fun _ => known) read (fun _ _ hshows => hshows) hf

theorem position {f : Nat → Parser β} (hf : ∀ i, Keeps Inv known (f i)) :
    Keeps Inv known (Parser.position >>= f) := ask (fun _ s => s.position) hf

theorem text {f : String → Parser β} (hf : ∀ word, Keeps Inv known (f word)) :
    Keeps Inv known (Parser.text >>= f) := ask (fun scope s => scope.lexemes.textAt s.position) hf

theorem extentFrom {first : Nat} {f : Extent → Parser β}
    (hf : ∀ extent, Keeps Inv known (f extent)) :
    Keeps Inv known (Parser.extentFrom first >>= f) := ask (fun _ s => Extent.mk first s.position) hf

theorem budget {f : Nat → Parser β} (hf : ∀ fuel, Keeps Inv known (f fuel)) :
    Keeps Inv known (Parser.budget >>= f) :=
  ask (fun scope s => scope.lexemes.size - s.position + 1) hf

theorem kind {f : Kind → Parser β} (hf : ∀ k, Keeps Inv (k :: known.tail) (f k)) :
    Keeps Inv known (Parser.kind >>= f) :=
  look (fun k => k :: known.tail) (fun scope s => scope.lexemes.kindAt s.position)
    (fun _ _ hshows => by
      cases known with
      | nil => exact ⟨rfl, trivial⟩
      | cons k ks => exact ⟨rfl, hshows.2⟩) hf

theorem kindAhead {k : Kind} {f : Kind → Parser β} (hf : ∀ k', Keeps Inv [k, k'] (f k')) :
    Keeps Inv [k] (Parser.kindAhead 1 >>= f) := by
  refine look (fun k' => [k, k']) (fun scope s => scope.lexemes.kindAt (s.position + 1))
    (fun _ _ hshows => ?_) hf
  exact ⟨hshows.1, rfl, trivial⟩

/-- Where a word was found, a name stands. -/
theorem isWord {word : String} {f : Bool → Parser β} (hit : Keeps Inv [.ident] (f true))
    (miss : Keeps Inv known (f false)) : Keeps Inv known (Parser.isWord word >>= f) :=
  look (fun found => if found = true then [.ident] else known)
    (fun scope s => scope.lexemes.isWordAt s.position word)
    (fun _ _ hshows => by
      split
      · exact ⟨Lexemes.kindAt_of_isWordAt ‹_›, trivial⟩
      · exact hshows)
    fun
      | true => hit
      | false => miss

/-- What only adds to the record keeps a property that this addition keeps. -/
theorem report (change : Nat → Trail → Trail) {f : Unit → Parser β}
    (keep : ∀ (lexemes : Lexemes) (s : ParseState), lexemes.Shows s.position known →
      Inv lexemes s → Inv lexemes { s with trail := change s.position s.trail })
    (hf : Keeps Inv known (f ())) :
    Keeps Inv known
      ((fun _ s => .ok () { s with trail := change s.position s.trail } : Parser Unit) >>= f) :=
  fun scope s hshows hs => hf scope _ hshows (keep scope.lexemes s hshows hs)

theorem within {construct : Construct} (h : Keeps Inv known p) :
    Keeps Inv known (p.within construct) := by
  intro scope s hshows hs
  have ht := h scope s hshows hs
  unfold Parser.within
  cases hrun : p scope s <;> rwa [hrun] at ht

theorem inBody (h : Keeps Inv known p) : Keeps Inv known p.inBody :=
  fun scope s hshows hs => h { scope with inBody := true } s hshows hs

/-- A rule that is run as a parser keeps what it keeps. -/
theorem finish {r : Rule α} {construct : Option Construct} (h : r.Keeps Inv known) :
    Keeps Inv known (r.finishIn construct) := by
  intro scope s hshows hs
  have ht := h scope s hshows hs
  unfold Rule.finishIn
  cases hrun : r scope s with
  | mk outcome t =>
    rw [hrun] at ht
    cases outcome <;> exact ht

/-! ### Loops -/

/-- A loop, each round of which keeps the property if its value is as it should be, and gives a
value that is so again. -/
theorem iterateWhere {P : β → Prop} {step : β → Parser (Option β)}
    (h : ∀ v, P v → Keeps Inv [] (step v))
    (next : ∀ {scope s t v w}, P v → step v scope s = .ok (some w) t → P w) {v : β} (hv : P v) :
    Keeps Inv known (Parser.iterate step v) := by
  have loop : ∀ fuel v, P v → Keeps Inv [] (iterateAtFuel step fuel v) := by
    intro fuel
    induction fuel with
    | zero => exact fun _ _ => .fail
    | succ fuel ih =>
      refine fun v hv scope s _ hs => final_bind (h v hv scope s trivial hs) fun w t hrun ht => ?_
      cases w with
      | none => exact ht
      | some w => exact ih w (next hv hrun) scope t trivial ht
  exact budget fun fuel => .weaken (loop fuel v hv)

/-- A loop keeps what each of its rounds keeps. -/
theorem iterate {step : β → Parser (Option β)} (h : ∀ v, Keeps Inv [] (step v)) (v : β) :
    Keeps Inv known (Parser.iterate step v) :=
  have always : ∀ {scope s t v w}, True → step v scope s = .ok (some w) t → True :=
    fun _ _ => trivial
  iterateWhere (fun v _ => h v) always trivial

/-- So does one that collects. -/
theorem collect {step : Parser (Option α)} (h : Keeps Inv [] step) :
    Keeps Inv known (Parser.collect step) := by
  have loop : ∀ fuel, Keeps Inv [] (collectAtFuel step fuel) := by
    intro fuel
    induction fuel with
    | zero => exact .fail
    | succ fuel ih =>
      refine h.bind fun next => ?_
      cases next with
      | none => exact .pure []
      | some v => exact ih.bind fun vs => .pure (v :: vs)
  exact budget fun fuel => .weaken (loop fuel)

end Parser.Keeps

/-! ### Single tokens -/

namespace StepInvariant

open SolidityParser.Parser (Keeps)

variable {α β : Type} {Inv : Lexemes → ParseState → Prop} (h : StepInvariant Inv)
  {known : List Kind}

include h

/-- At the end of the input the state stays as it is. -/
theorem keeps_advance : Keeps Inv known Parser.advance := by
  intro scope s _ hs
  unfold Parser.advance
  split
  · exact hs
  · exact h.advance hs ‹_›

/-- After a token that is known, what is known is told of the tokens from the next on. -/
theorem keeps_take {k : Kind} {f : Unit → Parser β} (hk : k ≠ .eof)
    (hf : Keeps Inv known (f ())) : Keeps Inv (k :: known) (Parser.advance >>= f) := by
  intro scope s hshows hs
  have hne : scope.lexemes.kindAt s.position ≠ .eof := by
    rw [hshows.1]
    exact hk
  rw [Parser.bind_of_ok (Parser.advance_run hne)]
  exact hf scope _ hshows.2 (h.advance hs hne)

/-- To report a token where another stands is a step. -/
theorem keeps_reportToken {here k : Kind} {f : Unit → Parser β} (miss : here ≠ k)
    (hf : Keeps Inv (here :: known) (f ())) :
    Keeps Inv (here :: known) (Parser.reportToken k >>= f) :=
  .report (fun i trail => trail.addToken i k)
    (fun _ _ hshows hs => h.miss hs (by rw [hshows.1]; exact miss)) hf

/-- A look at one token reports it, if it is not there. -/
theorem keeps_check {k : Kind} : Keeps Inv known (Parser.check k) :=
  .kind fun _ => .ite (fun _ => .pure true) fun miss => h.keeps_reportToken miss (.pure false)

/-- To expect a token is to look at it, and then to take it or to fail. -/
theorem keeps_expect {k : Kind} : Keeps Inv known (Parser.expect k) :=
  h.keeps_check.bind fun _ => .ite (fun _ => h.keeps_advance) fun _ => .fail

/-- To take a token if it is there is the same, without the failure. -/
theorem keeps_eat {k : Kind} : Keeps Inv known (Parser.eat k) :=
  h.keeps_check.bind fun _ =>
    .ite (fun _ => h.keeps_advance.bind fun _ => .pure true) fun _ => .pure false

/-- A name is a token as others are. -/
theorem keeps_expectIdent : Keeps Inv known Parser.expectIdent :=
  .position fun _ => .text fun _ => h.keeps_expect.bind fun _ => .pure _

/-- Items with commas between them keep what one item keeps. -/
theorem keeps_separated {item : Parser α} (hi : Keeps Inv [] item) :
    Keeps Inv known (Parser.separated item) := by
  have loop : ∀ fuel, Keeps Inv [] (Parser.separatedAtFuel item fuel) := by
    intro fuel
    induction fuel with
    | zero => exact .fail
    | succ fuel ih =>
      exact hi.bind fun v => h.keeps_eat.bind fun _ =>
        .ite (fun _ => ih.bind fun vs => .pure (v :: vs)) fun _ => .pure [v]
  exact .budget fun fuel => .weaken (loop fuel)

/-- So do items that a token closes. -/
theorem keeps_series {close : Kind} {item : Parser α} (hi : Keeps Inv [] item) :
    Keeps Inv known (Parser.series close item) :=
  h.keeps_eat.bind fun _ => .ite (fun _ => .pure []) fun _ =>
    (h.keeps_separated hi).bind fun items => h.keeps_expect.bind fun _ => .pure items

/-- A rule that begins with a token of a certain kind reports where another stands. -/
theorem keeps_opening {k : Kind} {r : Rule α} (hr : r.Keeps Inv [k]) :
    (Rule.opening k r).Keeps Inv known := by
  intro scope s _ hs
  unfold Rule.opening
  split
  · exact hr scope s ⟨‹_›, trivial⟩ hs
  · exact h.miss hs ‹_›

/-- A passage in braces is passed one token at a time. -/
theorem keeps_skipBraces : Keeps Inv known Grammar.skipBraces := by
  rw [skipBraces_eq]
  refine .bind (.iterate (fun depth => .ite (fun _ => .pure none) fun _ => ?_) 1) fun _ => .pure ()
  refine .kind fun k => ?_
  split
  · exact h.keeps_reportToken (by decide) .fail
  · exact h.keeps_advance.bind fun _ => .pure _
  · exact h.keeps_advance.bind fun _ => .pure _
  · exact h.keeps_advance.bind fun _ => .pure _

end StepInvariant

/-! ### Rules

A rule keeps what the parser keeps that it is made from. The kinds that a test has shown are known
to what is run after it.
-/

namespace Rule.Keeps

variable {α β : Type} {Inv : Lexemes → ParseState → Prop} {known : List Kind} {r : Rule α}

theorem ofParser {p : Parser α} (h : p.Keeps Inv known) :
    Rule.Keeps Inv known (Rule.ofParser p) := by
  intro scope s hshows hs
  have ht := h scope s hshows hs
  unfold Rule.ofParser
  cases hrun : p scope s <;> rwa [hrun] at ht

theorem decided {p : Parser α} (h : p.Keeps Inv known) :
    Rule.Keeps Inv known (Rule.decided p) := by
  intro scope s hshows hs
  have ht := h scope s hshows hs
  unfold Rule.decided
  cases hrun : p scope s <;> rwa [hrun] at ht

theorem taking {p : Nat → String → Parser α}
    (h : ∀ i word, (Parser.advance >>= fun _ => p i word).Keeps Inv known) :
    Rule.Keeps Inv known (Rule.taking p) :=
  fun scope s => decided (h _ _) scope s

/-- What follows a rule is run where the rule has come to. -/
theorem followedBy {next : Nat → α → Rule β} (h : Rule.Keeps Inv known r)
    (hnext : ∀ i v, Rule.Keeps Inv [] (next i v)) :
    Rule.Keeps Inv known (r.followedBy next) := by
  intro scope s hshows hs
  have ht := h scope s hshows hs
  unfold Rule.followedBy
  cases hr : r scope s with
  | mk outcome t =>
    rw [hr] at ht
    cases outcome with
    | consumedOk v | emptyOk v => exact hnext _ v scope t trivial ht
    | consumedErr fault | emptyErr expected position => exact ht

/-- A test that is met shows the kinds that are known then. -/
theorem provided {test : Lexemes → Nat → Bool} {known' : List Kind}
    (shows : ∀ lexemes i, test lexemes i = true → lexemes.Shows i known')
    (h : Rule.Keeps Inv known' r) : Rule.Keeps Inv known (r.provided test) := by
  intro scope s _ hs
  unfold Rule.provided
  split
  · exact h scope s (shows _ _ ‹_›) hs
  · exact hs

theorem map {f : α → β} (h : Rule.Keeps Inv known r) : Rule.Keeps Inv known (r.map f) := h

theorem within {construct : Construct} (h : Rule.Keeps Inv known r) :
    Rule.Keeps Inv known (r.within construct) := h

theorem none : Rule.Keeps Inv known (Rule.firstOf ([] : List (Rule α))) := fun _ _ _ hs => hs

/-- Which rule is run depends on the kind of the next token, which is known to it. -/
theorem select {choose : Kind → Option (Parser α)}
    (h : ∀ k p, choose k = some p → p.Keeps Inv [k]) :
    Rule.Keeps Inv known (Rule.select choose) := by
  intro scope s _ hs
  unfold Rule.select
  split
  · exact ofParser (h _ _ ‹_›) scope s ⟨rfl, trivial⟩ hs
  · exact hs

end Rule.Keeps

/-! ### Choices -/

namespace Invariant

open SolidityParser.Parser (Keeps)

variable {α : Type} {Inv : Lexemes → ParseState → Prop} (h : Invariant Inv)
  {known : List Kind} {r : Rule α}

include h

/-- A name in place of what was tried is put on record in one step. -/
theorem keeps_named {p : Parser α} {rule : RuleName} (hp : Keeps Inv known p) :
    Keeps Inv known (p.named rule) := by
  intro scope s hshows hs
  have ht := hp scope s hshows hs
  unfold Parser.named
  cases hrun : p scope s with
  | ok v t => rwa [hrun] at ht
  | error fault t =>
    rw [hrun] at ht
    exact h.collapse rule hs ht

/-- So it is for rules. -/
theorem keeps_ruleNamed {name : RuleName} (hr : r.Keeps Inv known) :
    (r.named name).Keeps Inv known := by
  intro scope s hshows hs
  have ht := hr scope s hshows hs
  unfold Rule.named
  cases hrun : r scope s with
  | mk outcome t =>
    rw [hrun] at ht
    cases outcome with
    | consumedOk v | emptyOk v | consumedErr fault => exact ht
    | emptyErr expected position => exact h.collapse name hs ht

/-- An attempt that fails goes back, and keeps the record. -/
theorem keeps_attempt (hr : r.Keeps Inv known) : r.attempt.Keeps Inv known := by
  intro scope s hshows hs
  have ht := hr { scope with speculative := true } s hshows hs
  unfold Rule.attempt
  cases hrun : r { scope with speculative := true } s with
  | mk outcome t =>
    rw [hrun] at ht
    cases outcome with
    | consumedOk v | emptyOk v => exact ht
    | consumedErr fault | emptyErr expected position => exact h.back hs ht

/-- A choice goes on to its other rules from where it was, with the record of what it tried. -/
theorem keeps_orElse {rs : List (Rule α)} (hr : r.Keeps Inv known)
    (hrs : (Rule.firstOf rs).Keeps Inv known) : (Rule.firstOf (r :: rs)).Keeps Inv known := by
  intro scope s hshows hs
  have ht := hr scope s hshows hs
  unfold Rule.firstOf
  cases hrun : r scope s with
  | mk outcome t =>
    rw [hrun] at ht
    cases outcome with
    | consumedOk v | emptyOk v | consumedErr fault => exact ht
    | emptyErr expected position =>
      have hu := hrs scope { t with position := s.position } hshows (h.back hs ht)
      dsimp only
      cases hrun' : Rule.firstOf rs scope { t with position := s.position } with
      | mk outcome u =>
        rw [hrun'] at hu
        cases outcome <;> exact hu

/-- Where none of several tokens stands, each is reported. -/
theorem keeps_oneOf {kinds : List Kind} (hr : r.Keeps Inv known) :
    (Rule.oneOf kinds r).Keeps Inv known := by
  intro scope s hshows hs
  unfold Rule.oneOf
  split
  · exact hr scope s hshows hs
  · rename_i hnone
    have others : ∀ {ks : List Kind} {trail : Trail}, scope.lexemes.kindAt s.position ∉ ks →
        Inv scope.lexemes ⟨s.position, trail⟩ → Inv scope.lexemes
          ⟨s.position, ks.foldl (fun trail k => trail.addToken s.position k) trail⟩ := by
      intro ks
      induction ks with
      | nil => exact fun _ htrail => htrail
      | cons k ks ih =>
        intro trail hmem htrail
        rw [List.mem_cons, not_or] at hmem
        exact ih hmem.2 (h.miss htrail hmem.1)
    exact others (by simpa using hnone) hs

/-! ### Blocks -/

/-- What is skipped is passed token by token, and a statement is tried after each. -/
theorem keeps_skipIncomplete (statement : Rule α) :
    Keeps Inv known (Grammar.skipIncomplete statement) := by
  have loop : ∀ fuel brackets, Keeps Inv [] (Grammar.skipAtFuel statement fuel brackets) := by
    intro fuel
    induction fuel with
    | zero => exact fun _ => .fail
    | succ fuel ih =>
      refine fun brackets => .bind ?_ fun next => ?_
      · refine .kind fun last => h.keeps_advance.bind fun _ => .bind ?_ fun _ =>
          .ite (fun _ => .pure none) fun _ => .pure _
        intro scope s _ hs
        obtain ⟨verdict, hrun, -⟩ := resumes_run statement scope s last (brackets.after last)
        rwa [hrun]
      · cases next with
        | none => exact .pure ()
        | some brackets => exact ih brackets
  refine .kind fun _ => .ite (fun _ => .pure none) fun _ => ?_
  exact .position fun _ => .budget fun fuel => .weaken <| (loop fuel {}).bind fun _ =>
    .extentFrom fun extent => .pure (some extent)

/-- A statement is read, or it is skipped. -/
theorem keeps_statementOrSkipped {statement : Rule (Statement .parsed)}
    (hstatement : statement.Keeps Inv []) :
    Keeps Inv known (Grammar.statementOrSkipped statement) := by
  intro scope s _ hs
  have hfinish : Keeps Inv [] statement.finish := .finish hstatement
  have ht := hfinish scope s trivial hs
  unfold Grammar.statementOrSkipped
  cases hrun : statement.finish scope s with
  | ok v t => rwa [hrun] at ht
  | error fault t =>
    rw [hrun] at ht
    dsimp only
    split
    · have hskips : Keeps Inv [] (Grammar.skipIncomplete statement) := h.keeps_skipIncomplete statement
      have hu := hskips scope { t with position := s.position } trivial (h.back hs ht)
      split <;> rename_i hskip <;> rw [hskip] at hu
      · exact h.back hu hs
      · exact hu
      · exact hu
    · exact ht

/-- A block keeps what its statements keep. -/
theorem keeps_block {statement : Rule (Statement .parsed)} (hstatement : statement.Keeps Inv []) :
    Keeps Inv known (Grammar.block statement) := by
  have item : Keeps Inv [] (Grammar.blockItem statement) :=
    h.keeps_eat.bind fun _ => .ite (fun _ => .pure none) fun _ =>
      .ask (fun scope s => scope.recovers && Grammar.atMember scope.lexemes s.position) fun _ =>
        .ite (fun _ => .pure none) fun _ =>
          (h.keeps_statementOrSkipped hstatement).bind fun _ => .pure _
  exact .position fun _ => h.keeps_expect.bind fun _ => (Parser.Keeps.collect item).bind fun _ =>
    .extentFrom fun _ => .pure _

end Invariant

/-! ### Everything that is built -/

/-- Runs of a parser or a rule keep the property. -/
abbrev Phrase.Keeps {α : Type} (Inv : Lexemes → ParseState → Prop) (known : List Kind)
    (phrase : Phrase α) : Prop :=
  match phrase with
  | .parser p => p.Keeps Inv known
  | .rule r => r.Keeps Inv known

/-- What is built from combinators keeps every invariant. -/
theorem Phrase.Built.keeps {Inv : Lexemes → ParseState → Prop} (hInv : Invariant Inv) {α : Type}
    {known : List Kind} {a : Ledger} {phrase : Phrase α} {b : α → Ledger}
    (h : Phrase.Built known a phrase b) : phrase.Keeps Inv known := by
  induction h with
  | pure => exact Parser.Keeps.pure _
  | fail => exact Parser.Keeps.fail
  | weaken _ ih => exact Parser.Keeps.weaken ih
  | bind _ _ ih ih' => exact Parser.Keeps.bind ih ih'
  | look read _ ih => exact Parser.Keeps.ask (fun scope s => read scope.lexemes s.position) ih
  | kind _ ih => exact Parser.Keeps.kind ih
  | kindAhead _ ih => exact Parser.Keeps.kindAhead ih
  | isWord _ _ ih ih' => exact Parser.Keeps.isWord ih ih'
  | reportToken miss _ ih => exact hInv.keeps_reportToken miss ih
  | reportRule _ ih =>
    exact Parser.Keeps.report (fun i trail => trail.addRule i _) (fun _ _ _ => hInv.rule _) ih
  | advance ledger _ ih => exact hInv.keeps_take (Ledger.ne_eof_of_after? ledger) ih
  | within _ _ ih => exact Parser.Keeps.within ih
  | named _ _ ih => exact hInv.keeps_named ih
  | inBody _ ih => exact Parser.Keeps.inBody ih
  | finish _ ih => exact Parser.Keeps.finish ih
  | iterate _ ih => exact Parser.Keeps.iterate ih _
  | separated _ ih => exact hInv.keeps_separated ih
  | collect _ _ ih => exact Parser.Keeps.collect (ih [])
  | @block _ a _ _ _ ih => exact hInv.keeps_block (ih a)
  | unread _ ih =>
    exact Parser.Keeps.position fun _ => hInv.keeps_expect.bind fun _ =>
      hInv.keeps_skipBraces.bind fun _ => Parser.Keeps.extentFrom ih
  | ofParser _ ih => exact Rule.Keeps.ofParser ih
  | taking ledger _ ih =>
    exact Rule.Keeps.taking fun i word =>
      hInv.keeps_take (Ledger.ne_eof_of_after? ledger) (ih i word)
  | opening _ ih => exact hInv.keeps_opening ih
  | followedBy _ _ _ ih ih' =>
    exact Rule.Keeps.followedBy ih fun i v => Rule.Keeps.decided (ih' i v)
  | provided shows _ ih => exact Rule.Keeps.provided shows ih
  | ruleMap _ ih => exact Rule.Keeps.map ih
  | ruleWithin _ _ ih => exact Rule.Keeps.within ih
  | ruleNamed _ _ ih => exact hInv.keeps_ruleNamed ih
  | attempt _ ih => exact hInv.keeps_attempt ih
  | none => exact Rule.Keeps.none
  | orElse _ _ ih ih' => exact hInv.keeps_orElse ih ih'
  | select _ ih => exact Rule.Keeps.select ih
  | oneOf _ ih => exact hInv.keeps_oneOf ih

end SolidityParser
