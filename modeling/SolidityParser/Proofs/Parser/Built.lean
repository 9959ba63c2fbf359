import SolidityParser.Proofs.Parser.Ledger
import SolidityParser.Proofs.Passages

/-!
# Parsers built from combinators

`Parser.Built known a p b` says that `p` is put together from the primitives and combinators of
`Grammar/Parser`, and that a run of it which starts with the ledger `a`, where the tokens ahead are
of the kinds `known`, and succeeds with `v`, ends with the ledger `b v`. `Rule.Built` says the same
of rules. Each rule of the grammar gets one lemma of this form; what holds of all rules is then
proved by one induction over the derivations, with one case per combinator.

The state of a run does not occur here: that the ledgers are right is proved later, from the
derivation.
-/

namespace SolidityParser

/-- The kinds of the tokens from an index on begin with those listed. -/
def Lexemes.Shows (lexemes : Lexemes) : Nat → List Kind → Prop
  | _, [] => True
  | i, k :: ks => lexemes.kindAt i = k ∧ lexemes.Shows (i + 1) ks

/-- A word and the token after it show their kinds. -/
theorem Lexemes.shows_word {lexemes : Lexemes} {i : Nat} {word : String} {k : Kind}
    (h : (lexemes.isWordAt i word && lexemes.kindAt (i + 1) == k) = true) :
    lexemes.Shows i [.ident, k] := by
  rw [Bool.and_eq_true, beq_iff_eq] at h
  exact ⟨kindAt_of_isWordAt h.1, h.2, trivial⟩

/-- A statement rule fails where a member begins. -/
def Rule.EndsAtMember {α : Type} (rule : Rule α) : Prop :=
  ∀ scope s, Grammar.atMember scope.lexemes s.position = true → (rule scope s).1.isOk = false

/-! ### Choices by the current token -/

/-- The rule of the parser that is chosen for the kind of the current token; where none is, it fails
at once, and reports nothing. -/
def Rule.select {α : Type} (choose : Kind → Option (Parser α)) : Rule α := fun scope s =>
  match choose (scope.lexemes.kindAt s.position) with
  | some p => Rule.ofParser p scope s
  | none => (.emptyErr ∅ s.position, s)

/-- A rule that is tried only at tokens of certain kinds; at others it fails at once, and reports
the kinds. -/
def Rule.oneOf {α : Type} (kinds : List Kind) (rule : Rule α) : Rule α := fun scope s =>
  if kinds.contains (scope.lexemes.kindAt s.position) then rule scope s
  else (.emptyErr (TokenSet.ofList kinds) s.position,
    { s with trail := kinds.foldl (fun trail k => trail.addToken s.position k) s.trail })

/-- A statement that a keyword or a brace begins is chosen by the kind of the current token. -/
theorem Grammar.keywordStatement_eq (inner : Inner) :
    keywordStatement inner = Rule.select (keywordStatement? inner) := by
  funext scope s
  unfold keywordStatement Rule.select
  cases keywordStatement? inner (scope.lexemes.kindAt s.position) <;> rfl

/-- A contract is tried only at the keywords that begin one. -/
theorem Grammar.contract_eq (inner : Inner) :
    contract inner =
      Rule.oneOf contractKeywords ((Rule.ofParser (contractBody inner)).within .contract) := rfl

/-! ### Rules that say what they consumed -/

/-- A rule that never succeeds with nothing consumed, going by what it says. -/
def Rule.Settles {α : Type} (rule : Rule α) : Prop :=
  ∀ scope s v, (rule scope s).1 ≠ .emptyOk v

namespace Rule.Settles

variable {α : Type} {k : Kind} {r : Rule α} {rs : List (Rule α)}

/-- A rule that takes a token says so. -/
theorem taking {p : Nat → String → Parser α} : Settles (Rule.taking p) := by
  intro scope s v
  unfold Rule.taking Rule.decided
  split <;> nofun

/-- A token that has to stand first changes nothing about what a rule says. -/
theorem opening (h : Settles r) : Settles (Rule.opening k r) := by
  intro scope s v
  unfold Rule.opening
  split
  · exact h scope s v
  · nofun

/-- A choice of nothing says nothing. -/
theorem none : Settles (Rule.firstOf ([] : List (Rule α))) := nofun

/-- A choice says what its rules say. -/
theorem orElse (h : Settles r) (hrs : Settles (Rule.firstOf rs)) :
    Settles (Rule.firstOf (r :: rs)) := by
  intro scope s v
  have hfirst := h scope s
  unfold Rule.firstOf
  cases hr : r scope s with
  | mk outcome t =>
    rw [hr] at hfirst
    cases outcome with
    | consumedOk w | emptyOk w | consumedErr fault => exact hfirst v
    | emptyErr expected position =>
      have hothers := hrs scope { t with position := s.position } v
      dsimp only
      cases hr' : Rule.firstOf rs scope { t with position := s.position } with
      | mk outcome u =>
        rw [hr'] at hothers
        cases outcome <;> first | exact hothers | nofun

end Rule.Settles

/-! ### Derivations -/

/-- A parser or a rule. -/
inductive Phrase (α : Type)
  | parser (p : Parser α)
  | rule (r : Rule α)

/-- How a parser or a rule is put together, and what a run of it enters in a ledger. -/
inductive Phrase.Built : {α : Type} → List Kind → Ledger → Phrase α → (α → Ledger) → Prop
  | pure {α : Type} {known : List Kind} {a : Ledger} {b : α → Ledger} {v : α} (h : b v = a) :
      Phrase.Built known a (.parser (pure v)) b
  | fail {α : Type} {known : List Kind} {a : Ledger} {b : α → Ledger} :
      Phrase.Built known a (.parser Parser.fail) b
  | weaken {α : Type} {known : List Kind} {a : Ledger} {p : Parser α} {b : α → Ledger}
      (h : Phrase.Built [] a (.parser p) b) : Phrase.Built known a (.parser p) b
  | bind {α β : Type} {known : List Kind} {a : Ledger} {p : Parser α} {m : α → Ledger}
      {f : α → Parser β} {b : β → Ledger} (first : Phrase.Built known a (.parser p) m)
      (rest : ∀ v, Phrase.Built [] (m v) (.parser (f v)) b) :
      Phrase.Built known a (.parser (p >>= f)) b
  /-- Something is asked of the input, and nothing is consumed. -/
  | look {α β : Type} {known : List Kind} {a : Ledger} (read : Lexemes → Nat → α)
      {f : α → Parser β} {b : β → Ledger} (rest : ∀ v, Phrase.Built known a (.parser (f v)) b) :
      Phrase.Built known a
        (.parser ((fun scope s => .ok (read scope.lexemes s.position) s : Parser α) >>= f)) b
  | kind {β : Type} {known : List Kind} {a : Ledger} {f : Kind → Parser β} {b : β → Ledger}
      (rest : ∀ k, Phrase.Built (k :: known.tail) a (.parser (f k)) b) :
      Phrase.Built known a (.parser (Parser.kind >>= f)) b
  | kindAhead {β : Type} {k : Kind} {a : Ledger} {f : Kind → Parser β} {b : β → Ledger}
      (rest : ∀ k', Phrase.Built [k, k'] a (.parser (f k')) b) :
      Phrase.Built [k] a (.parser (Parser.kindAhead 1 >>= f)) b
  | isWord {β : Type} {known : List Kind} {a : Ledger} {word : String} {f : Bool → Parser β}
      {b : β → Ledger} (hit : Phrase.Built [.ident] a (.parser (f true)) b)
      (miss : Phrase.Built known a (.parser (f false)) b) :
      Phrase.Built known a (.parser (Parser.isWord word >>= f)) b
  /-- A token is reported where another stands. -/
  | reportToken {β : Type} {here k : Kind} {known : List Kind} {a : Ledger} {f : Unit → Parser β}
      {b : β → Ledger} (miss : here ≠ k)
      (rest : Phrase.Built (here :: known) a (.parser (f ())) b) :
      Phrase.Built (here :: known) a (.parser (Parser.reportToken k >>= f)) b
  | reportRule {β : Type} {rule : RuleName} {known : List Kind} {a : Ledger} {f : Unit → Parser β}
      {b : β → Ledger} (rest : Phrase.Built known a (.parser (f ())) b) :
      Phrase.Built known a (.parser (Parser.reportRule rule >>= f)) b
  | advance {β : Type} {k : Kind} {known : List Kind} {a c : Ledger} {f : Unit → Parser β}
      {b : β → Ledger} (h : a.after? k = some c) (rest : Phrase.Built known c (.parser (f ())) b) :
      Phrase.Built (k :: known) a (.parser (Parser.advance >>= f)) b
  | within {α : Type} {known : List Kind} {a : Ledger} {p : Parser α} {b : α → Ledger}
      (construct : Construct) (h : Phrase.Built known a (.parser p) b) :
      Phrase.Built known a (.parser (p.within construct)) b
  | named {α : Type} {known : List Kind} {a : Ledger} {p : Parser α} {b : α → Ledger}
      (rule : RuleName) (h : Phrase.Built known a (.parser p) b) :
      Phrase.Built known a (.parser (p.named rule)) b
  | inBody {α : Type} {known : List Kind} {a : Ledger} {p : Parser α} {b : α → Ledger}
      (h : Phrase.Built known a (.parser p) b) : Phrase.Built known a (.parser p.inBody) b
  | finish {α : Type} {known : List Kind} {a : Ledger} {r : Rule α} {b : α → Ledger}
      {construct : Option Construct} (h : Phrase.Built known a (.rule r) b) :
      Phrase.Built known a (.parser (r.finishIn construct)) b
  /-- A loop whose step leaves the ledger as it is. -/
  | iterate {β : Type} {known : List Kind} {a : Ledger} {step : β → Parser (Option β)} {v : β}
      (h : ∀ v, Phrase.Built [] a (.parser (step v)) fun _ => a) :
      Phrase.Built known a (.parser (Parser.iterate step v)) fun _ => a
  | separated {α : Type} {known : List Kind} {a : Ledger} {item : Parser α}
      (h : Phrase.Built [] a (.parser item) fun _ => a) :
      Phrase.Built known a (.parser (Parser.separated item)) fun _ => a
  | collect {α : Type} {known : List Kind} {a c : Ledger} {step : Parser (Option α)}
      (passages : α → List Extent)
      (h : ∀ ps, Phrase.Built [] (a.note ps) (.parser step) (a.round c passages ps)) :
      Phrase.Built known a (.parser (Parser.collect step)) fun vs => c.note (vs.flatMap passages)
  | block {known : List Kind} {a : Ledger} {statement : Rule (Statement .parsed)}
      (h : ∀ a, Phrase.Built [] a (.rule statement) fun v => a.note v.passages)
      (ends : statement.EndsAtMember) :
      Phrase.Built known a (.parser (Grammar.block statement)) fun v => a.note v.passages
  /-- Braces that are matched without reading what is between. -/
  | unread {β : Type} {known : List Kind} {a : Ledger} {f : Extent → Parser β} {b : β → Ledger}
      (rest : ∀ body, Phrase.Built [] (a.note [body]) (.parser (f body)) b) :
      Phrase.Built known a
        (.parser (do
          let opening ← Parser.position
          Parser.expect .lbrace
          Grammar.skipBraces
          let body ← Parser.extentFrom opening
          f body)) b
  | ofParser {α : Type} {known : List Kind} {a : Ledger} {p : Parser α} {b : α → Ledger}
      (h : Phrase.Built known a (.parser p) b) : Phrase.Built known a (.rule (Rule.ofParser p)) b
  | taking {α : Type} {k : Kind} {known : List Kind} {a c : Ledger} {p : Nat → String → Parser α}
      {b : α → Ledger} (h : a.after? k = some c)
      (rest : ∀ i word, Phrase.Built known c (.parser (p i word)) b) :
      Phrase.Built (k :: known) a (.rule (Rule.taking p)) b
  | opening {α : Type} {known : List Kind} {a : Ledger} {k : Kind} {r : Rule α} {b : α → Ledger}
      (h : Phrase.Built [k] a (.rule r) b) : Phrase.Built known a (.rule (Rule.opening k r)) b
  /-- A parser that settles the choice comes after a rule that says what it consumed. -/
  | followedBy {α β : Type} {known : List Kind} {a : Ledger} {r : Rule α} {m : α → Ledger}
      {p : Nat → α → Parser β} {b : β → Ledger} (settles : r.Settles)
      (first : Phrase.Built known a (.rule r) m)
      (rest : ∀ i v, Phrase.Built [] (m v) (.parser (p i v)) b) :
      Phrase.Built known a (.rule (r.followedBy fun i v => Rule.decided (p i v))) b
  | provided {α : Type} {known known' : List Kind} {a : Ledger} {test : Lexemes → Nat → Bool}
      {r : Rule α} {b : α → Ledger}
      (shows : ∀ lexemes i, test lexemes i = true → lexemes.Shows i known')
      (h : Phrase.Built known' a (.rule r) b) : Phrase.Built known a (.rule (r.provided test)) b
  | ruleMap {α β : Type} {known : List Kind} {a : Ledger} {r : Rule α} {f : α → β} {b : β → Ledger}
      (h : Phrase.Built known a (.rule r) fun v => b (f v)) :
      Phrase.Built known a (.rule (r.map f)) b
  | ruleWithin {α : Type} {known : List Kind} {a : Ledger} {r : Rule α} {b : α → Ledger}
      (construct : Construct) (h : Phrase.Built known a (.rule r) b) :
      Phrase.Built known a (.rule (r.within construct)) b
  | ruleNamed {α : Type} {known : List Kind} {a : Ledger} {r : Rule α} {b : α → Ledger}
      (name : RuleName) (h : Phrase.Built known a (.rule r) b) :
      Phrase.Built known a (.rule (r.named name)) b
  | attempt {α : Type} {known : List Kind} {a : Ledger} {r : Rule α} {b : α → Ledger}
      (h : Phrase.Built known a (.rule r) b) : Phrase.Built known a (.rule r.attempt) b
  | none {α : Type} {known : List Kind} {a : Ledger} {b : α → Ledger} :
      Phrase.Built known a (.rule (Rule.firstOf [])) b
  | orElse {α : Type} {known : List Kind} {a : Ledger} {r : Rule α} {rs : List (Rule α)}
      {b : α → Ledger} (first : Phrase.Built known a (.rule r) b)
      (others : Phrase.Built known a (.rule (Rule.firstOf rs)) b) :
      Phrase.Built known a (.rule (Rule.firstOf (r :: rs))) b
  | select {α : Type} {known : List Kind} {a : Ledger} {choose : Kind → Option (Parser α)}
      {b : α → Ledger} (h : ∀ k p, choose k = some p → Phrase.Built [k] a (.parser p) b) :
      Phrase.Built known a (.rule (Rule.select choose)) b
  | oneOf {α : Type} {known kinds : List Kind} {a : Ledger} {r : Rule α} {b : α → Ledger}
      (h : Phrase.Built known a (.rule r) b) : Phrase.Built known a (.rule (Rule.oneOf kinds r)) b

/-- How a parser is put together. -/
abbrev Parser.Built {α : Type} (known : List Kind) (a : Ledger) (p : Parser α) (b : α → Ledger) :
    Prop :=
  Phrase.Built known a (.parser p) b

/-- How a rule is put together. -/
abbrev Rule.Built {α : Type} (known : List Kind) (a : Ledger) (r : Rule α) (b : α → Ledger) :
    Prop :=
  Phrase.Built known a (.rule r) b

/-! ### Derived forms -/

namespace Phrase.Built

variable {α β : Type} {known : List Kind} {a c : Ledger} {k : Kind} {p q : Parser α}
  {b : α → Ledger} {f : α → Parser β} {d : β → Ledger}

/-- The derivation for another ledger at the end, equal to its own. -/
theorem congr {phrase : Phrase α} {b' : α → Ledger} (h : Phrase.Built known a phrase b)
    (hb : ∀ v, b v = b' v) : Phrase.Built known a phrase b' := by
  rwa [← show b = b' from funext hb]

/-- A value is given. -/
theorem done {v : α} : Parser.Built known a (Pure.pure v) fun _ => a := .pure rfl

/-- The position can be asked for anywhere. -/
theorem position {f : Nat → Parser β} (rest : ∀ i, Parser.Built known a (f i) d) :
    Parser.Built known a (Parser.position >>= f) d := .look (fun _ i => i) rest

/-- So can the text of a token. -/
theorem text {f : String → Parser β} (rest : ∀ word, Parser.Built known a (f word) d) :
    Parser.Built known a (Parser.text >>= f) d := .look (fun lexemes i => lexemes.textAt i) rest

/-- So can the extent since a token. -/
theorem extentFrom {first : Nat} {f : Extent → Parser β}
    (rest : ∀ extent, Parser.Built known a (f extent) d) :
    Parser.Built known a (Parser.extentFrom first >>= f) d :=
  .look (fun _ i => Extent.mk first i) rest

/-- A token further on is looked at, which tells nothing about the current one. -/
theorem lookAhead {n : Nat} {f : Kind → Parser β} (rest : ∀ k', Parser.Built known a (f k') d) :
    Parser.Built known a (Parser.kindAhead n >>= f) d :=
  .look (fun lexemes i => lexemes.kindAt (i + n)) rest

/-- A condition decides between two parsers. -/
theorem ite {test : Prop} [Decidable test] (yes : test → Parser.Built known a p b)
    (no : ¬ test → Parser.Built known a q b) :
    Parser.Built known a (if test then p else q) b := by
  by_cases h : test
  · rw [if_pos h]; exact yes h
  · rw [if_neg h]; exact no h

/-- A condition decides between two parsers, and the same follows either. -/
theorem either {test : Prop} [Decidable test] (yes : test → Parser.Built known a p b)
    (no : ¬ test → Parser.Built known a q b) (rest : ∀ v, Parser.Built [] (b v) (f v) d) :
    Parser.Built known a (if test then p >>= f else q >>= f) d :=
  .ite (fun h => .bind (yes h) rest) fun h => .bind (no h) rest

/-- The kind of the current token decides between two parsers. -/
theorem kindIf (hit : Parser.Built (k :: known.tail) a p b) (miss : Parser.Built [] a q b) :
    Parser.Built known a (Parser.kind >>= fun here => if here = k then p else q) b :=
  .kind fun _ => .ite (fun h => h ▸ hit) fun _ => .weaken miss

/-- The kind of the current token decides between two parsers, and the same follows either. -/
theorem kindEither (hit : Parser.Built (k :: known.tail) a p b) (miss : Parser.Built [] a q b)
    (rest : ∀ v, Parser.Built [] (b v) (f v) d) :
    Parser.Built known a (Parser.kind >>= fun here => if here = k then p >>= f else q >>= f) d :=
  .kindIf (.bind hit rest) (.bind miss rest)

/-- The value is put through a function. -/
theorem map {g : α → β} (h : Parser.Built known a p fun v => d (g v)) :
    Parser.Built known a (g <$> p) d := by
  rw [← bind_pure_comp]
  exact .bind h fun v => .pure rfl

/-- A token that is known may be consumed at the end. -/
theorem advance_last (h : a.after? k = some c) :
    Parser.Built (k :: known) a Parser.advance fun _ => c := by
  rw [← bind_pure Parser.advance]
  exact .advance h .done

/-- A look at a token makes it known, if it is there. -/
theorem check {f : Bool → Parser β} (hit : Parser.Built (k :: known.tail) a (f true) d)
    (miss : Parser.Built [] a (f false) d) :
    Parser.Built known a (Parser.check k >>= f) d := by
  unfold Parser.check
  rw [bind_assoc]
  refine .kind fun here => ?_
  split_ifs with h
  · rw [pure_bind]
    exact h ▸ hit
  · rw [bind_assoc]
    refine .reportToken h ?_
    rw [pure_bind]
    exact .weaken miss

/-- A token is expected, and entered in the ledger. -/
theorem expect (h : a.after? k = some c) : Parser.Built known a (Parser.expect k) fun _ => c :=
  .check (by rw [if_pos rfl]; exact .advance_last h) .fail

/-- Where it is there it is consumed. -/
theorem eat {f : Bool → Parser β} (h : a.after? k = some c)
    (hit : Parser.Built [] c (f true) d) (miss : Parser.Built [] a (f false) d) :
    Parser.Built known a (Parser.eat k >>= f) d := by
  unfold Parser.eat
  rw [bind_assoc]
  refine .check ?_ ?_
  · rw [if_pos rfl, bind_assoc]
    refine .advance h ?_
    rw [pure_bind]
    exact .weaken hit
  · rw [if_neg Bool.false_ne_true, pure_bind]
    exact miss

/-- A token that may stand here decides between two parsers. -/
theorem eatIf (h : a.after? k = some c) (hit : Parser.Built [] c p b)
    (miss : Parser.Built [] a q b) :
    Parser.Built known a (Parser.eat k >>= fun found => if found = true then p else q) b :=
  .eat h (by rwa [if_pos rfl]) (by rwa [if_neg Bool.false_ne_true])

/-- A token that may stand here decides between two parsers, and the same follows either. -/
theorem eatEither (h : a.after? k = some c) (hit : Parser.Built [] c p b)
    (miss : Parser.Built [] a q b) (rest : ∀ v, Parser.Built [] (b v) (f v) d) :
    Parser.Built known a
      (Parser.eat k >>= fun found => if found = true then p >>= f else q >>= f) d :=
  .eatIf h (.bind hit rest) (.bind miss rest)

/-- A token that is no bracket may stand here. -/
theorem eat_plain (h : a.after? k = some a) : Parser.Built known a (Parser.eat k) fun _ => a := by
  rw [← bind_pure (Parser.eat k)]
  exact .eat h .done .done

/-- Items with commas between, up to the bracket that closes them. -/
theorem series {item : Parser α} (h : a.after? k = some c)
    (hi : Parser.Built [] a item fun _ => a) :
    Parser.Built known a (Parser.series k item) fun _ => c :=
  .eatIf h .done <| .bind (.separated hi) fun _ => .bind (.expect h) fun _ => .done

/-- A test that tells nothing the rule relies on. -/
theorem tried {r : Rule α} {test : Lexemes → Nat → Bool} (h : Rule.Built [] a r b) :
    Rule.Built known a (r.provided test) b :=
  have shows : ∀ lexemes i, test lexemes i = true → lexemes.Shows i [] := fun _ _ _ => trivial
  .provided shows h

end Phrase.Built

end SolidityParser
