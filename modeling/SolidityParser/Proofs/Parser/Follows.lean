import SolidityParser.Proofs.Parser.Ensures

/-!
# Runs follow their ledgers

A run that succeeds consumes what the ledgers of its derivation say: `Phrase.Built.follows` turns a
derivation into a `Run` for every successful run, in any scope. Where broken statements are skipped,
what is skipped closes no brace that it did not open (`skipIncomplete_braced`), and an assembly body
ends at the brace that closes it (`skipBraces_braced`).
-/

namespace SolidityParser

open Grammar

/-! ### Skipping -/

section Skipping

variable {α : Type} {statement : Rule α} {scope : Scope} {s t : ParseState}

/-- One more token changes the number of open braces as it does in a run. -/
theorem Grammar.OpenBrackets.braces_after (brackets : OpenBrackets) (k : Kind) :
    (brackets.after k).braces = k.bracesAfter brackets.braces := by
  cases k <;> rfl

/-- Skipping stops only outside of braces or at the end of the input, and stops there before a
closing brace. -/
theorem resumes_run (statement : Rule α) (scope : Scope) (s : ParseState) (last : Kind)
    (brackets : OpenBrackets) :
    ∃ verdict, resumes statement last brackets scope s = .ok verdict s ∧
      (verdict = true → brackets.braces = 0 ∨ scope.lexemes.kindAt s.position = .eof) ∧
      (verdict = false → scope.lexemes.kindAt s.position ≠ .eof ∧
        (scope.lexemes.kindAt s.position = .rbrace → 0 < brackets.braces)) := by
  unfold resumes
  dsimp only
  split_ifs with hopen hstop hparse
  · refine ⟨_, rfl, fun h => .inr (eq_of_beq h), fun h => ⟨fun he => ?_, fun _ => hopen⟩⟩
    rw [he] at h
    cases h
  · exact ⟨true, rfl, fun _ => .inl (by omega), nofun⟩
  · simp only [not_or] at hstop
    exact ⟨_, rfl, fun _ => .inl (by omega), fun _ => ⟨hstop.2.1, fun h => absurd h hstop.1⟩⟩
  · simp only [not_or] at hstop
    exact ⟨false, rfl, nofun, fun _ => ⟨hstop.2.1, fun h => absurd h hstop.1⟩⟩

/-- One token is skipped, and then it is decided whether to stop. -/
theorem skipToken_run (statement : Rule α) (brackets : OpenBrackets)
    (h : scope.lexemes.kindAt s.position ≠ .eof) :
    ∃ next, skipToken statement brackets scope s =
        .ok next { s with position := s.position + 1 } ∧
      match next with
      | none => (scope.lexemes.kindAt s.position).bracesAfter brackets.braces = 0 ∨
          scope.lexemes.kindAt (s.position + 1) = .eof
      | some brackets' =>
        brackets'.braces = (scope.lexemes.kindAt s.position).bracesAfter brackets.braces ∧
          scope.lexemes.kindAt (s.position + 1) ≠ .eof ∧
          (scope.lexemes.kindAt (s.position + 1) = .rbrace → 0 < brackets'.braces) := by
  obtain ⟨verdict, hrun, hstop, hgo⟩ := resumes_run statement scope
    { s with position := s.position + 1 } (scope.lexemes.kindAt s.position)
    (brackets.after (scope.lexemes.kindAt s.position))
  refine ⟨if verdict = true then none
    else some (brackets.after (scope.lexemes.kindAt s.position)), ?_, ?_⟩
  · unfold skipToken
    rw [Parser.bind_of_ok (show Parser.kind scope s = .ok _ s from rfl),
      Parser.bind_of_ok (Parser.advance_run h), Parser.bind_of_ok hrun]
    cases verdict <;> rfl
  · have hbraces := OpenBrackets.braces_after brackets (scope.lexemes.kindAt s.position)
    cases verdict with
    | true => exact hbraces ▸ hstop rfl
    | false => exact ⟨hbraces, hgo rfl⟩

/-- What is skipped closes no brace that it did not open. -/
theorem skipAtFuel_braced :
    (fuel : Nat) → ∀ {brackets : OpenBrackets} {s : ParseState},
      skipAtFuel statement fuel brackets scope s = .ok () t →
      scope.lexemes.kindAt s.position ≠ .eof →
      (scope.lexemes.kindAt s.position = .rbrace → 0 < brackets.braces) →
      Braced scope.lexemes brackets.braces s.position t.position
  | 0, _, _, h, _, _ => by cases h
  | fuel + 1, brackets, s, h, hne, hopen => by
    obtain ⟨next, hrun, hnext⟩ := skipToken_run statement brackets hne
    unfold skipAtFuel at h
    rw [Parser.bind_of_ok hrun] at h
    refine .step hne hopen ?_
    cases next with
    | none =>
      cases h
      exact .stop hnext
    | some brackets' =>
      obtain ⟨hbraces, hne', hopen'⟩ := hnext
      rw [← hbraces]
      exact skipAtFuel_braced fuel h hne' hopen'

/-- Of a statement that is skipped, the first token is no closing brace. -/
theorem skipIncomplete_braced {skipped : Extent}
    (hrun : skipIncomplete statement scope s = .ok (some skipped) t)
    (h : scope.lexemes.kindAt s.position ≠ .rbrace) :
    Braced scope.lexemes 0 s.position t.position := by
  unfold skipIncomplete at hrun
  rw [Parser.bind_of_ok (show Parser.kind scope s = .ok _ s from rfl)] at hrun
  split at hrun
  · cases hrun
  · rename_i hne
    rw [Parser.bind_of_ok (show Parser.position scope s = .ok _ s from rfl),
      Parser.bind_of_ok (show Parser.budget scope s = .ok _ s from rfl)] at hrun
    obtain ⟨_, u, hskip, hrun⟩ := Parser.bind_eq_ok hrun
    cases hrun
    exact skipAtFuel_braced _ hskip hne fun he => absurd he h

end Skipping

section Braces

variable {scope : Scope} {s t u : ParseState}

/-- The step of the loop that matches braces, at a number of open ones. -/
def braceStep (depth : Nat) : Parser (Option Nat) := do
  if depth = 0 then return none
  match ← Parser.kind with
  | .eof =>
    Parser.reportToken .rbrace
    Parser.fail
  | .lbrace =>
    Parser.advance
    return some (depth + 1)
  | .rbrace =>
    Parser.advance
    return some (depth - 1)
  | _ =>
    Parser.advance
    return some depth

/-- To pass what is in braces is to go round, with the number of open braces. -/
theorem skipBraces_eq : skipBraces = (Parser.iterate braceStep 1 >>= fun _ => pure ()) := rfl

/-- The loop stops where no brace is open; before, it consumes a token. -/
theorem braceStep_eq_ok {depth : Nat} {next : Option Nat}
    (h : braceStep depth scope s = .ok next u) :
    (depth = 0 ∧ next = none ∧ u = s) ∨
      (0 < depth ∧ scope.lexemes.kindAt s.position ≠ .eof ∧
        next = some ((scope.lexemes.kindAt s.position).bracesAfter depth) ∧
        u = { s with position := s.position + 1 }) := by
  unfold braceStep at h
  split at h
  · rename_i hdepth
    cases h
    exact .inl ⟨hdepth, rfl, rfl⟩
  · rename_i hdepth
    rw [Parser.bind_of_ok (show Parser.kind scope s = .ok _ s from rfl)] at h
    have hne : scope.lexemes.kindAt s.position ≠ .eof := by
      intro he
      rw [he] at h
      cases h
    have hrun : ∀ n : Nat, (Parser.advance >>= fun _ => pure (some n)) scope s =
        .ok (some n) { s with position := s.position + 1 } :=
      fun n => Parser.bind_of_ok (Parser.advance_run hne)
    refine .inr ⟨Nat.pos_of_ne_zero hdepth, hne, ?_⟩
    generalize scope.lexemes.kindAt s.position = k at h hne
    split at h
    · exact absurd rfl hne
    · rw [hrun] at h; cases h; exact ⟨rfl, rfl⟩
    · rw [hrun] at h; cases h; exact ⟨rfl, rfl⟩
    · rename_i hl hr
      rw [hrun] at h
      cases h
      refine ⟨?_, rfl⟩
      cases k <;> first | rfl | exact absurd rfl hl | exact absurd rfl hr

/-- The tokens of an assembly body end with the brace that closes it. -/
theorem skipBraces_braced (h : skipBraces scope s = .ok () t) :
    Braced scope.lexemes 1 s.position t.position := by
  have loop : ∀ fuel depth v {s : ParseState},
      Parser.iterateAtFuel braceStep fuel depth scope s = .ok v t →
      Braced scope.lexemes depth s.position t.position := by
    intro fuel
    induction fuel with
    | zero => intro depth v s h; cases h
    | succ fuel ih =>
      intro depth v s h
      obtain ⟨next, u, hstep, hrest⟩ := Parser.bind_eq_ok h
      rcases braceStep_eq_ok hstep with ⟨hdepth, rfl, rfl⟩ | ⟨hdepth, hne, rfl, rfl⟩
      · cases hrest
        exact .stop (.inl hdepth)
      · exact .step hne (fun _ => hdepth) (ih _ v hrest)
  rw [skipBraces_eq] at h
  obtain ⟨v, u, h, hdone⟩ := Parser.bind_eq_ok h
  cases hdone
  exact loop _ 1 v h

end Braces

/-! ### Parsers -/

namespace Parser

/-- A successful run of the parser takes the ledger `a` to that of its value. -/
abbrev Follows {α : Type} (known : List Kind) (a : Ledger) (p : Parser α) (b : α → Ledger) :
    Prop :=
  p.Ensures known fun lexemes tolerant i v j => Run lexemes tolerant a i (b v) j

namespace Follows

variable {α β : Type} {known : List Kind} {a c : Ledger} {p : Parser α} {b : α → Ledger}
  {f : α → Parser β} {d : β → Ledger}

protected theorem pure {v : α} (h : b v = a) : Follows known a (pure v) b := by
  intro scope s t w _ hrun
  cases hrun
  rw [h]
  exact .refl a _

/-- The second part takes the ledger from where the first has taken it. -/
theorem bind {m : α → Ledger} (hp : Follows known a p m)
    (hf : ∀ v, Follows [] (m v) (f v) d) : Follows known a (p >>= f) d :=
  Ensures.bind hp hf .trans

/-- What is asked of the input may tell more about the tokens ahead. -/
theorem look (known' : α → List Kind) (read : Scope → ParseState → α)
    (shows : ∀ (scope : Scope) (s : ParseState), scope.lexemes.Shows s.position known →
      scope.lexemes.Shows s.position (known' (read scope s)))
    (hf : ∀ v, Follows (known' v) a (f v) d) :
    Follows known a ((fun scope s => .ok (read scope s) s : Parser α) >>= f) d := by
  intro scope s t w hshows hrun
  exact hf _ scope s t w (shows scope s hshows) hrun

/-- The next token becomes known. -/
theorem kind {f : Kind → Parser β} (hf : ∀ k, Follows (k :: known.tail) a (f k) d) :
    Follows known a (Parser.kind >>= f) d :=
  look (fun k => k :: known.tail) (fun scope s => scope.lexemes.kindAt s.position)
    (fun scope s hshows => by
      cases known with
      | nil => exact ⟨rfl, trivial⟩
      | cons k ks => exact ⟨rfl, hshows.2⟩) hf

/-- So does the one after it. -/
theorem kindAhead {k : Kind} {f : Kind → Parser β} (hf : ∀ k', Follows [k, k'] a (f k') d) :
    Follows [k] a (Parser.kindAhead 1 >>= f) d :=
  look (fun k' => [k, k']) (fun scope s => scope.lexemes.kindAt (s.position + 1))
    (fun _ _ hshows => ⟨hshows.1, rfl, trivial⟩) hf

/-- A word is an identifier. -/
theorem isWord {word : String} {f : Bool → Parser β} (hit : Follows [.ident] a (f true) d)
    (miss : Follows known a (f false) d) : Follows known a (Parser.isWord word >>= f) d := by
  intro scope s t w hshows hrun
  rw [bind_of_ok (show Parser.isWord word scope s =
    .ok (scope.lexemes.isWordAt s.position word) s from rfl)] at hrun
  cases hword : scope.lexemes.isWordAt s.position word with
  | true =>
    rw [hword] at hrun
    exact hit scope s t w ⟨Lexemes.kindAt_of_isWordAt hword, trivial⟩ hrun
  | false =>
    rw [hword] at hrun
    exact miss scope s t w hshows hrun

/-- What is put on record leaves the ledger as it is. -/
theorem report (change : Nat → Trail → Trail) {f : Unit → Parser β}
    (hf : Follows known a (f ()) d) :
    Follows known a
      ((fun _ s => .ok () { s with trail := change s.position s.trail } : Parser Unit) >>= f)
      d := by
  intro scope s t w hshows hrun
  exact hf scope { s with trail := change s.position s.trail } t w hshows hrun

/-- The token that is consumed is known, and taken by the ledger. -/
theorem advance {k : Kind} {f : Unit → Parser β} (h : a.after? k = some c)
    (hf : Follows known c (f ()) d) : Follows (k :: known) a (Parser.advance >>= f) d := by
  intro scope s t w hshows hrun
  have hne : scope.lexemes.kindAt s.position ≠ .eof := by
    rw [hshows.1]
    exact Ledger.ne_eof_of_after? h
  rw [bind_of_ok (advance_run hne)] at hrun
  exact (Run.take (by rw [hshows.1]; exact h)).trans (hf scope _ t w hshows.2 hrun)

/-- So is one that is expected. -/
theorem expect {k : Kind} (h : a.after? k = some c) :
    Follows known a (Parser.expect k) fun _ => c := by
  intro scope s t v _ hrun
  obtain ⟨hk, rfl⟩ := expect_eq_ok (Ledger.ne_eof_of_after? h) hrun
  exact .take (by rw [hk]; exact h)

/-! ### Loops -/

/-- A loop is entered with the number of tokens left. -/
theorem budget {f : Nat → Parser β} (hf : ∀ fuel, Follows [] a (f fuel) d) :
    Follows known a (Parser.budget >>= f) d :=
  look (fun _ => []) (fun scope s => scope.lexemes.size - s.position + 1)
    (fun _ _ _ => trivial) hf

/-- A loop leaves the ledger as it was, if its rounds do. -/
theorem iterate {step : β → Parser (Option β)} {value : β}
    (h : ∀ v, Follows [] a (step v) fun _ => a) :
    Follows known a (Parser.iterate step value) fun _ => a := by
  have loop : ∀ fuel v, Follows [] a (iterateAtFuel step fuel v) fun _ => a := by
    intro fuel
    induction fuel with
    | zero => exact fun _ => Ensures.fail
    | succ fuel ih =>
      refine fun v => Follows.bind (h v) fun next => ?_
      cases next with
      | none => exact Follows.pure rfl
      | some next => exact ih next
  exact budget fun fuel => loop fuel value

/-- So do items with commas between them. -/
theorem separated {item : Parser α} (h : Follows [] a item fun _ => a) :
    Follows known a (Parser.separated item) fun _ => a := by
  have heat : Follows [] a (Parser.eat .comma) fun _ => a := by
    intro scope s t v _ hrun
    by_cases hk : scope.lexemes.kindAt s.position = .comma
    · rw [eat_hit (by decide) hk] at hrun
      cases hrun
      exact .take (by rw [hk]; rfl)
    · rw [eat_miss hk] at hrun
      cases hrun
      exact .refl a _
  have loop : ∀ fuel, Follows [] a (separatedAtFuel item fuel) fun _ => a := by
    intro fuel
    induction fuel with
    | zero => exact Ensures.fail
    | succ fuel ih =>
      refine Follows.bind h fun v => Follows.bind heat fun more => ?_
      cases more with
      | false => exact Follows.pure rfl
      | true => exact Follows.bind ih fun vs => Follows.pure rfl
  exact budget loop

/-- A loop that ends with the token that closes it notes what its rounds have passed. -/
theorem collect {step : Parser (Option α)} (passages : α → List Extent)
    (h : ∀ ps, Follows [] (a.note ps) step (a.round c passages ps)) :
    Follows known a (Parser.collect step) fun vs => c.note (vs.flatMap passages) := by
  have loop : ∀ fuel ps, Follows [] (a.note ps) (collectAtFuel step fuel) fun vs =>
      c.note (ps ++ vs.flatMap passages) := by
    intro fuel
    induction fuel with
    | zero => exact fun _ => Ensures.fail
    | succ fuel ih =>
      refine fun ps => Follows.bind (h ps) fun next => ?_
      cases next with
      | none => exact Follows.pure (by rw [List.flatMap_nil, List.append_nil]; rfl)
      | some v =>
        refine Follows.bind (ih _) fun vs => Follows.pure ?_
        rw [List.flatMap_cons, List.append_assoc]
  refine budget fun fuel => ?_
  have hloop := loop fuel []
  rwa [Ledger.note_nil] at hloop

/-- Braces that are matched without reading what is between. -/
theorem unread {f : Extent → Parser β}
    (hf : ∀ body, Follows [] (a.note [body]) (f body) d) :
    Follows known a
      (do
        let opening ← Parser.position
        Parser.expect .lbrace
        skipBraces
        let body ← Parser.extentFrom opening
        f body) d := by
  intro scope s t w _ hrun
  rw [bind_of_ok (show Parser.position scope s = .ok _ s from rfl)] at hrun
  obtain ⟨_, u, hopen, hrun⟩ := bind_eq_ok hrun
  obtain ⟨hk, rfl⟩ := expect_eq_ok (by decide) hopen
  obtain ⟨_, u, hskip, hrun⟩ := bind_eq_ok hrun
  rw [bind_of_ok (show Parser.extentFrom s.position scope u = .ok _ u from rfl)] at hrun
  exact (Run.unread hk (skipBraces_braced hskip)).trans (hf _ scope u t w trivial hrun)

end Follows

end Parser

/-! ### Rules -/

namespace Rule

/-- A successful run of the rule takes the ledger `a` to that of its value. -/
abbrev Follows {α : Type} (known : List Kind) (a : Ledger) (r : Rule α) (b : α → Ledger) : Prop :=
  r.Ensures known fun lexemes tolerant i v j => Run lexemes tolerant a i (b v) j

end Rule

/-! ### Blocks -/

namespace Parser.Follows

variable {known : List Kind} {a : Ledger} {statement : Rule (Statement .parsed)}

/-- What stands for a statement of a block follows the statement, or is skipped. -/
theorem statementOrSkipped {scope : Scope} {s t : ParseState} {v : Statement .parsed}
    (h : statement.Follows [] a fun v => a.note v.passages)
    (hrun : Grammar.statementOrSkipped statement scope s = .ok v t)
    (hs : scope.lexemes.kindAt s.position ≠ .rbrace) :
    Run scope.lexemes scope.tolerant a s.position (a.note v.passages) t.position := by
  unfold Grammar.statementOrSkipped at hrun
  split at hrun
  · cases hrun
    exact Ensures.finish h scope s _ _ trivial ‹_›
  · split at hrun
    · rename_i hrec
      split at hrun
      · rename_i skipped u hskip
        cases hrun
        have htolerant : scope.tolerant = true := by
          unfold Scope.recovers at hrec
          rw [Bool.and_eq_true, Bool.and_eq_true] at hrec
          exact hrec.1.1
        have hnote : a.note (Statement.passages (.incomplete skipped)) = a := Ledger.note_nil a
        rw [hnote]
        have hbraced := skipIncomplete_braced hskip hs
        exact .skip htolerant hbraced
      · cases hrun
      · cases hrun
    · cases hrun

/-- A round of a block notes the passages of a statement, or takes the brace that closes the
block. -/
theorem blockItem (h : ∀ a, statement.Follows [] a fun v => a.note v.passages)
    (ps : List Extent) :
    Follows [] ((a.owe .rbrace).note ps) (Grammar.blockItem statement)
      ((a.owe .rbrace).round a Statement.passages ps) := by
  intro scope s t v _ hrun
  unfold Grammar.blockItem at hrun
  by_cases hk : scope.lexemes.kindAt s.position = .rbrace
  · rw [bind_of_ok (eat_hit (by decide) hk)] at hrun
    cases hrun
    exact .take (by rw [hk]; rfl)
  · rw [bind_of_ok (eat_miss hk), if_neg Bool.false_ne_true] at hrun
    obtain ⟨cut, u, hcut, hrun⟩ := bind_eq_ok hrun
    cases hcut
    split at hrun
    · rename_i hcut
      cases hrun
      unfold Scope.recovers at hcut
      simp only [Bool.and_eq_true] at hcut
      exact Run.cut (a := a.note ps) hcut.1.1.1 hcut.2
    · obtain ⟨w, u, hitem, hrun⟩ := bind_eq_ok hrun
      cases hrun
      have hstatement := statementOrSkipped (h ((a.owe .rbrace).note ps)) hitem hk
      rwa [Ledger.note_note] at hstatement

/-- A block notes the passages of its statements. -/
theorem block (h : ∀ a, statement.Follows [] a fun v => a.note v.passages) :
    Follows known a (Grammar.block statement) fun v => a.note v.passages := by
  refine look (fun _ => []) (fun _ s => s.position) (fun _ _ _ => trivial) fun start =>
    .bind (expect rfl) fun _ =>
    .bind (collect Statement.passages fun ps => blockItem h ps) fun body => ?_
  refine look (fun _ => []) (fun _ s => Extent.mk start s.position) (fun _ _ _ => trivial)
    fun place => .pure ?_
  rw [Block.passages, Statement.passagesList_eq_flatMap]

end Parser.Follows

/-! ### Everything that is built -/

/-- The ledgers of a parser or a rule are followed. -/
abbrev Phrase.Follows {α : Type} (known : List Kind) (a : Ledger) (phrase : Phrase α)
    (b : α → Ledger) : Prop :=
  match phrase with
  | .parser p => p.Follows known a b
  | .rule r => r.Follows known a b

/-- What is built from combinators follows the ledgers of its derivation. -/
theorem Phrase.Built.follows {α : Type} {known : List Kind} {a : Ledger} {phrase : Phrase α}
    {b : α → Ledger} (h : Phrase.Built known a phrase b) : phrase.Follows known a b := by
  induction h with
  | pure h => exact Parser.Follows.pure h
  | fail => exact Parser.Ensures.fail
  | weaken _ ih => exact Parser.Ensures.weaken ih
  | bind _ _ ih ih' => exact Parser.Follows.bind ih ih'
  | @look _ _ known _ read _ _ _ ih =>
    exact Parser.Follows.look (fun _ => known) (fun scope s => read scope.lexemes s.position)
      (fun _ _ hshows => hshows) ih
  | kind _ ih => exact Parser.Follows.kind ih
  | kindAhead _ ih => exact Parser.Follows.kindAhead ih
  | isWord _ _ ih ih' => exact Parser.Follows.isWord ih ih'
  | reportToken _ _ ih => exact Parser.Follows.report (fun i trail => trail.addToken i _) ih
  | reportRule _ ih => exact Parser.Follows.report (fun i trail => trail.addRule i _) ih
  | advance h _ ih => exact Parser.Follows.advance h ih
  | within _ _ ih => exact Parser.Ensures.within ih
  | named _ _ ih => exact Parser.Ensures.named ih
  | inBody _ ih => exact Parser.Ensures.inBody ih
  | finish _ ih => exact Parser.Ensures.finish ih
  | iterate _ ih => exact Parser.Follows.iterate ih
  | separated _ ih => exact Parser.Follows.separated ih
  | collect passages _ ih => exact Parser.Follows.collect passages ih
  | block _ _ ih => exact Parser.Follows.block ih
  | unread _ ih => exact Parser.Follows.unread ih
  | ofParser _ ih => exact Rule.Ensures.ofParser ih
  | taking h _ ih => exact Rule.Ensures.taking fun i word => Parser.Follows.advance h (ih i word)
  | opening _ ih => exact Rule.Ensures.opening ih
  | followedBy _ _ _ ih ih' =>
    exact Rule.Ensures.followedBy ih (fun i v => Rule.Ensures.decided (ih' i v)) .trans
  | provided shows _ ih => exact Rule.Ensures.provided shows ih
  | ruleMap _ ih => exact Rule.Ensures.map ih
  | ruleWithin _ _ ih => exact Rule.Ensures.within ih
  | ruleNamed _ _ ih => exact Rule.Ensures.named ih
  | attempt _ ih => exact Rule.Ensures.attempt ih
  | none => exact Rule.Ensures.none
  | orElse _ _ ih ih' => exact Rule.Ensures.orElse ih ih'
  | select _ ih => exact Rule.Ensures.select ih
  | oneOf _ ih => exact Rule.Ensures.oneOf ih

/-- A parser built from combinators follows its ledgers. -/
theorem Parser.Built.follows {α : Type} {a : Ledger} {p : Parser α} {b : α → Ledger}
    (h : Parser.Built [] a p b) {scope : Scope} {s t : ParseState} {v : α}
    (hrun : p scope s = .ok v t) :
    Run scope.lexemes scope.tolerant a s.position (b v) t.position :=
  Phrase.Built.follows h scope s t v trivial hrun

/-- A rule built from combinators follows its ledgers. -/
theorem Rule.Built.follows {α : Type} {a : Ledger} {r : Rule α} {b : α → Ledger}
    (h : Rule.Built [] a r b) {scope : Scope} {s : ParseState} {v : α}
    (hv : (r scope s).1.value? = some v) :
    Run scope.lexemes scope.tolerant a s.position (b v) (r scope s).2.position :=
  Phrase.Built.follows h scope s v trivial hv

end SolidityParser
