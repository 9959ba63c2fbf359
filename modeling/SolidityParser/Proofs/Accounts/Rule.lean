import SolidityParser.Proofs.Accounts.Parser
import SolidityParser.Proofs.Parser.Built

/-!
# Loops, rules and choices that account for what they read

A loop gets as many rounds as there are tokens left, so how often it may go round depends on the
length of the input, which differs between the two. Neither run ever needs more: a round that gives
something consumes a token.

`Rule.Accounts w tells i r r' post` is `Parser.Accounts` for rules. A rule that fails without
consuming may say nothing about it, if another is tried after it; `tells` is whether it reports the
failure. In a choice one rule that tells is enough.
-/

namespace SolidityParser

namespace Parser

variable {α β : Type}

/-! ### Loops -/

/-- A round that begins at `i` and gives something consumes a token. -/
def Onward (i : Nat) (round : Option α) (j : Nat) : Prop := round.isSome = true → i < j

/-- A round that is the last. -/
theorem Onward.last {i j : Nat} : Onward i (none : Option α) j := nofun

/-- A round that has come further. -/
theorem Onward.more {i j : Nat} {round : Option α} (h : i < j) : Onward i round j := fun _ => h

namespace Accounts

variable {w : Alike} {due : Bool} {i : Nat} {p q : Parser α} {post : α → Nat → Prop}

/-- Each run may go round as often as its own input is long. -/
theorem budget {f g : Nat → Parser β} {post : β → Nat → Prop}
    (h : Accounts w due i (f (w.first.lexemes.size - i + 1)) (g (w.second.lexemes.size - i + 1))
      post) :
    Accounts w due i (Parser.budget >>= f) (Parser.budget >>= g) post := by
  rintro s rfl hexact hdue hsize
  obtain ⟨hleads, hcovers, hgives, hsame⟩ := h s rfl hexact hdue hsize
  exact ⟨hleads, hcovers, hgives, hsame⟩

/-- What loops need: one round of both, whatever fuel is left for the rounds after it, gives an
account of all. -/
theorem loop {γ : Type} (run run' : Nat → γ → Parser α)
    (round : ∀ fuel fuel' v j, i ≤ j →
      (∀ u k, j < k → Accounts w false k (run fuel u) (run' fuel' u) post) →
        Accounts w false j (run (fuel + 1) v) (run' (fuel' + 1) v) post) :
    ∀ fuel fuel' v j, i ≤ j → w.first.lexemes.size < j + fuel → w.second.lexemes.size < j + fuel' →
      Accounts w false j (run fuel v) (run' fuel' v) post
  | 0, _, _, _, _, hfuel, _ => fun _ _ _ _ hsize => absurd hfuel (Nat.not_lt.mpr hsize)
  | fuel + 1, fuel', v, j, hj, hfuel, hfuel' => by
    have hround (fuel' : Nat) (hfuel' : w.second.lexemes.size < j + (fuel' + 1)) :=
      round fuel fuel' v j hj fun u k hk =>
        loop run run' round fuel fuel' u k (by omega) (by omega) (by omega)
    cases fuel' with
    | zero => exact (hround 0 (by omega)).beyond (by omega)
    | succ fuel' => exact hround fuel' hfuel'

theorem iterate {step step' : β → Parser (Option β)} {v : β}
    (h : ∀ v j, i ≤ j → Accounts w false j (step v) (step' v) (Onward j)) :
    Accounts w due i (Parser.iterate step v) (Parser.iterate step' v) fun _ j => i ≤ j := by
  refine .budget <| .anyway <|
    loop (iterateAtFuel step) (iterateAtFuel step') (fun fuel fuel' v j hj rest => ?_)
      _ _ v i (Nat.le_refl _) (by omega) (by omega)
  refine (h v j hj).bind fun round k hk hround => ?_
  cases round with
  | none => exact .pure (Nat.le_trans hj hk)
  | some v => exact rest v k (hround rfl)

theorem collect {step step' : Parser (Option α)}
    (h : ∀ j, i ≤ j → Accounts w false j step step' (Onward j)) :
    Accounts w due i (Parser.collect step) (Parser.collect step') fun _ j => i ≤ j := by
  refine .budget <| .anyway <|
    loop (fun fuel (_ : Unit) => collectAtFuel step fuel)
      (fun fuel _ => collectAtFuel step' fuel) (fun fuel fuel' _ j hj rest => ?_)
      _ _ () i (Nat.le_refl _) (by omega) (by omega)
  refine (h j hj).bind fun round k hk hround => ?_
  cases round with
  | none => exact .pure (Nat.le_trans hj hk)
  | some v => exact (rest () k (hround rfl)).bind fun _ _ _ hpost => .pure hpost

theorem separated (h : ∀ j, i ≤ j → Accounts w false j p q fun _ _ => True) :
    Accounts w due i (Parser.separated p) (Parser.separated q) fun _ j => i ≤ j := by
  refine .budget <| .anyway <|
    loop (fun fuel (_ : Unit) => separatedAtFuel p fuel)
      (fun fuel _ => separatedAtFuel q fuel) (fun fuel fuel' _ j hj rest => ?_)
      _ _ () i (Nat.le_refl _) (by omega) (by omega)
  refine (h j hj).bind fun v k hk _ => .eatIf nofun (fun _ => ?_) fun _ => .pure (by omega)
  exact (rest () (k + 1) (by omega)).bind fun _ _ _ hpost => .pure hpost

theorem series {close : Kind} (hclose : close ≠ .eof)
    (h : ∀ j, i ≤ j → Accounts w false j p q fun _ _ => True) :
    Accounts w due i (Parser.series close p) (Parser.series close q) fun _ j => i < j :=
  .eatIf hclose (fun _ => .pure (Nat.lt_succ_self i))
    fun _ => (separated h).bind fun _ j hj _ => .expect hclose fun _ => .pure (by omega)

end Accounts

end Parser

/-! ### Accounts of rules -/

namespace Rule

variable {α β : Type}

/-- The account of a run from `s`, and of a run of the second input from there. -/
structure Account (w : Alike) (tells : Bool) (s : ParseState)
    (run again : Outcome Nat α × ParseState) (post : α → Nat → Prop) : Prop where
  /-- The run goes forward. -/
  leads : Leads w.first.lexemes s run.2
  /-- Where it fails after consuming, a failure that far on is on record. -/
  covers : ∀ fault t, run = (.consumedErr fault, t) → t.trail.Covers t.position
  /-- Where it fails without, it stays where it was, and reports it if it tells. -/
  stays : ∀ expected n t, run = (.emptyErr expected n, t) →
    n = s.position ∧ t.position = s.position ∧ (tells = true → t.trail.Covers s.position)
  /-- Where it succeeds, the value is as told. -/
  gives : ∀ v, run.1.value? = some v → post v run.2.position
  /-- The second run is the same, as long as the inputs agree. -/
  same : s.position ≤ w.second.lexemes.size → run.2.mark ≤ w.bound → again = run

/-- All runs from `i` on, whatever failures are on record before, have an account. -/
def Accounts (w : Alike) (tells : Bool) (i : Nat) (r r' : Rule α) (post : α → Nat → Prop) : Prop :=
  ∀ s, s.position = i → s.trail.Exact → i ≤ w.first.lexemes.size →
    Account w tells s (r w.first s) (r' w.second s) post

namespace Account

variable {w : Alike} {tells : Bool} {s t : ParseState} {again : Outcome Nat α × ParseState}
  {post : α → Nat → Prop}

/-- The account of a run that succeeds. -/
theorem ok {outcome : Outcome Nat α} {v : α} (hv : outcome.value? = some v)
    (leads : Leads w.first.lexemes s t) (gives : post v t.position)
    (same : s.position ≤ w.second.lexemes.size → t.mark ≤ w.bound → again = (outcome, t)) :
    Account w tells s (outcome, t) again post where
  leads := leads
  covers _ _ hrun := by cases hrun; cases hv
  stays _ _ _ hrun := by cases hrun; cases hv
  gives _ hgives := by cases hv.symm.trans hgives; exact gives
  same := same

/-- The account of a run that fails after consuming. -/
theorem consumedErr {fault : Fault} (leads : Leads w.first.lexemes s t)
    (covers : t.trail.Covers t.position)
    (same : s.position ≤ w.second.lexemes.size → t.mark ≤ w.bound →
      again = (.consumedErr fault, t)) :
    Account w tells s (.consumedErr fault, t) again post where
  leads := leads
  covers _ _ hrun := by cases hrun; exact covers
  stays := nofun
  gives := nofun
  same := same

/-- The account of a run that fails without. -/
theorem emptyErr {expected : TokenSet} {n : Nat} (leads : Leads w.first.lexemes s t)
    (hn : n = s.position) (ht : t.position = s.position)
    (reports : tells = true → t.trail.Covers s.position)
    (same : s.position ≤ w.second.lexemes.size → t.mark ≤ w.bound →
      again = (.emptyErr expected n, t)) :
    Account w tells s (.emptyErr expected n, t) again post where
  leads := leads
  covers := nofun
  stays _ _ _ hrun := by cases hrun; exact ⟨hn, ht, reports⟩
  gives := nofun
  same := same

end Account

namespace Accounts

variable {β : Type} {w : Alike} {tells tells' due : Bool} {i : Nat} {r r' : Rule α}
  {p p' : Parser α} {post : α → Nat → Prop} {k : Kind}

/-! ### Rules and parsers

The outcome of a rule is found by comparing positions, or set where a token has decided. Either way
it is the same for both inputs, as long as the run is.
-/

theorem ofParser (h : p.Accounts w false i p' post) :
    Accounts w true i (Rule.ofParser p) (Rule.ofParser p') post := by
  rintro s rfl hexact hsize
  obtain ⟨hleads, hcovers, hgives, hsame⟩ := h s rfl hexact nofun hsize
  have hle := hleads.le
  unfold Rule.ofParser
  cases hrun : p w.first s with
  | ok v t =>
    rw [hrun] at hleads hsame
    refine .ok (v := v) ?_ hleads (hgives v t hrun) fun hsecond hmark => by
      rw [hsame hsecond hmark]
    split <;> rfl
  | error fault t =>
    rw [hrun] at hleads hsame hle
    have ht := hcovers fault t hrun
    dsimp only
    by_cases hlt : s.position < t.position
    · rw [if_pos hlt]
      exact .consumedErr hleads ht fun hsecond hmark => by
        rw [hsame hsecond hmark]
        simp only [if_pos hlt]
    · rw [if_neg hlt]
      have heq : t.position = s.position := Nat.le_antisymm (Nat.not_lt.mp hlt) hle
      exact .emptyErr hleads rfl heq (fun _ => heq ▸ ht) fun hsecond hmark => by
        rw [hsame hsecond hmark]
        simp only [if_neg hlt]

/-- What settles the choice reports its failures as a parser does. -/
theorem decided (h : p.Accounts w false i p' post) :
    Accounts w true i (Rule.decided p) (Rule.decided p') post := by
  rintro s rfl hexact hsize
  obtain ⟨hleads, hcovers, hgives, hsame⟩ := h s rfl hexact nofun hsize
  unfold Rule.decided
  cases hrun : p w.first s with
  | ok v t =>
    rw [hrun] at hleads hsame
    exact .ok rfl hleads (hgives v t hrun) fun hsecond hmark => by rw [hsame hsecond hmark]
  | error fault t =>
    rw [hrun] at hleads hsame
    exact .consumedErr hleads (hcovers fault t hrun) fun hsecond hmark => by
      rw [hsame hsecond hmark]

/-- A token of a known kind is taken. -/
theorem taking {p p' : Nat → String → Parser α} (hi : w.first.lexemes.kindAt i = k) (hk : k ≠ .eof)
    (h : ∀ word, (p i word).Accounts w false (i + 1) (p' i word) post) :
    Accounts w true i (Rule.taking p) (Rule.taking p') post := by
  have hparser : Parser.Accounts w false i
      (Parser.text >>= fun word => Parser.advance >>= fun _ => p i word)
      (Parser.text >>= fun word => Parser.advance >>= fun _ => p' i word) post :=
    .text <| .take hi hk (h _)
  rintro s rfl hexact hsize
  exact decided hparser s rfl hexact hsize

/-- A parser that settles the choice goes on where the first rule ended. -/
theorem followedBy {next next' : Nat → α → Rule β} {post' : β → Nat → Prop}
    (first : Accounts w true i r r' post)
    (settles : ∀ v, ∃ q : Parser β, next i v = Rule.decided q)
    (rest : ∀ v j, i ≤ j → post v j → Accounts w true j (next i v) (next' i v) post') :
    Accounts w true i (r.followedBy next) (r'.followedBy next') post' := by
  rintro s rfl hexact hsize
  obtain ⟨hleads, hcovers, hstays, hgives, hsame⟩ := first s rfl hexact hsize
  unfold Rule.followedBy
  rcases hrun : r w.first s with ⟨v | v | fault | ⟨expected, n⟩, t⟩
  all_goals rw [hrun] at hleads hsame hgives
  case consumedOk | emptyOk =>
    obtain ⟨hleads', hcovers', -, hgives', hsame'⟩ :=
      rest v t.position hleads.le (hgives v rfl) t rfl (hleads.grows.exact hexact)
        (hleads.goesOn.le_size hsize)
    refine ⟨hleads.trans hleads', hcovers', fun expected n u hempty => ?_, hgives',
      fun hsecond hmark => ?_⟩
    · obtain ⟨q, hq⟩ := settles v
      simp only [hq, Rule.decided] at hempty
      split at hempty <;> cases hempty
    · have hmark' := Nat.le_trans hleads'.mark_le hmark
      have ht : t.position ≤ w.bound := Nat.le_trans (Nat.le_max_left _ _) hmark'
      rw [hsame hsecond hmark']
      exact hsame' ((w.goesOn hleads.goesOn ht).le_size hsecond) hmark
  case consumedErr =>
    exact .consumedErr hleads (hcovers _ _ hrun) fun hsecond hmark => by rw [hsame hsecond hmark]
  case emptyErr =>
    obtain ⟨hn, ht, htells⟩ := hstays _ _ _ hrun
    exact .emptyErr hleads hn ht htells fun hsecond hmark => by rw [hsame hsecond hmark]

/-- That a rule reports its failure need not matter. -/
theorem silent (h : Accounts w tells i r r' post) : Accounts w false i r r' post := by
  rintro s rfl hexact hsize
  obtain ⟨hleads, hcovers, hstays, hgives, hsame⟩ := h s rfl hexact hsize
  exact ⟨hleads, hcovers, fun expected n t ht =>
    have hstay := hstays expected n t ht
    ⟨hstay.1, hstay.2.1, nofun⟩, hgives, hsame⟩

theorem mono {post' : α → Nat → Prop} (h : Accounts w tells i r r' post)
    (hpost : ∀ v j, i ≤ j → post v j → post' v j) : Accounts w tells i r r' post' := by
  rintro s rfl hexact hsize
  obtain ⟨hleads, hcovers, hstays, hgives, hsame⟩ := h s rfl hexact hsize
  exact ⟨hleads, hcovers, hstays, fun v hv => hpost v _ hleads.le (hgives v hv), hsame⟩

/-- Where the second input has ended before, nothing need be known of the second run. -/
theorem beyond {r'' : Rule α} (h : Accounts w tells i r r' post)
    (hi : w.second.lexemes.size < i) : Accounts w tells i r r'' post := by
  rintro s rfl hexact hsize
  obtain ⟨hleads, hcovers, hstays, hgives, -⟩ := h s rfl hexact hsize
  exact ⟨hleads, hcovers, hstays, hgives, fun hsecond _ => absurd hsecond (Nat.not_le.mpr hi)⟩

/-- No run begins past the end of the first input. -/
theorem outside (hi : w.first.lexemes.size < i) : Accounts w tells i r r' post :=
  fun _ _ _ hsize => absurd hsize (Nat.not_le.mpr hi)

theorem finish {construct : Option Construct} (h : Accounts w true i r r' post) :
    Parser.Accounts w due i (r.finishIn construct) (r'.finishIn construct) post := by
  rintro s rfl hexact - hsize
  obtain ⟨hleads, hcovers, hstays, hgives, hsame⟩ := h s rfl hexact hsize
  unfold Rule.finishIn
  rcases hrun : r w.first s with ⟨v | v | fault | ⟨expected, n⟩, t⟩
  all_goals rw [hrun] at hleads hsame hgives
  · exact .ok hleads (hgives v rfl) fun hsecond hmark => by rw [hsame hsecond hmark]
  · exact .ok hleads (hgives v rfl) fun hsecond hmark => by rw [hsame hsecond hmark]
  · exact .error hleads (hcovers _ _ hrun) fun hsecond hmark => by rw [hsame hsecond hmark]
  · obtain ⟨-, ht, htells⟩ := hstays _ _ _ hrun
    exact .error hleads (ht ▸ htells rfl) fun hsecond hmark => by rw [hsame hsecond hmark]

/-- A token that the rule begins with is looked for; a miss is reported. -/
theorem opening (h : w.first.lexemes.kindAt i = k → Accounts w true i r r' post) :
    Accounts w true i (Rule.opening k r) (Rule.opening k r') post := by
  rintro s rfl hexact hsize
  unfold Rule.opening
  by_cases hk : w.first.lexemes.kindAt s.position = k
  · obtain ⟨hleads, hcovers, hstays, hgives, hsame⟩ := h hk s rfl hexact hsize
    rw [if_pos hk]
    refine ⟨hleads, hcovers, hstays, hgives, fun hsecond hmark => ?_⟩
    have hs := Nat.le_trans hleads.position_le_mark hmark
    rw [← hsame hsecond hmark, w.kindAt _ (by omega), if_pos hk]
  · have hreports := Trail.reports_addToken s.trail s.position k
    rw [if_neg hk]
    refine .emptyErr (.still hreports.grows) rfl rfl (fun _ => hreports.covers) fun _ hmark => ?_
    have hs : s.position ≤ w.bound := Nat.le_trans (Nat.le_max_left _ _) hmark
    rw [w.kindAt _ (by omega), if_neg hk]

/-- A rule that fails at once, and says nothing about it, where a test of at most two tokens further
on fails. -/
theorem provided {test : Lexemes → Nat → Bool}
    (agrees : i ≤ w.bound → test w.second.lexemes i = test w.first.lexemes i)
    (h : test w.first.lexemes i = true → Accounts w tells i r r' post) :
    Accounts w false i (r.provided test) (r'.provided test) post := by
  rintro s rfl hexact hsize
  unfold Rule.provided
  by_cases htest : test w.first.lexemes s.position = true
  · obtain ⟨hleads, hcovers, hstays, hgives, hsame⟩ := h htest s rfl hexact hsize
    rw [if_pos htest]
    refine ⟨hleads, hcovers, fun expected n t ht => ?_, hgives, fun hsecond hmark => ?_⟩
    · obtain ⟨hn, ht, -⟩ := hstays expected n t ht
      exact ⟨hn, ht, nofun⟩
    · have hs := Nat.le_trans hleads.position_le_mark hmark
      rw [← hsame hsecond hmark, agrees hs, if_pos htest]
  · rw [if_neg htest]
    refine .emptyErr (.refl s) rfl rfl nofun fun _ hmark => ?_
    have hs : s.position ≤ w.bound := Nat.le_trans (Nat.le_max_left _ _) hmark
    rw [agrees hs, if_neg htest]

/-- The parser of a rule is chosen by the current token. -/
theorem select {choose choose' : Kind → Option (Parser α)}
    (h : Option.Rel (fun p p' => p.Accounts w false i p' post)
      (choose (w.first.lexemes.kindAt i)) (choose' (w.first.lexemes.kindAt i))) :
    Accounts w false i (Rule.select choose) (Rule.select choose') post := by
  rintro s rfl hexact hsize
  unfold Rule.select
  cases hchoose : choose (w.first.lexemes.kindAt s.position) with
  | some p =>
    rw [hchoose] at h
    cases hchoose' : choose' (w.first.lexemes.kindAt s.position) with
    | none => rw [hchoose'] at h; cases h
    | some p' =>
      rw [hchoose'] at h
      cases h with
      | some hp =>
        obtain ⟨hleads, hcovers, hstays, hgives, hsame⟩ :=
          (ofParser hp).silent s rfl hexact hsize
        refine ⟨hleads, hcovers, hstays, hgives, fun hsecond hmark => ?_⟩
        have hs := Nat.le_trans hleads.position_le_mark hmark
        rw [w.kindAt _ (by omega), hchoose']
        exact hsame hsecond hmark
  | none =>
    rw [hchoose] at h
    cases hchoose' : choose' (w.first.lexemes.kindAt s.position) with
    | some p' => rw [hchoose'] at h; cases h
    | none =>
      refine .emptyErr (.refl s) rfl rfl nofun fun _ hmark => ?_
      have hs : s.position ≤ w.bound := Nat.le_trans (Nat.le_max_left _ _) hmark
      rw [w.kindAt _ (by omega), hchoose']

/-- The kinds that the rule may begin with are looked for; a miss of each is reported. -/
theorem oneOf {k : Kind} {kinds : List Kind} (h : Accounts w true i r r' post) :
    Accounts w true i (Rule.oneOf (k :: kinds) r) (Rule.oneOf (k :: kinds) r') post := by
  rintro s rfl hexact hsize
  unfold Rule.oneOf
  by_cases hk : (k :: kinds).contains (w.first.lexemes.kindAt s.position) = true
  · obtain ⟨hleads, hcovers, hstays, hgives, hsame⟩ := h s rfl hexact hsize
    rw [if_pos hk]
    refine ⟨hleads, hcovers, hstays, hgives, fun hsecond hmark => ?_⟩
    have hs := Nat.le_trans hleads.position_le_mark hmark
    rw [← hsame hsecond hmark, w.kindAt _ (by omega), if_pos hk]
  · rw [if_neg hk]
    refine .emptyErr (.still (Trail.grows_foldl (k :: kinds) s.trail)) rfl rfl
      (fun _ => Trail.covers_foldl k kinds s.trail) fun _ hmark => ?_
    have hs : s.position ≤ w.bound := Nat.le_trans (Nat.le_max_left _ _) hmark
    rw [w.kindAt _ (by omega), if_neg hk]

/-! ### Wrappers -/

theorem map {β : Type} {post : β → Nat → Prop} {f : α → β}
    (h : Accounts w tells i r r' fun v => post (f v)) :
    Accounts w tells i (r.map f) (r'.map f) post := by
  rintro s rfl hexact hsize
  obtain ⟨hleads, hcovers, hstays, hgives, hsame⟩ := h s rfl hexact hsize
  unfold Rule.map
  rcases hrun : r w.first s with ⟨v | v | fault | ⟨expected, n⟩, t⟩
  all_goals rw [hrun] at hleads hsame hgives
  · exact .ok rfl hleads (hgives v rfl) fun hsecond hmark => by rw [hsame hsecond hmark]
  · exact .ok rfl hleads (hgives v rfl) fun hsecond hmark => by rw [hsame hsecond hmark]
  · exact .consumedErr hleads (hcovers _ _ hrun) fun hsecond hmark => by
      rw [hsame hsecond hmark]; rfl
  · obtain ⟨hn, ht, htells⟩ := hstays _ _ _ hrun
    exact .emptyErr hleads hn ht htells fun hsecond hmark => by rw [hsame hsecond hmark]; rfl

theorem within {construct : Construct} (h : Accounts w tells i r r' post) :
    Accounts w tells i (r.within construct) (r'.within construct) post := by
  rintro s rfl hexact hsize
  obtain ⟨hleads, hcovers, hstays, hgives, hsame⟩ := h s rfl hexact hsize
  unfold Rule.within
  rcases hrun : r w.first s with ⟨v | v | fault | ⟨expected, n⟩, t⟩
  all_goals rw [hrun] at hleads hsame hgives
  · exact .ok rfl hleads (hgives v rfl) fun hsecond hmark => by rw [hsame hsecond hmark]
  · exact .ok rfl hleads (hgives v rfl) fun hsecond hmark => by rw [hsame hsecond hmark]
  · exact .consumedErr hleads (hcovers _ _ hrun) fun hsecond hmark => by
      rw [hsame hsecond hmark]; rfl
  · obtain ⟨hn, ht, htells⟩ := hstays _ _ _ hrun
    exact .emptyErr hleads hn ht htells fun hsecond hmark => by rw [hsame hsecond hmark]; rfl

/-- What a name stands for is on record under it. -/
theorem named {rule : RuleName} (h : Accounts w tells i r r' post) :
    Accounts w true i (r.named rule) (r'.named rule) post := by
  rintro s rfl hexact hsize
  obtain ⟨hleads, hcovers, hstays, hgives, hsame⟩ := h s rfl hexact hsize
  unfold Rule.named
  rcases hrun : r w.first s with ⟨v | v | fault | ⟨expected, n⟩, t⟩
  all_goals rw [hrun] at hleads hsame hgives
  · exact .ok rfl hleads (hgives v rfl) fun hsecond hmark => by rw [hsame hsecond hmark]
  · exact .ok rfl hleads (hgives v rfl) fun hsecond hmark => by rw [hsame hsecond hmark]
  · exact .consumedErr hleads (hcovers _ _ hrun) fun hsecond hmark => by rw [hsame hsecond hmark]
  · obtain ⟨hn, ht, -⟩ := hstays _ _ _ hrun
    have hreports := Trail.reports_collapse t.trail s.trail s.position rule
    exact .emptyErr (hleads.noted hreports.grows) hn ht (fun _ => hreports.covers)
      fun hsecond hmark => by
        rw [hsame hsecond (Nat.le_trans (ParseState.mark_le_mark hreports.grows.le) hmark)]

/-! ### Choice -/

/-- What is tried may be taken back; what failed stays on record. -/
theorem attempt (h : Accounts w.speculative tells i r r' post) :
    Accounts w tells i r.attempt r'.attempt post := by
  rintro s rfl hexact hsize
  obtain ⟨hleads, hcovers, hstays, hgives, hsame⟩ := h s rfl hexact hsize
  have hfirst : (⟨w.first.lexemes, w.first.tolerant, w.first.inBody, true⟩ : Scope) =
    w.speculative.first := rfl
  have hsecond : (⟨w.second.lexemes, w.second.tolerant, w.second.inBody, true⟩ : Scope) =
    w.speculative.second := rfl
  unfold Rule.attempt
  rw [hfirst, hsecond]
  rcases hrun : r w.speculative.first s with ⟨v | v | fault | ⟨expected, n⟩, t⟩
  all_goals rw [hrun] at hleads hsame hgives
  · exact .ok rfl hleads (hgives v rfl) fun hsecond hmark => by rw [hsame hsecond hmark]
  · exact .ok rfl hleads (hgives v rfl) fun hsecond hmark => by rw [hsame hsecond hmark]
  · have ht := hcovers _ _ hrun
    have hback : Leads w.first.lexemes s { t with position := s.position } := hleads.back
    refine .emptyErr hback rfl rfl (fun _ => ht.mono hleads.le) fun hsecond hmark => ?_
    -- the failure is on record, so the run does not come further than the record does
    have hmark' : t.mark ≤ w.bound :=
      Nat.max_le.mpr ⟨Nat.le_trans ht.le (Nat.le_trans (Nat.le_max_right _ _) hmark),
        Nat.le_trans (Nat.le_max_right _ _) hmark⟩
    rw [hsame hsecond hmark']
  · obtain ⟨rfl, ht, htells⟩ := hstays _ _ _ hrun
    have hback : ({ t with position := s.position } : ParseState) = t := by rw [← ht]
    dsimp only
    rw [hback]
    exact .emptyErr hleads rfl ht htells fun hsecond hmark => by
      rw [hsame hsecond hmark]
      dsimp only
      rw [hback]

/-- A choice without alternatives fails, and says nothing about it. -/
theorem none : Accounts w false i (Rule.firstOf ([] : List (Rule α))) (Rule.firstOf []) post := by
  rintro s rfl - -
  exact .emptyErr (.refl s) rfl rfl nofun fun _ _ => rfl

theorem orElse {rs rs' : List (Rule α)} (first : Accounts w tells i r r' post)
    (others : Accounts w tells' i (Rule.firstOf rs) (Rule.firstOf rs') post) :
    Accounts w (tells || tells') i (Rule.firstOf (r :: rs)) (Rule.firstOf (r' :: rs')) post := by
  rintro s rfl hexact hsize
  obtain ⟨hleads, hcovers, hstays, hgives, hsame⟩ := first s rfl hexact hsize
  rw [Rule.firstOf, Rule.firstOf]
  rcases hrun : r w.first s with ⟨v | v | fault | ⟨expected, n⟩, t⟩
  all_goals
    rw [hrun] at hleads hsame hgives
    simp only [hrun]
  · exact .ok rfl hleads (hgives v rfl) fun hsecond hmark => by rw [hsame hsecond hmark]
  · exact .ok rfl hleads (hgives v rfl) fun hsecond hmark => by rw [hsame hsecond hmark]
  · exact .consumedErr hleads (hcovers _ _ hrun) fun hsecond hmark => by rw [hsame hsecond hmark]
  · -- the choice goes on from the state that the first rule leaves
    obtain ⟨rfl, ht, htells⟩ := hstays _ _ _ hrun
    have hback : ({ t with position := s.position } : ParseState) = t := by rw [← ht]
    obtain ⟨hleads', hcovers', hstays', hgives', hsame'⟩ :=
      others t ht (hleads.grows.exact hexact) hsize
    have hall := hleads.trans hleads'
    have again (hsecond : s.position ≤ w.second.lexemes.size)
        (hmark : (Rule.firstOf rs w.first t).2.mark ≤ w.bound) :
        r' w.second s = (.emptyErr expected s.position, t) ∧
          Rule.firstOf rs' w.second { t with position := s.position } =
            Rule.firstOf rs w.first t :=
      ⟨hsame hsecond (Nat.le_trans hleads'.mark_le hmark), by
        rw [hback]; exact hsame' (ht ▸ hsecond) hmark⟩
    rw [hback]
    rcases hrun' : Rule.firstOf rs w.first t with ⟨v | v | fault | ⟨more, further⟩, u⟩
    all_goals rw [hrun'] at hgives' hall again
    · exact .ok rfl hall (hgives' v rfl) fun hsecond hmark => by
        obtain ⟨hfirst, hothers⟩ := again hsecond hmark
        simp only [hfirst, hothers]
    · exact .ok rfl hall (hgives' v rfl) fun hsecond hmark => by
        obtain ⟨hfirst, hothers⟩ := again hsecond hmark
        simp only [hfirst, hothers]
    · exact .consumedErr hall (hcovers' _ _ hrun') fun hsecond hmark => by
        obtain ⟨hfirst, hothers⟩ := again hsecond hmark
        simp only [hfirst, hothers]
    · obtain ⟨hfurther, hu, htells'⟩ := hstays' _ _ _ hrun'
      have hgrows := hleads'.grows
      rw [hrun'] at hgrows
      refine .emptyErr hall (by omega) (hu.trans ht) (fun hor => ?_) fun hsecond hmark => by
        obtain ⟨hfirst, hothers⟩ := again hsecond hmark
        simp only [hfirst, hothers]
      rcases (Bool.or_eq_true _ _).mp hor with h | h
      · exact hgrows.covers (htells h)
      · exact ht ▸ htells' h

end Accounts

end Rule

end SolidityParser
