import SolidityParser.Proofs.Parser.Trail

/-!
# Runs that account for what they read

`Parser.Accounts w due i p q post` compares a run of `p` on one input with a run of `q` on another
whose words agree with those of the first up to two places after the token `w.bound`. The run of `p`
goes forward, keeps the record of failures right, and if it fails, the token where it stops is no
further on than that record; if it succeeds, `post` holds of its value and the position it comes to.
If neither that position nor the record is past `w.bound`, then the run of `q` comes to exactly the
same. `due` tells that a failure at `i` or further on is on record before.

`p` and `q` are two readings of one rule, for inputs nested differently deep. There is one lemma per
primitive and combinator.
-/

namespace SolidityParser

/-! ### States -/

/-- How far a run has come, and how far on a failure is on record. -/
def ParseState.mark (s : ParseState) : Nat := max s.position s.trail.furthest.position

/-- With a failure further on on record, the mark is further on. -/
theorem ParseState.mark_le_mark {s : ParseState} {trail : Trail}
    (h : s.trail.furthest.position ≤ trail.furthest.position) :
    s.mark ≤ ({ s with trail } : ParseState).mark := by
  unfold ParseState.mark
  exact Nat.max_le.mpr ⟨Nat.le_max_left _ _, Nat.le_trans h (Nat.le_max_right _ _)⟩

/-- A token of another kind is not the end of the input. -/
theorem Lexemes.ne_eof {lexemes : Lexemes} {i : Nat} {k : Kind} (h : lexemes.kindAt i = k)
    (hk : k ≠ .eof) : lexemes.kindAt i ≠ .eof := by rwa [h]

/-- No token from `i` up to `j` is the end of the input. -/
def Lexemes.GoesOn (lexemes : Lexemes) (i j : Nat) : Prop :=
  ∀ n, i ≤ n → n < j → lexemes.kindAt n ≠ .eof

namespace Lexemes.GoesOn

variable {lexemes : Lexemes} {i j k : Nat}

theorem refl (i : Nat) : lexemes.GoesOn i i := fun _ hn hlt => absurd hlt (Nat.not_lt.mpr hn)

theorem trans (h : lexemes.GoesOn i j) (h' : lexemes.GoesOn j k) : lexemes.GoesOn i k := by
  intro n hn hlt
  by_cases hj : n < j
  · exact h n hn hj
  · exact h' n (by omega) hlt

/-- One token is not the end of the input. -/
theorem step (h : lexemes.kindAt i ≠ .eof) : lexemes.GoesOn i (i + 1) := by
  intro n hn hlt
  obtain rfl : n = i := Nat.le_antisymm (Nat.le_of_lt_succ hlt) hn
  exact h

/-- The input is at least as long as it goes on. -/
theorem le_size (h : lexemes.GoesOn i j) (hi : i ≤ lexemes.size) : j ≤ lexemes.size := by
  rcases Nat.lt_or_ge i j with hlt | hge
  · have := lt_size_of_kindAt (h (j - 1) (by omega) (by omega))
    omega
  · omega

end Lexemes.GoesOn

/-- From one state to the other no token is gone back, the end of the input is not passed, and
failures are reported where the run has been. -/
structure Leads (lexemes : Lexemes) (s t : ParseState) : Prop where
  /-- No token is gone back. -/
  le : s.position ≤ t.position
  /-- The end of the input is not passed. -/
  goesOn : lexemes.GoesOn s.position t.position
  /-- No failure is forgotten. -/
  grows : s.trail.Grows t.trail
  /-- A failure is reported at a token that the run has come to. -/
  inside : ∀ n ∈ t.trail.reported, n ∈ s.trail.reported ∨ lexemes.GoesOn s.position n

namespace Leads

variable {lexemes : Lexemes} {s t u : ParseState}

theorem refl (s : ParseState) : Leads lexemes s s :=
  ⟨Nat.le_refl _, .refl _, .refl _, fun _ => .inl⟩

theorem trans (h : Leads lexemes s t) (h' : Leads lexemes t u) : Leads lexemes s u where
  le := Nat.le_trans h.le h'.le
  goesOn := h.goesOn.trans h'.goesOn
  grows := h.grows.trans h'.grows
  inside n hn := by
    rcases h'.inside n hn with hn | hn
    · exact h.inside n hn
    · exact .inr (h.goesOn.trans hn)

/-- In the end, failures are reported where the run began. -/
theorem noted {trail : Trail} (h : Leads lexemes s t)
    (hgrows : Trail.GrowsAt s.position t.trail trail) : Leads lexemes s { t with trail } where
  le := h.le
  goesOn := h.goesOn
  grows := h.grows.trans hgrows.toGrows
  inside n hn := by
    rcases hgrows.here n hn with hn | rfl
    · exact h.inside n hn
    · exact .inr (.refl _)

/-- Failures are reported, and no token is consumed. -/
theorem still {trail : Trail} (h : Trail.GrowsAt s.position s.trail trail) :
    Leads lexemes s { s with trail } := (refl s).noted h

/-- One token is consumed. -/
theorem step (h : lexemes.kindAt s.position ≠ .eof) :
    Leads lexemes s { s with position := s.position + 1 } :=
  ⟨Nat.le_succ _, .step h, .refl _, fun _ => .inl⟩

/-- What comes after a run may go back to where it began. -/
theorem back (h : Leads lexemes s t) : Leads lexemes s { t with position := s.position } :=
  ⟨Nat.le_refl _, .refl _, h.grows, h.inside⟩

theorem mark_le (h : Leads lexemes s t) : s.mark ≤ t.mark := by
  have := h.le
  have := h.grows.le
  unfold ParseState.mark
  omega

theorem position_le_mark (h : Leads lexemes s t) : s.position ≤ t.mark :=
  Nat.le_trans (Nat.le_max_left _ _) h.mark_le

/-- What was reported may be struck off the record. -/
theorem forget (h : Leads lexemes s t) : Leads lexemes s { t with trail := s.trail } :=
  ⟨h.le, h.goesOn, .refl _, fun _ => .inl⟩

/-- A run comes no further than the input is long. -/
theorem mark_le_size {bound : Nat} (h : Leads lexemes s t) (hexact : s.trail.Exact)
    (hs : s.position ≤ lexemes.size) (hmark : s.mark ≤ bound) (hsize : lexemes.size ≤ bound) :
    t.mark ≤ bound := by
  have hposition := h.goesOn.le_size hs
  have hrecord : s.trail.furthest.position ≤ bound := Nat.le_trans (Nat.le_max_right _ _) hmark
  refine Nat.max_le.mpr ⟨by omega, ?_⟩
  by_cases hnil : t.trail.reported = []
  · rw [(h.grows.exact hexact).start hnil]
    exact Nat.zero_le _
  · rcases h.inside _ ((h.grows.exact hexact).mem hnil) with hbefore | hnew
    · exact Nat.le_trans (hexact.le _ hbefore) hrecord
    · exact Nat.le_trans (hnew.le_size hs) hsize

end Leads

/-! ### Two inputs -/

/-- Two inputs whose words agree up to two places after a token, read without tolerance; or one
input that ends before that token, read with tolerance. -/
structure Alike where
  /-- How the first is read. -/
  first : Scope
  /-- How the second is read. -/
  second : Scope
  /-- The token. -/
  bound : Nat
  /-- The kinds agree. -/
  kindAt : ∀ n ≤ bound + 2, second.lexemes.kindAt n = first.lexemes.kindAt n
  /-- The spellings agree. -/
  textAt : ∀ n ≤ bound + 2, second.lexemes.textAt n = first.lexemes.textAt n
  /-- Are broken statements skipped? -/
  skips : Bool := false
  /-- Broken statements of the first are not skipped, unless that is so. -/
  strict : first.tolerant = skips
  /-- Nor are broken statements of the second. -/
  strict' : second.tolerant = skips
  /-- To find where to go on from, what is ahead is read; if any are skipped, all has to agree. -/
  whole : skips = true → second = first ∧ first.lexemes.size ≤ bound := by nofun

namespace Alike

/-- An input and itself. -/
def refl (lexemes : Lexemes) : Alike where
  first := { lexemes }
  second := { lexemes }
  bound := 0
  kindAt _ _ := rfl
  textAt _ _ := rfl
  strict := rfl
  strict' := rfl

variable (w : Alike)

/-- The inputs as read in an attempt. -/
def speculative : Alike :=
  { w with
    first.speculative := true
    second.speculative := true
    whole := fun h => ⟨by rw [(w.whole h).1], (w.whole h).2⟩ }

/-- The inputs as read in the body of a function. -/
def inBody : Alike :=
  { w with
    first.inBody := true
    second.inBody := true
    whole := fun h => ⟨by rw [(w.whole h).1], (w.whole h).2⟩ }

/-- The second input goes on where the first does, as long as they agree. -/
theorem goesOn {i j : Nat} (h : w.first.lexemes.GoesOn i j) (hj : j ≤ w.bound) :
    w.second.lexemes.GoesOn i j := by
  intro n hn hlt
  rw [w.kindAt n (by omega)]
  exact h n hn hlt

/-- A word that stands in the first input stands in the second, as long as they agree. -/
theorem isWordAt {n : Nat} (h : n ≤ w.bound + 2) (word : String) :
    w.second.lexemes.isWordAt n word = w.first.lexemes.isWordAt n word := by
  unfold Lexemes.isWordAt
  rw [w.kindAt n h, w.textAt n h]

end Alike

/-! ### Accounts of parsers -/

namespace Parser

variable {α β : Type}

/-- The account of a run from `s`, and of a run of the second input from there. -/
structure Account (w : Alike) (s : ParseState) (run again : EStateM.Result Fault ParseState α)
    (post : α → Nat → Prop) : Prop where
  /-- The run goes forward. -/
  leads : Leads w.first.lexemes s (final run)
  /-- Where it fails, a failure that far on is on record. -/
  covers : ∀ fault t, run = .error fault t → t.trail.Covers t.position
  /-- Where it succeeds, the value is as told. -/
  gives : ∀ v t, run = .ok v t → post v t.position
  /-- The second run is the same, as long as the inputs agree. -/
  same : s.position ≤ w.second.lexemes.size → (final run).mark ≤ w.bound → again = run

/-- All runs from `i` on, whatever failures are on record before, have an account. -/
def Accounts (w : Alike) (due : Bool) (i : Nat) (p q : Parser α) (post : α → Nat → Prop) : Prop :=
  ∀ s, s.position = i → s.trail.Exact → (due = true → s.trail.Covers i) →
    i ≤ w.first.lexemes.size → Account w s (p w.first s) (q w.second s) post

/-- The account of a run that succeeds. -/
theorem Account.ok {w : Alike} {s t : ParseState} {v : α} {again} {post : α → Nat → Prop}
    (leads : Leads w.first.lexemes s t) (gives : post v t.position)
    (same : s.position ≤ w.second.lexemes.size → t.mark ≤ w.bound → again = .ok v t) :
    Account w s (.ok v t) again post :=
  ⟨leads, nofun, fun _ _ hrun => by cases hrun; exact gives, same⟩

/-- The account of a run that fails. -/
theorem Account.error {w : Alike} {s t : ParseState} {fault : Fault} {again}
    {post : α → Nat → Prop} (leads : Leads w.first.lexemes s t) (covers : t.trail.Covers t.position)
    (same : s.position ≤ w.second.lexemes.size → t.mark ≤ w.bound → again = .error fault t) :
    Account w s (.error fault t) again post :=
  ⟨leads, fun _ _ hrun => by cases hrun; exact covers, nofun, same⟩

namespace Accounts

variable {w : Alike} {due : Bool} {i : Nat} {p q : Parser α} {post : α → Nat → Prop}
  {f g : α → Parser β} {post' : β → Nat → Prop} {k : Kind}

/-! ### Compositions

The account of a composition is made of those of its parts. The second run is the same as long as
neither part has come past the words that agree.
-/

protected theorem pure {v : α} (h : post v i) : Accounts w due i (pure v) (pure v) post := by
  rintro s rfl - - -
  exact .ok (.refl s) h fun _ _ => rfl

/-- A value is given, of which nothing need be known. -/
theorem done {v : α} : Accounts w due i (pure v) (pure v) fun _ _ => True := .pure trivial

/-- A failure is on record before. -/
protected theorem fail : Accounts w true i (Parser.fail : Parser α) Parser.fail post := by
  rintro s rfl - hdue -
  exact .error (.refl s) (hdue rfl) fun _ _ => rfl

theorem mono {post' : α → Nat → Prop} (h : Accounts w due i p q post)
    (hpost : ∀ v j, i ≤ j → post v j → post' v j) : Accounts w due i p q post' := by
  rintro s rfl hexact hdue hsize
  have hp := h s rfl hexact hdue hsize
  refine ⟨hp.leads, hp.covers, fun v t hrun => hpost v _ ?_ (hp.gives v t hrun), hp.same⟩
  have hle := hp.leads.le
  rwa [hrun] at hle

/-- What is on record before need not matter. -/
theorem anyway (h : Accounts w false i p q post) : Accounts w due i p q post :=
  fun s hs hexact _ hsize => h s hs hexact nofun hsize

/-- Where the second input has ended before, nothing need be known of the second run. -/
theorem beyond {q' : Parser α} (h : Accounts w due i p q post) (hi : w.second.lexemes.size < i) :
    Accounts w due i p q' post := by
  rintro s rfl hexact hdue hsize
  have hp := h s rfl hexact hdue hsize
  exact ⟨hp.leads, hp.covers, hp.gives, fun hsecond _ => absurd hsecond (Nat.not_le.mpr hi)⟩

/-- No run begins past the end of the first input. -/
theorem outside (hi : w.first.lexemes.size < i) : Accounts w due i p q post :=
  fun _ _ _ _ hsize => absurd hsize (Nat.not_le.mpr hi)

/-- Parsers that run alike have the same accounts. -/
theorem congr {p' q' : Parser α} (h : Accounts w due i p q post) (hp : p' w.first = p w.first)
    (hq : q' w.second = q w.second) : Accounts w due i p' q' post := by
  rintro s rfl hexact hdue hsize
  rw [hp, hq]
  exact h s rfl hexact hdue hsize

theorem bind (hp : Accounts w due i p q post)
    (hf : ∀ v j, i ≤ j → post v j → Accounts w false j (f v) (g v) post') :
    Accounts w due i (p >>= f) (q >>= g) post' := by
  rintro s rfl hexact hdue hsize
  obtain ⟨hleads, hcovers, hgives, hsame⟩ := hp s rfl hexact hdue hsize
  cases hrun : p w.first s with
  | error fault t =>
    rw [hrun] at hleads hsame
    rw [bind_of_error hrun]
    exact .error hleads (hcovers fault t hrun) fun hsecond hmark =>
      bind_of_error (hsame hsecond hmark)
  | ok v t =>
    rw [hrun] at hleads hsame
    rw [bind_of_ok hrun]
    have hrest := hf v t.position hleads.le (hgives v t hrun) t rfl (hleads.grows.exact hexact)
      nofun (hleads.goesOn.le_size hsize)
    refine ⟨hleads.trans hrest.leads, hrest.covers, hrest.gives, fun hsecond hmark => ?_⟩
    have hmark' := Nat.le_trans hrest.leads.mark_le hmark
    have ht : t.position ≤ w.bound := Nat.le_trans (Nat.le_max_left _ _) hmark'
    rw [bind_of_ok (hsame hsecond hmark')]
    exact hrest.same ((w.goesOn hleads.goesOn ht).le_size hsecond) hmark

/-- What comes after a failure does not matter. -/
theorem failed : Accounts w true i (Parser.fail >>= f) (Parser.fail >>= g) post' :=
  .bind (.fail : Accounts w true i Parser.fail Parser.fail fun _ _ => False) fun _ _ _ => False.elim

theorem map {h : α → β} (hp : Accounts w due i p q fun v => post' (h v)) :
    Accounts w due i (h <$> p) (h <$> q) post' := by
  rw [← bind_pure_comp, ← bind_pure_comp]
  exact hp.bind fun v _ _ hv => .pure hv

/-! ### Looking at the input -/

/-- What is looked at does not reach past the words that agree. -/
theorem look (read : Lexemes → Nat → α)
    (agrees : i ≤ w.bound → read w.second.lexemes i = read w.first.lexemes i)
    (h : Accounts w due i (f (read w.first.lexemes i)) (g (read w.first.lexemes i)) post') :
    Accounts w due i ((fun scope s => .ok (read scope.lexemes s.position) s : Parser α) >>= f)
      ((fun scope s => .ok (read scope.lexemes s.position) s : Parser α) >>= g) post' := by
  rintro s rfl hexact hdue hsize
  have hrest := h s rfl hexact hdue hsize
  refine ⟨hrest.leads, hrest.covers, hrest.gives, fun hsecond hmark => ?_⟩
  have hs := Nat.le_trans hrest.leads.position_le_mark hmark
  show g (read w.second.lexemes s.position) w.second s = _
  rw [agrees hs]
  exact hrest.same hsecond hmark

theorem kind {f g : Kind → Parser β}
    (h : Accounts w due i (f (w.first.lexemes.kindAt i)) (g (w.first.lexemes.kindAt i)) post') :
    Accounts w due i (Parser.kind >>= f) (Parser.kind >>= g) post' :=
  look (fun lexemes n => lexemes.kindAt n) (fun hi => w.kindAt i (by omega)) h

theorem kindAhead {f g : Kind → Parser β} {n : Nat} (hn : n ≤ 2)
    (h : Accounts w due i (f (w.first.lexemes.kindAt (i + n)))
      (g (w.first.lexemes.kindAt (i + n))) post') :
    Accounts w due i (Parser.kindAhead n >>= f) (Parser.kindAhead n >>= g) post' :=
  look (fun lexemes m => lexemes.kindAt (m + n)) (fun hi => w.kindAt (i + n) (by omega)) h

theorem text {f g : String → Parser β}
    (h : Accounts w due i (f (w.first.lexemes.textAt i)) (g (w.first.lexemes.textAt i)) post') :
    Accounts w due i (Parser.text >>= f) (Parser.text >>= g) post' :=
  look (fun lexemes n => lexemes.textAt n) (fun hi => w.textAt i (by omega)) h

theorem isWord {f g : Bool → Parser β} {word : String}
    (h : Accounts w due i (f (w.first.lexemes.isWordAt i word))
      (g (w.first.lexemes.isWordAt i word)) post') :
    Accounts w due i (Parser.isWord word >>= f) (Parser.isWord word >>= g) post' :=
  look (fun lexemes n => lexemes.isWordAt n word) (fun hi => w.isWordAt (by omega) word) h

theorem position {f g : Nat → Parser β} (h : Accounts w due i (f i) (g i) post') :
    Accounts w due i (Parser.position >>= f) (Parser.position >>= g) post' :=
  look (fun _ n => n) (fun _ => rfl) h

theorem extentFrom {f g : Extent → Parser β} {first : Nat}
    (h : Accounts w due i (f ⟨first, i⟩) (g ⟨first, i⟩) post') :
    Accounts w due i (Parser.extentFrom first >>= f) (Parser.extentFrom first >>= g) post' :=
  look (fun _ n => Extent.mk first n) (fun _ => rfl) h

theorem ite {test : Prop} [Decidable test] {p' q' : Parser α}
    (yes : test → Accounts w due i p q post) (no : ¬ test → Accounts w due i p' q' post) :
    Accounts w due i (if test then p else p') (if test then q else q') post := by
  by_cases h : test
  · rw [if_pos h, if_pos h]
    exact yes h
  · rw [if_neg h, if_neg h]
    exact no h

/-- A condition decides between two parsers, and the same follows either. -/
theorem either {test : Prop} [Decidable test] {p' q' : Parser α}
    (yes : test → Accounts w due i p q post) (no : ¬ test → Accounts w due i p' q' post)
    (rest : ∀ v j, i ≤ j → post v j → Accounts w false j (f v) (g v) post') :
    Accounts w due i (if test then p >>= f else p' >>= f) (if test then q >>= g else q' >>= g)
      post' :=
  .ite (fun h => (yes h).bind rest) fun h => (no h).bind rest

/-! ### Consuming and reporting

A token that is consumed is one that the inputs share, and is not the end of the input. A token that
is missed is put on record for both.
-/

theorem advance {f g : Unit → Parser β} (hi : w.first.lexemes.kindAt i ≠ .eof)
    (h : Accounts w false (i + 1) (f ()) (g ()) post') :
    Accounts w due i (Parser.advance >>= f) (Parser.advance >>= g) post' := by
  rintro s rfl hexact hdue hsize
  have hrest := h { s with position := s.position + 1 } rfl hexact nofun
    (Lexemes.lt_size_of_kindAt hi)
  rw [bind_of_ok (advance_run hi)]
  refine ⟨(Leads.step hi).trans hrest.leads, hrest.covers, hrest.gives, fun hsecond hmark => ?_⟩
  have hle : s.position ≤ w.bound :=
    Nat.le_of_succ_le (Nat.le_trans hrest.leads.position_le_mark hmark)
  have hi' : w.second.lexemes.kindAt s.position ≠ .eof := by
    rwa [w.kindAt _ (by omega)]
  rw [bind_of_ok (advance_run hi')]
  exact hrest.same (Lexemes.lt_size_of_kindAt hi') hmark

/-- A token of a known kind is consumed. -/
theorem take {f g : Unit → Parser β} (hi : w.first.lexemes.kindAt i = k)
    (hk : k ≠ .eof) (h : Accounts w false (i + 1) (f ()) (g ()) post') :
    Accounts w due i (Parser.advance >>= f) (Parser.advance >>= g) post' :=
  .advance (Lexemes.ne_eof hi hk) h

/-- A failure is reported, which is then on record. -/
theorem report (change : Nat → Trail → Trail) {f g : Unit → Parser β}
    (reports : ∀ trail : Trail, trail.Reports i (change i trail))
    (h : Accounts w true i (f ()) (g ()) post') :
    Accounts w due i
      ((fun _ s => .ok () { s with trail := change s.position s.trail } : Parser Unit) >>= f)
      ((fun _ s => .ok () { s with trail := change s.position s.trail } : Parser Unit) >>= g)
      post' := by
  rintro s rfl hexact - hsize
  have hreports := reports s.trail
  have hrest := h { s with trail := change s.position s.trail } rfl (hreports.exact hexact)
    (fun _ => hreports.covers) hsize
  exact ⟨(Leads.still hreports.grows).trans hrest.leads, hrest.covers, hrest.gives, hrest.same⟩

theorem reportToken {f g : Unit → Parser β} (h : Accounts w true i (f ()) (g ()) post') :
    Accounts w due i (Parser.reportToken k >>= f) (Parser.reportToken k >>= g) post' :=
  report (fun n trail => trail.addToken n k)
    (fun trail => Trail.reports_addToken trail i k) h

theorem reportRule {f g : Unit → Parser β} {rule : RuleName}
    (h : Accounts w true i (f ()) (g ()) post') :
    Accounts w due i (Parser.reportRule rule >>= f) (Parser.reportRule rule >>= g) post' :=
  report (fun n trail => trail.addRule n rule)
    (fun trail => Trail.reports_addRule trail i rule) h

theorem check {f g : Bool → Parser β}
    (hit : w.first.lexemes.kindAt i = k → Accounts w due i (f true) (g true) post')
    (miss : w.first.lexemes.kindAt i ≠ k → Accounts w true i (f false) (g false) post') :
    Accounts w due i (Parser.check k >>= f) (Parser.check k >>= g) post' := by
  unfold Parser.check
  rw [bind_assoc, bind_assoc]
  refine .kind ?_
  by_cases hi : w.first.lexemes.kindAt i = k
  · rw [if_pos hi, pure_bind, pure_bind]
    exact hit hi
  · rw [if_neg hi, bind_assoc, bind_assoc]
    refine .reportToken ?_
    rw [pure_bind, pure_bind]
    exact miss hi

/-- After a miss, a failure at the current token is on record. -/
theorem eat {f g : Bool → Parser β} (hk : k ≠ .eof)
    (hit : w.first.lexemes.kindAt i = k → Accounts w false (i + 1) (f true) (g true) post')
    (miss : w.first.lexemes.kindAt i ≠ k → Accounts w true i (f false) (g false) post') :
    Accounts w due i (Parser.eat k >>= f) (Parser.eat k >>= g) post' := by
  unfold Parser.eat
  rw [bind_assoc, bind_assoc]
  refine .check (fun hi => ?_) fun hi => ?_
  · rw [if_pos rfl, bind_assoc, bind_assoc]
    refine .advance (by rwa [hi]) ?_
    rw [pure_bind, pure_bind]
    exact hit hi
  · rw [if_neg Bool.false_ne_true, pure_bind, pure_bind]
    exact miss hi

/-- A token that may stand here is consumed. -/
theorem eatToken (hk : k ≠ .eof) :
    Accounts w due i (Parser.eat k) (Parser.eat k) fun _ _ => True := by
  rw [← bind_pure (Parser.eat k)]
  exact .eat hk (fun _ => .done) fun _ => .done

/-- A token that may stand here decides between two parsers. -/
theorem eatIf {p' q' : Parser α} (hk : k ≠ .eof)
    (hit : w.first.lexemes.kindAt i = k → Accounts w false (i + 1) p q post)
    (miss : w.first.lexemes.kindAt i ≠ k → Accounts w true i p' q' post) :
    Accounts w due i (Parser.eat k >>= fun found => if found = true then p else p')
      (Parser.eat k >>= fun found => if found = true then q else q') post :=
  .eat hk (fun hi => by rw [if_pos rfl, if_pos rfl]; exact hit hi)
    fun hi => by rw [if_neg Bool.false_ne_true, if_neg Bool.false_ne_true]; exact miss hi

/-- A token that may stand here decides between two parsers, and the same follows either. -/
theorem eatEither {p' q' : Parser α} (hk : k ≠ .eof)
    (hit : w.first.lexemes.kindAt i = k → Accounts w false (i + 1) p q post)
    (miss : w.first.lexemes.kindAt i ≠ k → Accounts w true i p' q' post)
    (rest : ∀ v j, i ≤ j → post v j → Accounts w false j (f v) (g v) post') :
    Accounts w due i (Parser.eat k >>= fun found => if found = true then p >>= f else p' >>= f)
      (Parser.eat k >>= fun found => if found = true then q >>= g else q' >>= g) post' :=
  .eatIf hk (fun hi => (hit hi).bind fun v j hj => rest v j (by omega))
    fun hi => (miss hi).bind rest

/-- The kind of the current token decides between two parsers. -/
theorem kindIf {p' q' : Parser α}
    (hit : w.first.lexemes.kindAt i = k → Accounts w due i p q post)
    (miss : w.first.lexemes.kindAt i ≠ k → Accounts w due i p' q' post) :
    Accounts w due i (Parser.kind >>= fun here => if here = k then p else p')
      (Parser.kind >>= fun here => if here = k then q else q') post :=
  .kind <| .ite hit miss

/-- A token that is expected is consumed, or its lack is on record. -/
theorem expect {f g : Unit → Parser β} (hk : k ≠ .eof)
    (h : w.first.lexemes.kindAt i = k → Accounts w false (i + 1) (f ()) (g ()) post') :
    Accounts w due i (Parser.expect k >>= f) (Parser.expect k >>= g) post' := by
  unfold Parser.expect
  rw [bind_assoc, bind_assoc]
  refine .check (fun hi => ?_) fun _ => ?_
  · rw [if_pos rfl]
    exact .advance (by rwa [hi]) (h hi)
  · rw [if_neg Bool.false_ne_true]
    exact .failed

theorem expectIdent {f g : Identifier Extent → Parser β}
    (h : w.first.lexemes.kindAt i = .ident →
      Accounts w false (i + 1) (f ⟨Extent.single i, w.first.lexemes.textAt i⟩)
        (g ⟨Extent.single i, w.first.lexemes.textAt i⟩) post') :
    Accounts w due i (Parser.expectIdent >>= f) (Parser.expectIdent >>= g) post' := by
  unfold Parser.expectIdent
  simp only [bind_assoc, pure_bind]
  exact .position <| .text <| .expect nofun h

/-- The end of the input is expected, and is not consumed. -/
theorem expectEnd {f g : Unit → Parser β}
    (h : w.first.lexemes.kindAt i = .eof → Accounts w due i (f ()) (g ()) post') :
    Accounts w due i (Parser.expect .eof >>= f) (Parser.expect .eof >>= g) post' := by
  unfold Parser.expect
  rw [bind_assoc, bind_assoc]
  refine .check (fun hi => ?_) fun _ => ?_
  · rw [if_pos rfl]
    rintro s rfl hexact hdue hsize
    obtain ⟨hleads, hcovers, hgives, hsame⟩ := h hi s rfl hexact hdue hsize
    have stays {scope : Scope} (heof : scope.lexemes.kindAt s.position = .eof) :
        Parser.advance scope s = .ok () s := if_pos heof
    rw [bind_of_ok (stays hi)]
    refine ⟨hleads, hcovers, hgives, fun hsecond hmark => ?_⟩
    have hs := Nat.le_trans hleads.position_le_mark hmark
    rw [bind_of_ok (stays (by rw [w.kindAt _ (by omega), hi]))]
    exact hsame hsecond hmark
  · rw [if_neg Bool.false_ne_true]
    exact .failed

theorem expectName : Accounts w due i Parser.expectIdent Parser.expectIdent fun _ _ => True := by
  rw [← bind_pure Parser.expectIdent]
  exact .expectIdent fun _ => .done

theorem eatIdent : Accounts w due i Parser.eatIdent Parser.eatIdent fun _ _ => True :=
  .text <| .eatIf nofun (fun _ => .done) fun _ => .done

/-! ### Wrappers

What only words failures, or changes the scope of both inputs alike, has the account of what is
inside.
-/

theorem within {construct : Construct} (h : Accounts w due i p q post) :
    Accounts w due i (p.within construct) (q.within construct) post := by
  rintro s rfl hexact hdue hsize
  obtain ⟨hleads, hcovers, hgives, hsame⟩ := h s rfl hexact hdue hsize
  unfold Parser.within
  cases hrun : p w.first s with
  | ok v t =>
    rw [hrun] at hleads hsame
    exact .ok hleads (hgives v t hrun) fun hsecond hmark => by rw [hsame hsecond hmark]
  | error fault t =>
    rw [hrun] at hleads hsame
    exact .error hleads (hcovers fault t hrun) fun hsecond hmark => by rw [hsame hsecond hmark]

theorem named {rule : RuleName} (h : Accounts w due i p q post) :
    Accounts w due i (p.named rule) (q.named rule) post := by
  rintro s rfl hexact hdue hsize
  obtain ⟨hleads, hcovers, hgives, hsame⟩ := h s rfl hexact hdue hsize
  unfold Parser.named
  cases hrun : p w.first s with
  | ok v t =>
    rw [hrun] at hleads hsame
    exact .ok hleads (hgives v t hrun) fun hsecond hmark => by rw [hsame hsecond hmark]
  | error fault t =>
    rw [hrun] at hleads hsame
    have hreports := Trail.reports_collapse t.trail s.trail s.position rule
    exact .error (hleads.noted hreports.grows) (hreports.grows.covers (hcovers fault t hrun))
      fun hsecond hmark => by
        rw [hsame hsecond (Nat.le_trans (ParseState.mark_le_mark hreports.grows.le) hmark)]

theorem inBody (h : Accounts w.inBody due i p q post) :
    Accounts w due i p.inBody q.inBody post :=
  fun s hs hexact hdue hsize =>
    have hp := h s hs hexact hdue hsize
    ⟨hp.leads, hp.covers, hp.gives, hp.same⟩

end Accounts

end Parser

end SolidityParser
