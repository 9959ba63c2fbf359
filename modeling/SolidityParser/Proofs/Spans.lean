import SolidityParser.Proofs.Lexer.Dispatch
import SolidityParser.Proofs.Lexer.Places
import SolidityParser.Proofs.Sound.Unit
import SolidityParser.Proofs.Tree.Relocation

/-!
# Spans of a program

**Theorem** (`Source.parse_laidOut`): in every program that a source parses to, in either mode, each
node reaches from the start of a token to the end of a token and is not empty; it lies inside its
parent; the elements of a field stand one after the other; and the units of the program, the members
of a contract and the statements of a block take up all tokens between what opens and what closes
them (`TokenList.Tiles`).

All but the versions in pragmas is seen on the tree that the grammar builds, whose places count
tokens: there it is what `Lexemes.Supports` says of a part and the parts that its production names.
Tokens stand in order and are not empty, so what holds of the indices of tokens holds of spans.
-/

namespace SolidityParser

/-! ### Spans and tokens -/

/-- A span lies inside another. -/
structure Span.Inside (span outer : Span) : Prop where
  /-- It begins there. -/
  start : outer.start ≤ span.start
  /-- It is not reversed. -/
  forward : span.start ≤ span.stop
  /-- It ends there. -/
  stop : span.stop ≤ outer.stop

theorem Span.Inside.trans {span middle outer : Span} (h : span.Inside middle)
    (h' : middle.Inside outer) : span.Inside outer :=
  ⟨Nat.le_trans h'.start h.start, h.forward, Nat.le_trans h.stop h'.stop⟩

/-- A span covers the tokens from one index up to another, and at least one: it begins where the
first of them begins and ends where the last of them ends. The end of the input is not covered. -/
structure TokenList.Runs (list : TokenList) (i : Nat) (span : Span) (j : Nat) : Prop where
  /-- There is a token. -/
  lt : i < j
  /-- None is the end of the input. -/
  next_lt : j < list.size
  /-- The first begins where the span does. -/
  start : ∃ token, list.get? i = some token ∧ token.span.start = span.start
  /-- The last ends where the span does. -/
  stop : ∃ token, list.get? (j - 1) = some token ∧ token.span.stop = span.stop

/-- Spans take up the tokens from one index up to another, one span right after the other. -/
def TokenList.Tiles (list : TokenList) : Nat → List Span → Nat → Prop
  | i, [], j => i = j
  | i, span :: spans, j => ∃ k, list.Runs i span k ∧ list.Tiles k spans j

/-! ### Nodes -/

/-- The statements of a block take up all tokens after its opening brace, up to its closing brace,
or up to the member of a contract that cuts the block short, where that is tolerated. -/
inductive Block.Filled (tokens : TokenList) (tolerant : Bool) (block : Block .located) : Prop
  | closed {i k : Nat} (runs : tokens.Runs i block.place (k + 1)) (brace : tokens.kind i = .lbrace)
      (tiles : tokens.Tiles (i + 1) (block.body.map (·.place)) k)
      (closing : tokens.kind k = .rbrace)
  | cut {i k : Nat} (allowed : tolerant = true) (runs : tokens.Runs i block.place k)
      (brace : tokens.kind i = .lbrace)
      (tiles : tokens.Tiles (i + 1) (block.body.map (·.place)) k)
      (member : Grammar.atMember tokens.lexemes k = true)

/-- The members of a contract take up all tokens after its opening brace, which follows its bases,
up to its closing brace. -/
inductive Contract.Filled (tokens : TokenList) (contract : Contract .located) : Prop
  | closed {i brace k : Nat} {opening : Token} (runs : tokens.Runs i contract.place (k + 1))
      (inside : i < brace) (found : tokens.get? brace = some opening)
      (kind : opening.kind = .lbrace)
      (bases : ∀ base ∈ contract.bases, base.place.stop ≤ opening.span.start)
      (tiles : tokens.Tiles (brace + 1) (contract.body.map (·.place)) k)
      (closing : tokens.kind k = .rbrace)

/-- The versions that the value of a pragma bounds. -/
def PragmaValue.versions (value : PragmaValue) : List VersionLiteral :=
  value.startVersion.toList ++ value.endVersion.toList

/-- A node is laid out among the tokens of its source. -/
structure Part.LaidOut (tokens : TokenList) (tolerant : Bool) (part : Part .located) : Prop where
  /-- It reaches from the start of a token to the end of a token. -/
  runs : ∃ i j, tokens.Runs i part.place j
  /-- It covers text. -/
  nonempty : part.place.start < part.place.stop
  /-- The nodes right below lie inside. -/
  nested : ∀ field ∈ part.fields, ∀ child ∈ field, child.place.Inside part.place
  /-- So do versions. -/
  versions : ∀ value ∈ part.values, ∀ version ∈ value.versions, version.span.Inside part.place
  /-- The nodes of a field stand one after the other. -/
  ordered : ∀ field ∈ part.fields,
    field.Pairwise fun child other => child.place.stop ≤ other.place.start
  /-- A block is filled by its statements. -/
  block : ∀ b, part = .block b → b.Filled tokens tolerant
  /-- A contract is filled by its members. -/
  contract : ∀ c, part = .unit (.contract c) → c.Filled tokens

/-- A program is laid out in a source of `size` bytes. -/
structure Program.LaidOut (tokens : TokenList) (size : Nat) (tolerant : Bool) (program : Program) :
    Prop where
  /-- It covers the source. -/
  span : program.span = ⟨0, size⟩
  /-- Its units lie inside. -/
  nested : ∀ u ∈ program.body, u.place.Inside program.span
  /-- They stand one after the other. -/
  ordered : program.body.Pairwise fun u v => u.place.stop ≤ v.place.start
  /-- They take up all tokens before the end of the input. -/
  tiles : tokens.Tiles 0 (program.body.map (·.place)) (tokens.size - 1)
  /-- So is each node of them. -/
  nodes : ∀ u ∈ program.body, (Part.unit u).All (Part.LaidOut tokens tolerant)

/-! ### From indices to spans -/

namespace TokenList

variable {list : TokenList} {size i j : Nat} {span other : Span}

/-- The kind at an index is what the grammar sees there. -/
theorem kind_eq (list : TokenList) (i : Nat) : list.kind i = list.lexemes.kindAt i := by
  unfold kind get? lexemes Lexemes.kindAt
  by_cases h : i < list.tokens.size <;> simp [h]

/-- The word at an index is that of the token there, if there is one. -/
theorem lexemeAt_eq (list : TokenList) (i : Nat) :
    list.lexemes.lexemeAt i = ((list.get? i).map (·.toLexeme)).getD ⟨.eof, ""⟩ := by
  unfold lexemes Lexemes.lexemeAt Lexemes.kindAt Lexemes.textAt get?
  by_cases h : i < list.tokens.size <;> simp [h]

/-- What is before the end of the input has a token. -/
theorem exists_get? (list : TokenList) {i : Nat} (h : i < list.size) :
    ∃ token, list.get? i = some token :=
  ⟨_, Array.getElem?_eq_getElem h⟩

/-- Before the end of the input there is a next token. -/
theorem Placed.succ_lt_size (hp : list.Placed size) (h : list.lexemes.kindAt i ≠ .eof) :
    i + 1 < list.size := by
  have hlt := Lexemes.lt_size_of_kindAt h
  rw [lexemes, Array.size_map] at hlt
  have hpos := hp.size_pos
  rcases Nat.lt_or_ge (i + 1) list.size with hnext | hge
  · exact hnext
  · obtain rfl : i = list.size - 1 := by
      change i < list.size at hlt
      omega
    exact absurd (kindAt_lexemes hp.last) h

/-- The end of the input is the last token, and is not passed. -/
theorem Placed.eq_last (hp : list.Placed size) (h : list.lexemes.kindAt i = .eof)
    (hbefore : ∀ n < i, list.lexemes.kindAt n ≠ .eof) : i = list.size - 1 := by
  have hpos := hp.size_pos
  have hle : i ≤ list.size - 1 := by
    refine Nat.le_of_not_lt fun hlt => hbefore _ hlt ?_
    exact kindAt_lexemes hp.last
  refine Nat.le_antisymm hle (Nat.le_of_not_lt fun hlt => ?_)
  obtain ⟨t, ht⟩ := list.exists_get? (show i < list.size by omega)
  exact hp.ne_eof i t ht (by omega) ((kindAt_lexemes ht).symm.trans h)

namespace Runs

/-- A span that covers tokens ends within the text. -/
theorem stop_le (hp : list.Placed size) (h : list.Runs i span j) : span.stop ≤ size := by
  obtain ⟨-, -, -, ⟨t, ht, hstop⟩⟩ := h
  rw [← hstop]
  exact (hp.inside ht).2

/-- A span that covers tokens is not empty. -/
theorem nonempty (hp : list.Placed size) (h : list.Runs i span j) : span.start < span.stop := by
  obtain ⟨hlt, hnext, ⟨s, hs, hstart⟩, ⟨t, ht, hstop⟩⟩ := h
  rw [← hstart, ← hstop]
  have hs' := hp.nonempty i s hs (hp.ne_eof i s hs (by omega))
  rcases Nat.eq_or_lt_of_le (Nat.le_sub_one_of_lt hlt) with heq | hij
  · obtain rfl : s = t := by
      rw [← heq, hs] at ht
      exact Option.some.inj ht
    exact hs'
  · have := hp.ordered i (j - 1) s t hij hs ht
    have := (hp.inside ht).1
    omega

/-- A span ends before another that covers later tokens. -/
theorem before (hp : list.Placed size) {k l : Nat} (h : list.Runs i span j)
    (h' : list.Runs k other l) (hle : j ≤ k) : span.stop ≤ other.start := by
  obtain ⟨hlt, -, -, ⟨s, hs, hstop⟩⟩ := h
  obtain ⟨-, -, ⟨t, ht, hstart⟩, -⟩ := h'
  rw [← hstop, ← hstart]
  exact hp.ordered (j - 1) k s t (by omega) hs ht

/-- A span lies inside another that covers its tokens. -/
theorem inside (hp : list.Placed size) {k l : Nat} (h : list.Runs i span j)
    (h' : list.Runs k other l) (hfirst : k ≤ i) (hnext : j ≤ l) : span.Inside other := by
  refine ⟨?_, Nat.le_of_lt (h.nonempty hp), ?_⟩
  · obtain ⟨s, hs, hstart⟩ := h.start
    obtain ⟨t, ht, hstart'⟩ := h'.start
    rw [← hstart, ← hstart']
    rcases Nat.eq_or_lt_of_le hfirst with rfl | hlt
    · rw [hs] at ht
      cases ht
      exact Nat.le_refl _
    · exact Nat.le_trans (hp.inside ht).1 (hp.ordered k i t s hlt ht hs)
  · obtain ⟨s, hs, hstop⟩ := h.stop
    obtain ⟨t, ht, hstop'⟩ := h'.stop
    rw [← hstop, ← hstop']
    have hij := h.lt
    rcases Nat.eq_or_lt_of_le (show j - 1 ≤ l - 1 by omega) with heq | hlt
    · rw [← heq, hs] at ht
      cases ht
      exact Nat.le_refl _
    · exact Nat.le_trans (hp.ordered (j - 1) (l - 1) s t hlt hs ht) (hp.inside ht).1

end Runs

end TokenList

namespace Layout

variable {layout : Layout} {size i j : Nat} {place : Extent} {places : List Extent}

/-- An extent with tokens goes to a span that covers them. -/
theorem runs_span (hp : layout.tokens.Placed size) (h : layout.tokens.lexemes.Covers place) :
    layout.tokens.Runs place.first (layout.span place) place.next := by
  obtain ⟨hlt, hinside⟩ := h
  have hlast := hp.succ_lt_size (hinside (place.next - 1) (by omega) (by omega))
  have hsize : place.next < layout.tokens.size := by omega
  obtain ⟨s, hs⟩ := layout.tokens.exists_get? (show place.first < layout.tokens.size by omega)
  obtain ⟨t, ht⟩ := layout.tokens.exists_get? (show place.next - 1 < layout.tokens.size by omega)
  have hstart : layout.tokens.span place.first = s.span := by
    rw [TokenList.span, hs]
  have hstop : layout.tokens.spanBefore place.next = t.span := by
    rw [TokenList.spanBefore, if_neg (by omega), TokenList.span, ht]
  have hle : s.span.start ≤ t.span.stop := by
    rcases Nat.eq_or_lt_of_le (show place.first ≤ place.next - 1 by omega) with heq | hlt'
    · rw [← heq, hs] at ht
      cases ht
      exact (hp.inside hs).1
    · have := hp.ordered _ _ s t hlt' hs ht
      have := (hp.inside hs).1
      have := (hp.inside ht).1
      omega
  refine ⟨hlt, hsize, ⟨s, hs, ?_⟩, ⟨t, ht, ?_⟩⟩
  · rw [span, hstart]
  · rw [span, hstart, hstop]
    exact (Nat.max_eq_left hle).symm

/-- Extents in a row go to spans that take up the tokens. -/
theorem tiles_span (hp : layout.tokens.Placed size)
    (h : layout.tokens.lexemes.Spells i (Symbol.row places) j) :
    layout.tokens.Tiles i (places.map layout.span) j := by
  induction places generalizing i with
  | nil => exact h
  | cons place places ih =>
    obtain ⟨⟨rfl, hcovers⟩, hrest⟩ := h
    exact ⟨place.next, runs_span hp hcovers, ih hrest⟩

/-- An extent within another goes to a span inside the span of the other, and may be empty. -/
theorem span_inside (hp : layout.tokens.Placed size) {outer : Extent}
    (h : layout.tokens.lexemes.Covers outer) (hfirst : outer.first ≤ place.first)
    (hlt : place.first < outer.next) (hle : place.first ≤ place.next)
    (hnext : place.next ≤ outer.next) : (layout.span place).Inside (layout.span outer) := by
  have houter := runs_span hp h
  rcases Nat.eq_or_lt_of_le hle with heq | hplace
  · -- nothing but the start of the next token
    have hsize : place.first + 1 < layout.tokens.size := by
      have := houter.next_lt
      omega
    obtain ⟨s, hs⟩ := layout.tokens.exists_get? (show place.first < layout.tokens.size by omega)
    have hruns : layout.tokens.Runs place.first s.span (place.first + 1) :=
      ⟨by omega, hsize, ⟨s, hs, rfl⟩, ⟨s, hs, rfl⟩⟩
    have hinside := hruns.inside hp houter hfirst (by omega)
    have hstart : layout.tokens.span place.first = s.span := by
      rw [TokenList.span, hs]
    have hstop : (layout.tokens.spanBefore place.next).stop ≤ s.span.start := by
      rw [← heq, TokenList.spanBefore]
      split
      · exact Nat.zero_le _
      · next hne =>
        obtain ⟨t, ht⟩ :=
          layout.tokens.exists_get? (show place.first - 1 < layout.tokens.size by omega)
        rw [TokenList.span, ht]
        exact hp.ordered _ _ t s (by omega) ht hs
    have hspan : layout.span place = ⟨s.span.start, s.span.start⟩ := by
      rw [span, hstart, Nat.max_eq_right hstop]
    rw [hspan]
    exact ⟨hinside.start, Nat.le_refl _, Nat.le_trans hinside.forward hinside.stop⟩
  · have hcovers : layout.tokens.lexemes.Covers place :=
      ⟨hplace, fun n hn hn' => h.inside n (by omega) (by omega)⟩
    exact (runs_span hp hcovers).inside hp houter hfirst hnext

end Layout

/-! ### Versions -/

namespace Text

/-- A cut after so many bytes leaves so many. -/
theorem byteLength_of_takeBytes? {count : Nat} {text front : List Char}
    (h : takeBytes? count text = some front) : byteLength front = count := by
  induction text generalizing count front with
  | nil =>
    unfold takeBytes? at h
    split at h <;> cases h
    exact (‹count = 0›).symm
  | cons c cs ih =>
    unfold takeBytes? at h
    split at h
    · cases h
      exact (‹count = 0›).symm
    · split at h
      · obtain ⟨rest, hrest, rfl⟩ := Option.map_eq_some_iff.mp h
        rw [byteLength, ih hrest]
        omega
      · cases h

/-- What a span covers is no longer than the span. -/
theorem byteLength_slice_le (text : List Char) (span : Span) :
    byteLength (slice text span) ≤ span.length := by
  unfold slice
  cases h : slice? text span with
  | none => exact Nat.zero_le _
  | some found =>
    unfold slice? at h
    split at h
    · obtain ⟨rest, -, htake⟩ := Option.bind_eq_some_iff.mp h
      exact Nat.le_of_eq (byteLength_of_takeBytes? htake)
    · cases h

end Text

/-- The versions of a text stand in it. -/
theorem VersionLiteral.scanAtFuel_inside {fuel offset : Nat} {text : List Char} {v : VersionLiteral}
    (h : v ∈ scanAtFuel fuel offset text) :
    v.span.Inside ⟨offset, offset + Text.byteLength text⟩ := by
  induction fuel generalizing offset text with
  | zero => cases h
  | succ fuel ih =>
    match text with
    | [] => cases h
    | c :: cs =>
      unfold scanAtFuel at h
      dsimp only at h
      split at h
      · obtain ⟨hstart, hforward, hstop⟩ := ih h
        dsimp only at hstart hstop
        refine ⟨?_, hforward, ?_⟩
        · dsimp only
          omega
        · rw [Text.byteLength]
          dsimp only
          omega
      · have htext (n : Nat) : offset + Text.byteLength ((c :: cs).take n) +
            Text.byteLength ((c :: cs).drop n) = offset + Text.byteLength (c :: cs) := by
          rw [Nat.add_assoc, ← Text.byteLength_append, List.take_append_drop]
        rcases List.mem_cons.mp h with rfl | h
        · exact ⟨Nat.le_refl _, Nat.le_add_right _ _, Nat.le.intro (htext _)⟩
        · obtain ⟨hstart, hforward, hstop⟩ := ih h
          rw [htext] at hstop
          exact ⟨Nat.le_trans (Nat.le_add_right _ _) hstart, hforward, hstop⟩

/-- The versions in the value of a pragma are found in its text. -/
theorem Layout.mem_scan {layout : Layout} {place : Extent} {v : VersionLiteral}
    (h : v ∈ (layout.pragmaValue place).versions) :
    v ∈ VersionLiteral.scan (layout.span place).start (layout.passage place) := by
  rcases List.mem_append.mp h with h | h <;>
    exact List.mem_of_getElem? (Option.mem_toList.mp h)

/-- The versions in the value of a pragma stand in it. -/
theorem Layout.versions_inside (layout : Layout) (place : Extent) :
    ∀ v ∈ (layout.pragmaValue place).versions, v.span.Inside (layout.span place) := by
  intro v hv
  obtain ⟨hstart, hforward, hstop⟩ := VersionLiteral.scanAtFuel_inside (Layout.mem_scan hv)
  have hlength := Text.byteLength_slice_le layout.text (layout.span place)
  refine ⟨hstart, hforward, Nat.le_trans hstop ?_⟩
  have hle : (layout.span place).start ≤ (layout.span place).stop := Nat.le_max_right _ _
  unfold Span.length at hlength
  unfold passage
  dsimp only
  omega

/-! ### Nodes of a tree -/

section Nodes

variable {layout : Layout} {size : Nat} {tolerant : Bool}

/-- The value of a pragma lies inside the pragma. -/
theorem Lexemes.Supports.pragma_inside {repairs : Repairs} {directive : Pragma .parsed}
    (hp : layout.tokens.Placed size)
    (h : layout.tokens.lexemes.Supports repairs (.unit (.pragma directive))) :
    (layout.span directive.value).Inside (layout.span directive.place) := by
  have hcovers := h.covers
  cases h with
  | phrase holds =>
    obtain ⟨-, symbols, hphrased, hspells⟩ := holds
    cases hphrased with
    | pragma =>
      obtain ⟨-, -, hfirst, hrest⟩ := hspells
      obtain ⟨k, hkinds, hnext, -, hend⟩ := Lexemes.spells_append.mp hrest
      have hle := hkinds.inside.1
      dsimp only [Part.place, SourceUnit.place, Lexemes.Spells] at hcovers hfirst hle hend ⊢
      exact Layout.span_inside hp hcovers (by omega) (by omega) (by omega) (by omega)
    | unit hmember => cases hmember
  | composed _ _ composed =>
    cases composed with
    | unit hmember => cases hmember
  | recovered recovered => cases recovered

/-- A block that stands in the input is filled by its statements. -/
theorem Lexemes.Supports.block_filled {block : Block .parsed} (hp : layout.tokens.Placed size)
    (h : layout.tokens.lexemes.Supports (.ofTolerance tolerant) (.block block)) :
    (block.relocate layout.relocation).Filled layout.tokens tolerant := by
  have hruns : layout.tokens.Runs block.place.first
      (block.relocate layout.relocation).place block.place.next := by
    rw [show (block.relocate layout.relocation).place = layout.span block.place from
      Part.place_relocate _ (.block block)]
    exact Layout.runs_span hp h.covers
  -- the statements stand in a row, and go to spans that take up their tokens
  have htiles {body : List (Statement .parsed)} {place : Extent} {i k : Nat}
      (hrow : layout.tokens.lexemes.Spells i (Symbol.row (body.map (·.place))) k) :
      layout.tokens.Tiles i
        (((Block.mk place body).relocate layout.relocation).body.map (·.place)) k := by
    have hplace (s : Statement .parsed) :
        (s.relocate layout.relocation).place = layout.span s.place :=
      Part.place_relocate _ (.statement s)
    have := Layout.tiles_span hp hrow
    simpa [Block.relocate, Block.body, Function.comp_def, hplace] using this
  cases h with
  | phrase holds =>
    obtain ⟨-, symbols, hphrased, -⟩ := holds
    cases hphrased
  | composed _ _ composed spells =>
    cases composed with
    | @block place body =>
      obtain ⟨k, ⟨⟨-, hopen⟩, hrow⟩, ⟨-, hclose⟩, hend⟩ := Lexemes.spells_append.mp spells
      rw [show (Block.mk place body).place.next = k + 1 from hend.symm] at hruns
      exact .closed hruns ((layout.tokens.kind_eq _).trans hopen) (htiles hrow)
        ((layout.tokens.kind_eq _).trans hclose)
  | recovered recovered =>
    cases recovered with
    | @cut place body allowed _ spells member =>
      obtain ⟨⟨-, hopen⟩, hrow⟩ := spells
      refine .cut ?_ hruns ((layout.tokens.kind_eq _).trans hopen) (htiles hrow) member
      cases tolerant with
      | true => rfl
      | false => cases allowed

/-- A contract that stands in the input is filled by its members. -/
theorem Lexemes.Supports.contract_filled {contract : Contract .parsed}
    (hp : layout.tokens.Placed size)
    (h : layout.tokens.lexemes.Supports (.ofTolerance tolerant) (.unit (.contract contract))) :
    (contract.relocate layout.relocation).Filled layout.tokens := by
  have hruns : layout.tokens.Runs contract.place.first
      (contract.relocate layout.relocation).place contract.place.next :=
    Layout.runs_span hp h.covers
  cases h with
  | phrase holds =>
    obtain ⟨-, symbols, hphrased, -⟩ := holds
    cases hphrased with
    | unit hmember => cases hmember
  | composed _ _ composed spells =>
    cases composed with
    | unit hmember => cases hmember
    | @contract place name kind isAbstract bases body =>
      obtain ⟨k, hfront, ⟨-, hclose⟩, hend⟩ := Lexemes.spells_append.mp spells
      obtain ⟨l, hhead, ⟨-, hopen⟩, hrow⟩ := Lexemes.spells_append.mp hfront
      rw [show (Contract.mk place name kind isAbstract bases body).place.next = k + 1
        from hend.symm] at hruns
      have hlt : place.first < l := (hhead.covers ⟨.word .ident name, by simp, rfl⟩).nonempty
      have hbases (base) (hbase : base ∈ bases) :
          base.place.next ≤ l ∧ layout.tokens.lexemes.Covers base.place := by
        refine (hhead.part_inside ?_).2
        have hmem := List.mem_map_of_mem (f := fun v : Invocation Extent => v.place) hbase
        cases isAbstract <;> simpa [Symbol.parts] using hmem
      have hsize : l + 1 < layout.tokens.size := by
        have := hruns.next_lt
        have := hrow.inside.1
        omega
      obtain ⟨opening, hfound⟩ :=
        layout.tokens.exists_get? (show l < layout.tokens.size by omega)
      have hopening : layout.tokens.Runs l opening.span (l + 1) :=
        ⟨by omega, hsize, ⟨opening, hfound, rfl⟩, ⟨opening, hfound, rfl⟩⟩
      refine .closed hruns hlt hfound ((TokenList.kindAt_lexemes hfound).symm.trans hopen) ?_ ?_
        ((layout.tokens.kind_eq _).trans hclose)
      · refine List.forall_mem_map.mpr fun base hbase => ?_
        obtain ⟨hnext, hcovers⟩ := hbases base hbase
        exact (Layout.runs_span hp hcovers).before hp hopening hnext
      · have hplace (m : ContractPart .parsed) :
            (m.relocate layout.relocation).place = layout.span m.place :=
          Part.place_relocate _ (.member m)
        have := Layout.tiles_span hp hrow
        simpa [Contract.relocate, Function.comp_def, hplace] using this
  | recovered recovered => cases recovered

/-- The values of pragmas in another form. -/
theorem Part.values_relocate {F G : Form} (r : Relocation F G) (part : Part F) :
    (part.relocate r).values = part.values.map r.value := by
  cases part with
  | unit value => cases value <;> rfl
  | _ => rfl

/-- The versions in a pragma that stands in the input lie inside. -/
theorem Lexemes.Supports.versions_inside {repairs : Repairs} {part : Part .parsed}
    (hp : layout.tokens.Placed size) (h : layout.tokens.lexemes.Supports repairs part) :
    ∀ value ∈ part.values, ∀ version ∈ (layout.pragmaValue value).versions,
      version.span.Inside (layout.span part.place) := by
  intro value hvalue version hversion
  cases part with
  | unit unit =>
    cases unit with
    | pragma directive =>
      obtain rfl := List.mem_singleton.mp hvalue
      exact (layout.versions_inside _ version hversion).trans (h.pragma_inside hp)
    | _ => cases hvalue
  | _ => cases hvalue

/-- A node of a tree that stands in the input is laid out. -/
theorem Lexemes.Supports.laidOut {part : Part .parsed} (hp : layout.tokens.Placed size)
    (h : layout.tokens.lexemes.Supports (.ofTolerance tolerant) part)
    (hbelow : ∀ field ∈ part.fields, ∀ child ∈ field,
      layout.tokens.lexemes.Supports (.ofTolerance tolerant) child) :
    (part.relocate layout.relocation).LaidOut layout.tokens tolerant := by
  obtain ⟨symbols, houtlined, hspells⟩ := h.spelled
  have hruns := Layout.runs_span hp h.covers
  have hchild (field) (hfield : field ∈ part.fields) (child) (hchild : child ∈ field) :=
    Layout.runs_span hp (hbelow field hfield child hchild).covers
  have hplace : (part.relocate layout.relocation).place = layout.span part.place :=
    Part.place_relocate _ part
  constructor
  case runs => exact ⟨_, _, hplace ▸ hruns⟩
  case nonempty => exact hplace ▸ hruns.nonempty hp
  case nested =>
    rw [Part.fields_relocate]
    refine List.forall_mem_map.mpr fun field hfield => List.forall_mem_map.mpr fun child hmem => ?_
    rw [Part.place_relocate, hplace]
    obtain ⟨hfirst, hnext⟩ := houtlined.inside hspells hfield hmem
    exact (hchild field hfield child hmem).inside hp hruns hfirst hnext
  case versions =>
    rw [Part.values_relocate, hplace]
    exact List.forall_mem_map.mpr (h.versions_inside hp)
  case ordered =>
    rw [Part.fields_relocate]
    refine List.forall_mem_map.mpr fun field hfield => List.pairwise_map.mpr ?_
    refine (houtlined.ordered hspells hfield).imp_of_mem fun {child other} hmem hmem' hle => ?_
    rw [Part.place_relocate, Part.place_relocate]
    exact (hchild field hfield child hmem).before hp (hchild field hfield other hmem') hle
  case block =>
    intro b hb
    cases part <;> cases hb
    exact h.block_filled hp
  case contract =>
    intro c hc
    cases part with
    | unit unit =>
      cases unit <;> cases hc
      exact h.contract_filled hp
    | _ => cases hc

end Nodes

/-! ### Programs -/

namespace Source

/-- In every program that a source parses to, nodes are laid out among the tokens of the source. -/
theorem parse_laidOut {source : String} {tolerant : Bool} {program : Program}
    (h : parse source tolerant = .ok program) :
    program.LaidOut (lex source).tokens (Text.byteLength source.toList) tolerant := by
  have hp : (layout source).tokens.Placed (Text.byteLength source.toList) := lex_placed source
  obtain ⟨-, units, hunits, rfl⟩ := parse_eq_ok_iff.mp h
  obtain ⟨j, hrow, hends, hstands, -⟩ :=
    Grammar.parseUnits_isSource (lex_wellSpelled source) hunits
  have hplace (u : SourceUnit .parsed) :
      (u.relocate (layout source).relocation).place = (layout source).span u.place :=
    Part.place_relocate _ (.unit u)
  have hruns (u) (hu : u ∈ units) :=
    Layout.runs_span hp (hstands u hu).here.covers
  constructor
  case span => rfl
  case nested =>
    refine List.forall_mem_map.mpr fun u hu => ?_
    rw [hplace]
    exact ⟨Nat.zero_le _, Nat.le_of_lt ((hruns u hu).nonempty hp), (hruns u hu).stop_le hp⟩
  case ordered =>
    refine List.pairwise_map.mpr ?_
    have hordered := hrow.parts_ordered
    rw [Symbol.parts_row, List.pairwise_map] at hordered
    refine hordered.imp_of_mem fun {u v} hu hv hle => ?_
    rw [hplace, hplace]
    exact (hruns u hu).before hp (hruns v hv) hle
  case tiles =>
    have hlast : j = (lex source).tokens.size - 1 :=
      hp.eq_last hends fun n hn => hrow.inside.2 n (Nat.zero_le n) hn
    have htiles : (lex source).tokens.Tiles 0 _ j := Layout.tiles_span hp hrow
    rw [← hlast]
    simpa [Layout.program, Function.comp_def, hplace] using htiles
  case nodes =>
    refine List.forall_mem_map.mpr fun u hu => ?_
    show ((Part.unit u).relocate (layout source).relocation).All _
    refine (Part.all_relocate _).mpr fun part hpart => ?_
    exact (hstands u hu part hpart).laidOut hp fun field hfield child hchild =>
      ((hstands u hu).within hpart).below hfield hchild |>.here

/-- A pragma with two versions, and a contract in which the next function cuts a block short. -/
def cutShort : String :=
  "pragma solidity >=0.4 <0.9; contract C \x7b function f(int a) \x7b a; function g() \x7b\x7d \x7d"

/-- The spans of a program with a block that is cut short. -/
theorem parse_laidOut_cutShort :
    ∃ program, parse cutShort true = .ok program ∧
      program.LaidOut (lex cutShort).tokens (Text.byteLength cutShort.toList) true := by
  have hok : (parse cutShort true).isOk = true := by
    rw [cutShort, parse, read_ofList]
    decide +kernel
  cases h : parse cutShort true with
  | error e =>
    rw [h] at hok
    cases hok
  | ok program => exact ⟨program, rfl, parse_laidOut h⟩

end Source

end SolidityParser
