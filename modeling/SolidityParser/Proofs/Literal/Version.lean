import SolidityParser.Proofs.Text
import SolidityParser.Tree.Version

/-!
# The versions in a text

`VersionLiteral.scan` takes as much as it can: a version goes on to the last character that may
belong to it, its comparison could not be longer, and it is found where it begins, not in the middle
(`exists_picks`). The scan is at no place by chance: the character before either ended a version or
was passed over because no version begins there (`Ready`).
-/

namespace SolidityParser

open Pattern (isBlank)
open Text (byteLength)

namespace VersionLiteral

/-! ### Comparisons -/

/-- The blank text after the comparison at the front of a text. -/
def blankAt (text : List Char) : List Char :=
  gapAt (comparisonAt text) (text.drop (comparisonAt text).length)

/-- The version at the front of a text, without its comparison; empty if there is none. -/
def versionAt (text : List Char) : List Char :=
  (text.drop ((comparisonAt text).length + (blankAt text).length)).takeWhile isVersionChar

/-- The version at the front of a text, with its comparison. -/
def foundAt (text : List Char) : List Char := comparisonAt text ++ blankAt text ++ versionAt text

/-- A version in a text, with what stands around it. -/
structure Picks (text before comparison gap version after : List Char) : Prop where
  text_eq : text = before ++ (comparison ++ gap ++ version) ++ after
  version_ne_nil : version ≠ []
  version_chars : ∀ c ∈ version, isVersionChar c = true
  gap_blank : ∀ c ∈ gap, isBlank c = true
  /-- There is a comparison, or the version comes first. -/
  comparison_mem : comparison ∈ comparisons ∨ comparison = [] ∧ gap = []
  /-- The version does not go on. -/
  stops : ∀ c ∈ after.head?, isVersionChar c = false
  /-- A version without a comparison does not begin earlier. -/
  starts : comparison = [] → ∀ c ∈ before.getLast?, isVersionChar c = false
  /-- Neither does a comparison. -/
  longest : ∀ c ∈ before.getLast?, c :: comparison ∉ comparisons

variable {text before after pre rest : List Char} {c : Char} {cs : List Char}

/-- The comparison found is a comparison at the front, or there is none. -/
theorem comparisonAt_cases (text : List Char) :
    comparisonAt text ∈ comparisons ∧ comparisonAt text <+: text ∨
      comparisonAt text = [] ∧ ∀ comparison ∈ comparisons, ¬ comparison <+: text := by
  unfold comparisonAt
  cases hfound : comparisons.find? (·.isPrefixOf text) with
  | some comparison =>
    exact .inl ⟨List.mem_of_find?_eq_some hfound,
      List.isPrefixOf_iff_prefix.mp (by simpa using List.find?_some hfound)⟩
  | none => exact .inr ⟨rfl, by simpa using List.find?_eq_none.mp hfound⟩

/-- No comparison has a character of a version in it. -/
theorem not_isVersionChar_of_mem {comparison : List Char} (h : comparison ∈ comparisons)
    (hc : c ∈ comparison) : isVersionChar c = false := by
  have hall : comparisons.all (·.all fun c => !isVersionChar c) = true := rfl
  simpa using List.all_eq_true.mp (List.all_eq_true.mp hall comparison h) c hc

/-- A version without a comparison is at the very front. -/
theorem versionAt_of_nil (h : comparisonAt text = []) :
    versionAt text = text.takeWhile isVersionChar := by
  simp [versionAt, blankAt, h, gapAt]

/-- A version begins with each character of one. -/
theorem versionAt_cons_of_isVersionChar (h : isVersionChar c = true) (cs : List Char) :
    versionAt (c :: cs) ≠ [] := by
  have hnone : comparisonAt (c :: cs) = [] := by
    rcases comparisonAt_cases (c :: cs) with ⟨hmem, hprefix⟩ | ⟨hnone, -⟩
    · cases hfound : comparisonAt (c :: cs) with
      | nil => rfl
      | cons d comparison =>
        rw [hfound] at hmem hprefix
        obtain ⟨rfl, -⟩ := List.cons_prefix_cons.mp hprefix
        rw [not_isVersionChar_of_mem hmem (.head _)] at h
        cases h
    · exact hnone
  rw [versionAt_of_nil hnone, List.takeWhile_cons_of_pos h]
  exact List.cons_ne_nil _ _

/-- The longer of two comparisons is found. -/
theorem comparisonAt_cons_of_mem (h : c :: comparisonAt rest ∈ comparisons) :
    comparisonAt (c :: rest) = c :: comparisonAt rest := by
  rcases comparisonAt_cases rest with ⟨hmem, hprefix⟩ | ⟨hnil, hnone⟩
  · -- only an equals sign comes second in a comparison
    have hpair : ∀ comparison ∈ comparisons, ∀ longer ∈ comparisons,
        longer.tail = comparison → comparison = ['='] ∧ longer ∈ [['>', '='], ['<', '=']] := by
      decide +kernel
    obtain ⟨heq, hlonger⟩ := hpair _ hmem _ h rfl
    rw [heq] at hprefix hlonger ⊢
    obtain ⟨more, rfl⟩ := hprefix
    simp only [List.mem_cons, List.cons.injEq, and_true, List.not_mem_nil, or_false] at hlonger
    rcases hlonger with rfl | rfl <;> rfl
  · have hequals : rest.head? ≠ some '=' := by
      intro hhead
      obtain ⟨more, rfl⟩ := List.head?_eq_some_iff.mp hhead
      exact hnone ['='] (by decide) ⟨more, rfl⟩
    rw [hnil] at h ⊢
    have hone : c ∈ ['^', '~', '>', '<', '='] := by
      have hall : ∀ comparison ∈ comparisons, ∀ c, comparison = [c] →
          c ∈ ['^', '~', '>', '<', '='] := by
        simp [comparisons]
      exact hall _ h c rfl
    simp only [List.mem_cons, List.not_mem_nil, or_false] at hone
    cases rest with
    | nil => rcases hone with rfl | rfl | rfl | rfl | rfl <;> rfl
    | cons d rest =>
      have hd : '=' ≠ d := fun hd => hequals (congrArg some hd.symm)
      rcases hone with rfl | rfl | rfl | rfl | rfl <;> simp [comparisonAt, comparisons, hd]

/-- No character of a version is blank. -/
theorem isBlank_of_isVersionChar (h : isVersionChar c = true) : isBlank c = false := by
  cases hblank : isBlank c with
  | false => rfl
  | true =>
    unfold isBlank at hblank
    split at hblank <;> first | exact absurd h (by decide) | cases hblank

/-- The gap before a version is blank, and there is none without a comparison. -/
theorem gapAt_cases (comparison rest : List Char) :
    gapAt comparison rest <+: rest ∧ (∀ c ∈ gapAt comparison rest, isBlank c = true) ∧
      (comparison = [] → gapAt comparison rest = []) := by
  unfold gapAt
  split
  · exact ⟨List.nil_prefix, nofun, fun _ => rfl⟩
  · next hne =>
    exact ⟨List.takeWhile_prefix _, fun c hc => List.all_eq_true.mp List.all_takeWhile c hc,
      fun hnil => absurd (List.isEmpty_iff.mpr hnil) hne⟩

/-- A comparison that grows by a character in front still has its version. -/
theorem versionAt_cons_of_mem (h : c :: comparisonAt rest ∈ comparisons)
    (hversion : versionAt rest ≠ []) : versionAt (c :: rest) ≠ [] := by
  have hblank : blankAt (c :: rest) = blankAt rest := by
    unfold blankAt
    rw [comparisonAt_cons_of_mem h, List.length_cons, List.drop_succ_cons]
    unfold gapAt
    rw [if_neg (by simp)]
    split
    · next hnil =>
      -- the version comes first, so there is no blank to pass
      rw [List.isEmpty_iff] at hnil
      rw [versionAt_of_nil hnil] at hversion
      rw [hnil, List.length_nil, List.drop_zero]
      cases rest with
      | nil => rfl
      | cons d rest =>
        have hd : isVersionChar d = true := by
          cases hd : isVersionChar d with
          | true => rfl
          | false => exact absurd (List.takeWhile_cons_of_neg (by simp [hd])) hversion
        exact List.takeWhile_cons_of_neg (by simp [isBlank_of_isVersionChar hd])
    · rfl
  unfold versionAt at hversion ⊢
  rw [hblank, comparisonAt_cons_of_mem h, List.length_cons, Nat.add_right_comm,
    List.drop_succ_cons]
  exact hversion

/-- What is found at the front of a text goes on to the last character of the version. -/
theorem exists_after (text : List Char) :
    ∃ after, text = foundAt text ++ after ∧ ∀ c ∈ after.head?, isVersionChar c = false := by
  have drop_of {front back text : List Char} (h : front ++ back = text) :
      text.drop front.length = back := h ▸ List.drop_left
  have hcomparison : comparisonAt text <+: text := by
    rcases comparisonAt_cases text with ⟨-, hprefix⟩ | ⟨hnil, -⟩
    · exact hprefix
    · rw [hnil]
      exact List.nil_prefix
  obtain ⟨more, hmore⟩ := hcomparison
  obtain ⟨last, hlast⟩ := (gapAt_cases (comparisonAt text) more).1
  have hblank : blankAt text = gapAt (comparisonAt text) more := by rw [blankAt, drop_of hmore]
  have hversion : versionAt text = last.takeWhile isVersionChar := by
    rw [versionAt, ← List.drop_drop, drop_of hmore, hblank, drop_of hlast]
  refine ⟨last.dropWhile isVersionChar, ?_, fun c hc => ?_⟩
  · rw [foundAt, hversion, List.append_assoc, List.takeWhile_append_dropWhile, List.append_assoc,
      hblank, hlast, hmore]
  · have hhead := List.head?_dropWhile_not isVersionChar last
    rw [Option.mem_def.mp hc] at hhead
    simpa using hhead

/-! ### The scan -/

theorem scanAtFuel_cons (fuel offset : Nat) (c : Char) (cs : List Char) :
    scanAtFuel (fuel + 1) offset (c :: cs) =
      if (versionAt (c :: cs)).isEmpty then scanAtFuel fuel (offset + c.utf8Size) cs
      else
        let length := (comparisonAt (c :: cs)).length + (blankAt (c :: cs)).length +
          (versionAt (c :: cs)).length
        let stop := offset + byteLength ((c :: cs).take length)
        ⟨if (comparisonAt (c :: cs)).isEmpty then none
          else some (String.ofList (comparisonAt (c :: cs))),
          String.ofList (versionAt (c :: cs)), ⟨offset, stop⟩⟩ ::
            scanAtFuel fuel stop ((c :: cs).drop length) := rfl

/-- Where no version begins, a character is passed over. -/
theorem scanAtFuel_miss (h : versionAt (c :: cs) = []) (fuel offset : Nat) :
    scanAtFuel (fuel + 1) offset (c :: cs) = scanAtFuel fuel (offset + c.utf8Size) cs := by
  rw [scanAtFuel_cons, if_pos (List.isEmpty_iff.mpr h)]

/-- The version that is found with a comparison, or with none, at a place. -/
def ofParts (comparison version : List Char) (span : Span) : VersionLiteral :=
  ⟨if comparison.isEmpty then none else some (String.ofList comparison), String.ofList version, span⟩

/-- Where a version begins, it is found, and the scan goes on behind it. -/
theorem scanAtFuel_hit (h : versionAt (c :: cs) ≠ [])
    (hafter : c :: cs = foundAt (c :: cs) ++ after) (fuel offset : Nat) :
    scanAtFuel (fuel + 1) offset (c :: cs) =
      ofParts (comparisonAt (c :: cs)) (versionAt (c :: cs))
          ⟨offset, offset + byteLength (foundAt (c :: cs))⟩ ::
        scanAtFuel fuel (offset + byteLength (foundAt (c :: cs))) after := by
  have hlength : (comparisonAt (c :: cs)).length + (blankAt (c :: cs)).length +
      (versionAt (c :: cs)).length = (foundAt (c :: cs)).length := by
    rw [foundAt, List.length_append, List.length_append]
  have htake : (c :: cs).take (foundAt (c :: cs)).length = foundAt (c :: cs) :=
    (List.prefix_iff_eq_take.mp ⟨after, hafter.symm⟩).symm
  have hdrop : (c :: cs).drop (foundAt (c :: cs)).length = after := by
    conv => lhs; arg 2; rw [hafter]
    exact List.drop_left
  rw [scanAtFuel_cons, if_neg (fun hnil => h (List.isEmpty_iff.mp hnil)), hlength]
  simp only [htake, hdrop]
  rfl

/-- The scan of `pre ++ rest` may come to `rest`: what is before it ended a version or was passed
over. -/
def Ready (pre rest : List Char) : Prop :=
  ∀ c ∈ pre.getLast?, isVersionChar c = true ∧ (∀ d ∈ rest.head?, isVersionChar d = false) ∨
    versionAt (c :: rest) = []

/-- Where the scan finds a version, it could not be longer, nor begin earlier. -/
theorem Ready.picks (h : Ready pre rest) (hversion : versionAt rest ≠ [])
    (hrest : rest = foundAt rest ++ after)
    (hafter : ∀ c ∈ after.head?, isVersionChar c = false) :
    Picks (pre ++ rest) pre (comparisonAt rest) (blankAt rest) (versionAt rest) after := by
  obtain ⟨-, hblank, hnone⟩ :=
    gapAt_cases (comparisonAt rest) (rest.drop (comparisonAt rest).length)
  constructor
  case text_eq =>
    conv => lhs; rw [hrest]
    rw [List.append_assoc, foundAt]
  case version_ne_nil => exact hversion
  case version_chars => exact fun c hc => List.all_eq_true.mp List.all_takeWhile c hc
  case gap_blank => exact hblank
  case comparison_mem =>
    rcases comparisonAt_cases rest with ⟨hmem, -⟩ | ⟨hnil, -⟩
    · exact .inl hmem
    · exact .inr ⟨hnil, hnone hnil⟩
  case stops => exact hafter
  case starts =>
    intro hnil c hc
    cases hchar : isVersionChar c with
    | false => rfl
    | true =>
      exfalso
      rcases h c hc with ⟨-, hhead⟩ | hmiss
      · rw [versionAt_of_nil hnil] at hversion
        cases rest with
        | nil => exact hversion rfl
        | cons d rest => exact hversion (List.takeWhile_cons_of_neg (by simp [hhead d rfl]))
      · exact versionAt_cons_of_isVersionChar hchar rest hmiss
  case longest =>
    intro c hc hmem
    rcases h c hc with ⟨hchar, -⟩ | hmiss
    · rw [not_isVersionChar_of_mem hmem (.head _)] at hchar
      cases hchar
    · exact versionAt_cons_of_mem hmem hversion hmiss

/-- What is behind a version is not passed over in its middle. -/
theorem ready_append_found (hversion : versionAt rest ≠ [])
    (hafter : ∀ c ∈ after.head?, isVersionChar c = false) : Ready (pre ++ foundAt rest) after := by
  intro c hc
  have hlast : c ∈ versionAt rest := by
    rw [foundAt, ← List.append_assoc, List.getLast?_append,
      List.getLast?_eq_some_getLast hversion] at hc
    exact Option.mem_some.mp hc ▸ List.getLast_mem hversion
  exact .inl ⟨List.all_eq_true.mp List.all_takeWhile c hlast, hafter⟩

/-- What the scan finds is a version that could not be longer. -/
theorem exists_picks_of_mem {fuel offset : Nat} {v : VersionLiteral} (hready : Ready pre rest)
    (h : v ∈ scanAtFuel fuel (offset + byteLength pre) rest) :
    ∃ before comparison gap version after,
      Picks (pre ++ rest) before comparison gap version after ∧
        v = ofParts comparison version ⟨offset + byteLength before,
          offset + byteLength before + byteLength (comparison ++ gap ++ version)⟩ := by
  induction fuel generalizing pre rest with
  | zero => cases h
  | succ fuel ih =>
    cases rest with
    | nil => cases h
    | cons c cs =>
      by_cases hversion : versionAt (c :: cs) = []
      · have hready' : Ready (pre ++ [c]) cs := by
          intro d hd
          rw [List.getLast?_concat] at hd
          cases hd
          exact .inr hversion
        rw [List.append_cons]
        refine ih hready' ?_
        rw [scanAtFuel_miss hversion] at h
        rw [Text.byteLength_append, ← Nat.add_assoc]
        exact h
      · obtain ⟨after, hrest, hafter⟩ := exists_after (c :: cs)
        rw [scanAtFuel_hit hversion hrest] at h
        rcases List.mem_cons.mp h with rfl | h
        · exact ⟨_, _, _, _, _, hready.picks hversion hrest hafter, rfl⟩
        · have hready' : Ready (pre ++ foundAt (c :: cs)) after :=
            ready_append_found hversion hafter
          have hlater := ih hready' (by rwa [Text.byteLength_append, ← Nat.add_assoc])
          rwa [List.append_assoc, ← hrest] at hlater

theorem exists_picks {offset : Nat} {v : VersionLiteral} (h : v ∈ scan offset text) :
    ∃ before comparison gap version after,
      Picks text before comparison gap version after ∧
        v = ofParts comparison version ⟨offset + byteLength before,
          offset + byteLength before + byteLength (comparison ++ gap ++ version)⟩ := by
  have hready : Ready [] text := nofun
  exact exists_picks_of_mem hready h

end VersionLiteral

end SolidityParser
