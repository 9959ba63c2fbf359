import SolidityParser.Proofs.Lexer.Local

/-!
# Where strings and comments end

What the searches for the end of a string or comment find, in terms of what stands before the end:
a line comment goes on to the next line end (`lineCommentEnd_append_of`), a block comment to the
first closing delimiter (`blockCommentEnd?_eq_some_iff`), a string to the first quote that no
backslash takes (`stringEnd?_eq_some_iff`).
-/

namespace SolidityParser

/-- The rest of a string after its opening quote: escapes and other characters that end nothing, and
then the quote. -/
inductive Text.IsStringBody (quote : Char) : List Char → Prop
  | close : IsStringBody quote [quote]
  | escape (c : Char) {body : List Char} (rest : IsStringBody quote body) :
      IsStringBody quote ('\\' :: c :: body)
  | plain {c : Char} {body : List Char} (stop : Delimiter.isStop quote c = false)
      (rest : IsStringBody quote body) : IsStringBody quote (c :: body)

/-- The quotes are not taken for a backslash or a line end. -/
theorem Pattern.quote_mark {sort : StringKind} {mark : Char} (h : .quote sort mark ∈ Pattern.all) :
    mark ≠ '\\' ∧ Delimiter.isLineEnd mark = false := by
  have hmark : mark = '\x22' ∨ mark = '\x27' := by
    simp [Pattern.all] at h
    grind
  rcases hmark with rfl | rfl <;> decide

namespace Delimiter

open Text (IsStringBody)

variable {text body rest : List Char} {quote : Char} {length : Nat}

/-! ### Line comments -/

/-- A line comment ends in the text. -/
theorem length_take_lineCommentEnd (text : List Char) :
    (text.take (lineCommentEnd text)).length = lineCommentEnd text :=
  List.length_take_of_le (List.takeWhile_sublist _).length_le

/-- There is no line end in the body of a line comment. -/
theorem take_lineCommentEnd (text : List Char) :
    ∀ c ∈ text.take (lineCommentEnd text), isLineEnd c = false := by
  have hbody : text.take (lineCommentEnd text) = text.takeWhile (!isLineEnd ·) :=
    (List.prefix_iff_eq_take.mp (List.takeWhile_prefix _)).symm
  intro c hc
  rw [hbody] at hc
  simpa using List.all_eq_true.mp List.all_takeWhile c hc

/-- A line comment stops only at a line end. -/
theorem drop_lineCommentEnd (text : List Char) :
    ∀ c ∈ (text.drop (lineCommentEnd text)).head?, isLineEnd c = true := by
  have hrest : text.drop (lineCommentEnd text) = text.dropWhile (!isLineEnd ·) := by
    conv => lhs; rw [← @List.takeWhile_append_dropWhile _ (!isLineEnd ·) text]
    exact List.drop_left' (by rw [List.takeWhile_append_dropWhile]; rfl)
  intro c hc
  have hhead := List.head?_dropWhile_not (!isLineEnd ·) text
  rw [hrest] at hc
  rw [Option.mem_def.mp hc] at hhead
  simpa using hhead

/-- A line comment goes on to the next line end. -/
theorem lineCommentEnd_append_of (hbody : ∀ c ∈ body, isLineEnd c = false)
    (hrest : ∀ c ∈ rest.head?, isLineEnd c = true) :
    lineCommentEnd (body ++ rest) = body.length := by
  unfold lineCommentEnd
  rw [List.takeWhile_append_of_pos (by simpa using hbody)]
  cases rest with
  | nil => simp
  | cons c rest => simp [hrest c rfl]

/-! ### Block comments -/

/-- A block comment ends with the first closing delimiter. -/
theorem blockCommentEnd?_eq_some (h : blockCommentEnd? text = some length) :
    ∃ body rest, text = body ++ '*' :: '/' :: rest ∧ length = body.length + 2 ∧
      ¬ ['*', '/'] <:+: body ++ ['*'] := by
  induction text generalizing length with
  | nil => cases h
  | cons star text ih =>
    cases text with
    | nil => cases h
    | cons slash text =>
      simp only [blockCommentEnd?] at h
      split at h
      · next hclose =>
        obtain ⟨rfl, rfl⟩ := hclose
        cases h
        exact ⟨[], text, rfl, rfl, by decide⟩
      · next hopen =>
        obtain ⟨inner, hinner, rfl⟩ := Option.map_eq_some_iff.mp h
        obtain ⟨body, rest, htext, rfl, hfirst⟩ := ih hinner
        refine ⟨star :: body, rest, by rw [htext]; rfl, rfl, fun hinfix => ?_⟩
        rcases List.infix_cons_iff.mp hinfix with hprefix | hinfix
        · -- the delimiter would begin with the first character
          obtain ⟨rfl, hslash⟩ := List.cons_prefix_cons.mp hprefix
          cases body with
          | nil => exact absurd (List.cons_prefix_cons.mp hslash).1 (by decide)
          | cons c body =>
            obtain ⟨rfl, -⟩ := List.cons_prefix_cons.mp hslash
            cases htext
            exact hopen ⟨rfl, rfl⟩
        · exact hfirst hinfix

/-- A body that nothing closes before its own mark ends there. -/
theorem blockCommentEnd?_append_of (hbody : ¬ ['*', '/'] <:+: body ++ ['*']) (rest : List Char) :
    blockCommentEnd? (body ++ '*' :: '/' :: rest) = some (body.length + 2) := by
  induction body with
  | nil => exact if_pos ⟨rfl, rfl⟩
  | cons star body ih =>
    have hopen : ¬ (star = '*' ∧ (body ++ '*' :: '/' :: rest).head? = some '/') := by
      rintro ⟨rfl, hslash⟩
      cases body with
      | nil => cases hslash
      | cons slash body =>
        cases hslash
        exact hbody ⟨[], body ++ ['*'], rfl⟩
    have hrest := ih fun hinfix => hbody (List.infix_cons hinfix)
    rw [List.cons_append]
    generalize body ++ '*' :: '/' :: rest = text at hopen hrest
    cases text with
    | nil => cases hrest
    | cons slash text =>
      simp only [blockCommentEnd?]
      rw [if_neg (fun h => hopen ⟨h.1, congrArg some h.2⟩), hrest]
      simp

/-- A block comment ends with the first closing delimiter. -/
theorem blockCommentEnd?_eq_some_iff : blockCommentEnd? text = some length ↔
    ∃ body rest, text = body ++ '*' :: '/' :: rest ∧ length = body.length + 2 ∧
      ¬ ['*', '/'] <:+: body ++ ['*'] := by
  refine ⟨blockCommentEnd?_eq_some, ?_⟩
  rintro ⟨body, rest, rfl, rfl, hbody⟩
  exact blockCommentEnd?_append_of hbody rest

/-- A block comment is open if it has no closing delimiter. -/
theorem blockCommentEnd?_eq_none_iff :
    blockCommentEnd? text = none ↔ ¬ ['*', '/'] <:+: text := by
  induction text with
  | nil => simp [blockCommentEnd?]
  | cons star text ih =>
    cases text with
    | nil => simp [blockCommentEnd?, List.infix_cons_iff]
    | cons slash text =>
      rw [List.infix_cons_iff, not_or, ← ih]
      simp only [blockCommentEnd?]
      split
      · next hclose => simp [hclose.1, hclose.2, CodeUnit.ofAscii]
      · next hopen =>
        rw [Option.map_eq_none_iff]
        refine (and_iff_right fun hprefix => hopen ?_).symm
        obtain ⟨rfl, hslash⟩ := List.cons_prefix_cons.mp hprefix
        exact ⟨rfl, (List.cons_prefix_cons.mp hslash).1.symm⟩

/-! ### Strings -/

/-- What is found to end is the body of a string. -/
theorem stringBody?_isStringBody (quote : Char) : (text : List Char) → (length : Nat) →
    stringBody? quote text = some length →
      ∃ body rest, text = body ++ rest ∧ length = body.length ∧ IsStringBody quote body
  | c :: cs, length, h => by
    rw [stringBody?_cons] at h
    by_cases hslash : c = CodeUnit.ofAscii '\\'
    · rw [if_pos hslash] at h
      match cs with
      | [] => cases h
      | d :: later =>
        obtain ⟨n, hn, rfl⟩ := Option.map_eq_some_iff.mp h
        obtain ⟨body, rest, rfl, rfl, hbody⟩ := stringBody?_isStringBody quote later n hn
        exact ⟨'\\' :: d :: body, rest, by rw [hslash]; rfl, by simp; omega, .escape d hbody⟩
    · rw [if_neg hslash] at h
      split at h
      · cases h
      · next hline =>
        split at h
        · next hquote =>
          cases h
          exact ⟨[quote], cs, by rw [hquote]; rfl, rfl, .close⟩
        · next hquote =>
          obtain ⟨n, hn, rfl⟩ := Option.map_eq_some_iff.mp h
          obtain ⟨body, rest, rfl, rfl, hbody⟩ := stringBody?_isStringBody quote cs n hn
          have hstop : isStop quote c = false := by
            simp [isStop, hslash, hline, hquote]
          exact ⟨c :: body, rest, rfl, by simp; omega, .plain hstop hbody⟩

/-- The body of a string is found to end, whatever comes after it. -/
theorem stringBody?_append_of (hslash : quote ≠ '\\') (hline : isLineEnd quote = false)
    (hbody : IsStringBody quote body) (rest : List Char) :
    stringBody? quote (body ++ rest) = some body.length := by
  induction hbody with
  | close =>
    have hslash : ¬ quote = CodeUnit.ofAscii '\\' := hslash
    rw [List.singleton_append, stringBody?_cons, if_neg hslash, hline]
    simp
  | escape c _ ih =>
    have hself : '\\' = CodeUnit.ofAscii '\\' := rfl
    rw [List.cons_append, List.cons_append, stringBody?_cons, if_pos hself]
    simp only [ih, Option.map_some, List.length_cons]
    rw [Nat.add_comm]
  | @plain c body hstop _ ih =>
    simp only [isStop, Bool.or_eq_false_iff, beq_eq_false_iff_ne] at hstop
    rw [List.cons_append, stringBody?_cons, if_neg hstop.1.2, hstop.2, if_neg (by decide),
      if_neg hstop.1.1, ih, Option.map_some, List.length_cons, Nat.add_comm]

/-- A string ends in the text. -/
theorem stringEnd?_le (h : stringEnd? quote text = some length) : length ≤ text.length :=
  ((@stringEnd?_append text [] quote length).mp h).2

/-- A string ends with the first quote that no backslash takes. -/
theorem stringEnd?_eq_some_iff (hslash : quote ≠ '\\') (hline : isLineEnd quote = false) :
    stringEnd? quote text = some length ↔
      ∃ body rest, text = body ++ rest ∧ length = body.length ∧ IsStringBody quote body := by
  rw [stringEnd?_eq]
  refine ⟨stringBody?_isStringBody quote text length, ?_⟩
  rintro ⟨body, rest, rfl, rfl, hbody⟩
  exact stringBody?_append_of hslash hline hbody rest

end Delimiter

end SolidityParser
