import SolidityParser.Proofs.Grammar.Enclosure
import SolidityParser.Proofs.Grammar.Entry

/-!
# Broken bodies stay in their functions

`Grammar.parseUnits_contained`: a contract whose functions have bodies of arbitrary tokens is
parsed with tolerance to a contract with just these functions, each body ending at the brace that
follows its tokens. All that is asked of a body is `SelfContained`: its braces match, the input does
not end in it, and no member of a contract seems to begin in it.

The bodies are enclosed in the sense of `Enclosed`, so `block_reads` reads each of them; the tokens
around them are read one after the other.
-/

namespace SolidityParser

open Grammar (atMember)

/-! ### Tokens of a list -/

namespace Lexemes

variable {lexemes : Lexemes} {before after : List Lexeme} {k : Kind} {n : Nat}

/-- The words of a list. -/
def ofList (words : List Lexeme) : Lexemes := words.toArray

/-- A kind is that of the list of tokens, and past it the end of the input. -/
theorem kindAt_eq_getElem? (lexemes : Lexemes) (i : Nat) :
    lexemes.kindAt i = (lexemes.toList[i]?.map (·.kind)).getD .eof := by
  unfold kindAt
  split
  · next h => simp [h]
  · next h => simp [Nat.le_of_not_lt h]

/-- A text is that of the list, and past it empty. -/
theorem textAt_eq_getElem? (lexemes : Lexemes) (i : Nat) :
    lexemes.textAt i = (lexemes.toList[i]?.map (·.text)).getD "" := by
  unfold textAt
  split
  · next h => simp [h]
  · next h => simp [Nat.le_of_not_lt h]

/-- So it is for an input that is made from words. -/
theorem kindAt_ofList (words : List Lexeme) (i : Nat) :
    (ofList words).kindAt i = (words[i]?.map (·.kind)).getD .eof :=
  kindAt_eq_getElem? _ _

/-- So it is with their texts. -/
theorem textAt_ofList (words : List Lexeme) (i : Nat) :
    (ofList words).textAt i = (words[i]?.map (·.text)).getD "" :=
  textAt_eq_getElem? _ _

/-- The kinds after a part of the input are those of the rest. -/
theorem kindAt_append (h : lexemes.toList = before ++ after) (n : Nat) :
    lexemes.kindAt (before.length + n) = (ofList after).kindAt n := by
  rw [kindAt_eq_getElem?, kindAt_ofList, h, List.getElem?_append_right (Nat.le_add_right _ _),
    Nat.add_sub_cancel_left]

/-- The spellings after a part of the input are those of the rest. -/
theorem textAt_append (h : lexemes.toList = before ++ after) (n : Nat) :
    lexemes.textAt (before.length + n) = (ofList after).textAt n := by
  rw [textAt_eq_getElem?, textAt_ofList, h, List.getElem?_append_right (Nat.le_add_right _ _),
    Nat.add_sub_cancel_left]

/-- Tokens of a kind are counted in what stands before and in what comes after. -/
theorem count_append (h : lexemes.toList = before ++ after) (n : Nat) :
    lexemes.count k (before.length + n) =
      lexemes.count k before.length + (after.take n).countP (·.kind == k) := by
  rw [count, count, h, List.take_length_add_append, List.take_left, List.countP_append]

end Lexemes

/-! ### Bodies -/

/-- Tokens that recovery keeps in the body of a function: braces match, the input does not end, and
no member begins. -/
structure SelfContained (body : List Lexeme) : Prop where
  /-- The input does not end in the body. -/
  no_eof : ∀ lexeme ∈ body, lexeme.kind ≠ .eof
  /-- No brace is closed that is not opened before. -/
  braces_le : ∀ n ≤ body.length, (body.take n).countP (·.kind == .rbrace) ≤
    (body.take n).countP (·.kind == .lbrace)
  /-- Every brace is closed. -/
  braces_eq : body.countP (·.kind == .rbrace) = body.countP (·.kind == .lbrace)
  /-- No member begins in the body. -/
  no_member : ∀ i < body.length, atMember (.ofList body) i = false

instance (body : List Lexeme) : Decidable (SelfContained body) :=
  decidable_of_iff
    ((∀ lexeme ∈ body, lexeme.kind ≠ .eof) ∧
      (∀ n ≤ body.length, (body.take n).countP (·.kind == .rbrace) ≤
        (body.take n).countP (·.kind == .lbrace)) ∧
      body.countP (·.kind == .rbrace) = body.countP (·.kind == .lbrace) ∧
      ∀ i < body.length, atMember (.ofList body) i = false)
    ⟨fun ⟨h, h', h'', h'''⟩ => ⟨h, h', h'', h'''⟩, fun ⟨h, h', h'', h'''⟩ => ⟨h, h', h'', h'''⟩⟩

section Bodies

variable {lexemes : Lexemes} {before body rest : List Lexeme} {brace : Lexeme}

/-- What is looked at from inside a body is inside, unless it is the closing brace or comes after
it. -/
private theorem kindAt_body (h : lexemes.toList = before ++ (body ++ brace :: rest))
    (hbrace : brace.kind = .rbrace) {n : Nat} (hn : n ≤ body.length)
    (hk : lexemes.kindAt (before.length + n) ≠ .rbrace) :
    n < body.length ∧ (Lexemes.ofList body).kindAt n = lexemes.kindAt (before.length + n) := by
  rw [Lexemes.kindAt_append h] at hk ⊢
  rcases Nat.eq_or_lt_of_le hn with rfl | hlt
  · simp [Lexemes.kindAt_ofList, hbrace] at hk
  · exact ⟨hlt, by simp [Lexemes.kindAt_ofList, List.getElem?_append_left, hlt]⟩

/-- The brace after a body makes no member begin in it. -/
theorem atMember_body (h : lexemes.toList = before ++ (body ++ brace :: rest))
    (hbrace : brace.kind = .rbrace) {i : Nat} (hi : i < body.length)
    (hmember : atMember lexemes (before.length + i) = true) :
    atMember (.ofList body) i = true := by
  have hkind : (Lexemes.ofList body).kindAt i = lexemes.kindAt (before.length + i) := by
    rw [Lexemes.kindAt_append h]
    simp [Lexemes.kindAt_ofList, List.getElem?_append_left, hi]
  have htext : (Lexemes.ofList body).textAt i = lexemes.textAt (before.length + i) := by
    rw [Lexemes.textAt_append h]
    simp [Lexemes.textAt_ofList, List.getElem?_append_left, hi]
  have hnext {n : Nat} {k : Kind} (hn : i + n ≤ body.length)
      (hk : lexemes.kindAt (before.length + i + n) = k) (hne : k ≠ .rbrace) :
      i + n < body.length ∧ (Lexemes.ofList body).kindAt (i + n) = k := by
    rw [Nat.add_assoc] at hk
    obtain ⟨hlt, he⟩ := kindAt_body h hbrace hn (by rw [hk]; exact hne)
    exact ⟨hlt, he.trans hk⟩
  have hcall (hmember : (lexemes.kindAt (before.length + i + 1) == .lparen &&
      lexemes.kindAt (before.length + i + 2) == .rparen &&
      Grammar.isAttribute (lexemes.kindAt (before.length + i + 3))) = true) :
      ((Lexemes.ofList body).kindAt (i + 1) == .lparen &&
        (Lexemes.ofList body).kindAt (i + 2) == .rparen &&
        Grammar.isAttribute ((Lexemes.ofList body).kindAt (i + 3))) = true := by
    simp only [Bool.and_eq_true, beq_iff_eq] at hmember
    obtain ⟨⟨hopen, hclose⟩, hattribute⟩ := hmember
    obtain ⟨hlt, hopen⟩ := hnext (n := 1) hi hopen (by decide)
    obtain ⟨hlt, hclose⟩ := hnext (n := 2) hlt hclose (by decide)
    obtain ⟨-, hlast⟩ := hnext (n := 3) hlt rfl fun he => by rw [he] at hattribute; cases hattribute
    rw [hopen, hclose, hlast, hattribute]
    rfl
  unfold atMember at hmember ⊢
  simp only [Nat.add_zero, hkind, htext] at hmember ⊢
  split at hmember
  · obtain ⟨-, hident⟩ := hnext (n := 1) hi (eq_of_beq hmember) (by decide)
    rw [hident]
    rfl
  · split at hmember
    · exact hcall hmember
    · exact hcall hmember
    · simp only [Bool.and_eq_true, beq_iff_eq] at hmember
      obtain ⟨hname, hopen⟩ := hmember
      obtain ⟨hlt, hname⟩ := hnext (n := 1) hi hname (by decide)
      obtain ⟨-, hopen⟩ := hnext (n := 2) hlt hopen (by decide)
      simp [hname, hopen]
    · cases hmember
  · exact hmember

/-- A self-contained body before a brace is the inside of a pair of braces. -/
theorem SelfContained.enclosed (hbody : SelfContained body)
    (h : lexemes.toList = before ++ (body ++ brace :: rest)) (hbrace : brace.kind = .rbrace) :
    Enclosed lexemes before.length (before.length + body.length) where
  le := Nat.le_add_right _ _
  closing := by
    rw [Lexemes.kindAt_append h]
    simp [Lexemes.kindAt_ofList, hbrace]
  quiet := by
    intro i hi hi'
    obtain ⟨n, rfl⟩ := Nat.exists_eq_add_of_le hi
    have hn : n < body.length := by omega
    constructor
    · rw [Lexemes.kindAt_append h]
      simpa [Lexemes.kindAt_ofList, List.getElem?_append_left, hn] using
        hbody.no_eof _ (List.getElem_mem hn)
    · cases hmember : atMember lexemes (before.length + n) with
      | false => rfl
      | true => rw [← hbody.no_member n hn, atMember_body h hbrace hn hmember]
  closes_le := by
    intro m hm hm'
    obtain ⟨n, rfl⟩ := Nat.exists_eq_add_of_le hm
    have hn : n ≤ body.length := by omega
    have hle := hbody.braces_le n hn
    unfold Lexemes.opens Lexemes.closes
    rw [Lexemes.count_append h, Lexemes.count_append h, List.take_append_of_le_length hn]
    omega
  closes_eq := by
    have heq := hbody.braces_eq
    unfold Lexemes.opens Lexemes.closes
    rw [Lexemes.count_append h, Lexemes.count_append h, List.take_left]
    omega

end Bodies

/-! ### A contract of functions -/

/-- The token of a keyword or symbol. -/
def Lexeme.of (kind : Kind) : Lexeme := ⟨kind, kind.text⟩

@[simp] theorem Lexeme.kind_of (kind : Kind) : (Lexeme.of kind).kind = kind := rfl

/-- A function without parameters, with a body of any tokens. -/
def functionWords (name : String) (body : List Lexeme) : List Lexeme :=
  [.of .kwFunction, ⟨.ident, name⟩, .of .lparen, .of .rparen, .of .lbrace] ++
    (body ++ [.of .rbrace])

/-- A contract of such functions, given by their names and bodies. -/
def contractWords (name : String) (functions : List (String × List Lexeme)) : List Lexeme :=
  [.of .kwContract, ⟨.ident, name⟩, .of .lbrace] ++
    (functions.flatMap (fun function => functionWords function.1 function.2) ++ [.of .rbrace])

/-- The members are the functions, in order, the first of which begins at `start`; the body of each
ends with the brace that follows its tokens. -/
def MembersAt : Nat → List (String × List Lexeme) → List (ContractPart .parsed) → Prop
  | _, [], members => members = []
  | start, (name, body) :: functions, members =>
    ∃ statements more,
      members = .function ⟨⟨start, start + body.length + 6⟩, name, [], none, {},
        some (.mk ⟨start + 4, start + body.length + 6⟩ statements)⟩ :: more ∧
      MembersAt (start + body.length + 6) functions more

namespace Grammar

open SolidityParser.Parser (Reads)

section Member

variable {inner : Inner} (hi : inner.Built) (hmoves : inner.statement.Moves []) {scope : Scope}
  {i close : Nat}

/-- No attribute stands before an opening brace. -/
theorem functionAttributes_reads_none (h : scope.lexemes.kindAt i = .lbrace) :
    Reads scope i (functionAttributes inner) {} i := by
  have hvisibility : Reads scope i visibility? none i := by
    refine Reads.kind.bind ?_
    rw [h]
    exact .pure
  have hmutability : Reads scope i mutability? none i := by
    refine Reads.kind.bind ?_
    rw [h]
    exact .pure
  have hne {k : Kind} (hk : .lbrace ≠ k) : scope.lexemes.kindAt i ≠ k := by rwa [h]
  exact .iterate_none <| hvisibility.bind <| hmutability.bind <| .eatElse (hne (by decide)) <|
    .eatElse (hne (by decide)) <| .kindElse (hne (by decide)) .pure

include hi hmoves

/-- A function is read as a member, with its body, where one begins. -/
theorem contractPart_reads (htolerant : scope.tolerant = true)
    (hspeculative : scope.speculative = false) (hfunction : scope.lexemes.kindAt i = .kwFunction)
    (hname : scope.lexemes.kindAt (i + 1) = .ident)
    (hopen : scope.lexemes.kindAt (i + 2) = .lparen)
    (hshut : scope.lexemes.kindAt (i + 3) = .rparen)
    (hbrace : scope.lexemes.kindAt (i + 4) = .lbrace) (h : Enclosed scope.lexemes (i + 5) close) :
    ∃ statements, (contractPart inner).Reads scope i
      (.function ⟨⟨i, close + 1⟩, scope.lexemes.textAt (i + 1), [], none, {},
        some (.mk ⟨i + 4, close + 1⟩ statements)⟩) (close + 1) := by
  have hrec : Scope.recovers { scope with inBody := true } = true := by
    simp [Scope.recovers, htolerant, hspeculative]
  obtain ⟨statements, hblock⟩ := block_reads hi.statement hi.ends hmoves hrec hbrace h
  have hbody : Reads scope (i + 4) (functionBody inner) _ (close + 1) := hblock
  refine ⟨statements, .named <| .later (.provided ?_) <| .first <| .within <|
    .opening hfunction <| .ofParser ?_⟩
  · simp [hfunction, hname]
  · have hparameters : Reads scope (i + 2) (parameters inner.typeName) [] (i + 4) :=
      .bind (.expect (by decide) hopen) <| .within <| .eatIf (by decide) hshut .pure
    have hrest : Reads scope (i + 2) (functionRest inner i (scope.lexemes.textAt (i + 1)))
        ⟨⟨i, close + 1⟩, scope.lexemes.textAt (i + 1), [], none, {},
          some (.mk ⟨i + 4, close + 1⟩ statements)⟩ (close + 1) :=
      .bind hparameters <| .bind (functionAttributes_reads_none hbrace) <|
        .bind (.eatElse (by rw [hbrace]; decide) .pure) <|
        .bind (.eatElse (by rw [hbrace]; decide) (.map hbody)) <| .bind .extentFrom .pure
    exact .bind .position <| .bind (.advance (by rw [hfunction]; decide)) <|
      .kindElse (by rw [hname]; decide) <| .bind (.expectIdent hname) <| .bind hrest .pure

/-- A function with a self-contained body is read, wherever it stands. -/
theorem functionWords_reads (htolerant : scope.tolerant = true)
    (hspeculative : scope.speculative = false) {name : String} {body before rest : List Lexeme}
    (hbody : SelfContained body)
    (hwords : scope.lexemes.toList = before ++ (functionWords name body ++ rest)) :
    ∃ statements, (contractPart inner).Reads scope before.length
      (.function ⟨⟨before.length, before.length + body.length + 6⟩, name, [], none, {},
        some (.mk ⟨before.length + 4, before.length + body.length + 6⟩ statements)⟩)
      (before.length + body.length + 6) := by
  have hheader (n : Nat) (word : Lexeme) (hword : (functionWords name body)[n]? = some word)
      (hn : n < 5) :
      scope.lexemes.kindAt (before.length + n) = word.kind ∧
        scope.lexemes.textAt (before.length + n) = word.text := by
    rw [Lexemes.kindAt_append hwords, Lexemes.textAt_append hwords, Lexemes.kindAt_ofList,
      Lexemes.textAt_ofList, List.getElem?_append_left (by simp [functionWords]; omega), hword]
    exact ⟨rfl, rfl⟩
  have hinside :
      Enclosed scope.lexemes (before.length + 5) (before.length + 5 + body.length) := by
    have hsplit : scope.lexemes.toList =
        (before ++ [.of .kwFunction, ⟨.ident, name⟩, .of .lparen, .of .rparen, .of .lbrace]) ++
          (body ++ .of .rbrace :: rest) := by
      simpa [functionWords] using hwords
    simpa using hbody.enclosed hsplit (Lexeme.kind_of _)
  obtain ⟨hident, hname⟩ := hheader 1 _ rfl (by decide)
  obtain ⟨statements, hpart⟩ := contractPart_reads hi hmoves htolerant hspeculative
    (hheader 0 _ rfl (by decide)).1 hident (hheader 2 _ rfl (by decide)).1
    (hheader 3 _ rfl (by decide)).1 (hheader 4 _ rfl (by decide)).1 hinside
  have hstop : before.length + 5 + body.length + 1 = before.length + body.length + 6 := by omega
  rw [hstop, hname] at hpart
  exact ⟨statements, hpart⟩

/-- The functions of a contract are read one after the other, up to the brace that closes it. -/
theorem collect_members (htolerant : scope.tolerant = true)
    (hspeculative : scope.speculative = false) (functions : List (String × List Lexeme))
    (hbodies : ∀ function ∈ functions, SelfContained function.2) (before rest : List Lexeme)
    (hwords : scope.lexemes.toList = before ++
      (functions.flatMap (fun function => functionWords function.1 function.2) ++
        .of .rbrace :: rest)) {fuel : Nat} (hfuel : functions.length < fuel) :
    ∃ members, MembersAt before.length functions members ∧
      Reads scope before.length (Parser.collectAtFuel (nextPart? inner) fuel) members
        (before.length +
          (functions.flatMap fun function => functionWords function.1 function.2).length + 1) := by
  induction functions generalizing before fuel with
  | nil =>
    obtain ⟨fuel, rfl⟩ := Nat.exists_eq_succ_of_ne_zero (Nat.ne_of_gt hfuel)
    have hclose : scope.lexemes.kindAt before.length = .rbrace := by
      simpa [Lexemes.kindAt_ofList] using Lexemes.kindAt_append hwords 0
    exact ⟨[], rfl, .bind (.eatIf (by decide) hclose .pure) .pure⟩
  | cons function functions ih =>
    obtain ⟨name, body⟩ := function
    obtain ⟨fuel, rfl⟩ := Nat.exists_eq_succ_of_ne_zero (Nat.ne_of_gt (Nat.zero_lt_of_lt hfuel))
    rw [List.flatMap_cons, List.append_assoc] at hwords
    obtain ⟨statements, hpart⟩ := functionWords_reads hi hmoves htolerant hspeculative
      (hbodies (name, body) List.mem_cons_self) hwords
    obtain ⟨members, hmembers, hreads⟩ := ih
      (fun function hmem => hbodies function (List.mem_cons_of_mem _ hmem))
      (before ++ functionWords name body) (by simpa using hwords) (Nat.lt_of_succ_lt_succ hfuel)
    have hlength :
        (before ++ functionWords name body).length = before.length + body.length + 6 := by
      simp [functionWords]
      omega
    rw [hlength] at hmembers hreads
    have hfunction : scope.lexemes.kindAt before.length ≠ .rbrace := by
      have hkind := Lexemes.kindAt_append hwords 0
      rw [Nat.add_zero] at hkind
      simp [hkind, Lexemes.kindAt_ofList, functionWords]
    have hnext : Reads scope before.length (nextPart? inner) _ (before.length + body.length + 6) :=
      .eatElse hfunction (.map (.finish hpart))
    refine ⟨_, ⟨statements, members, rfl, hmembers⟩, .bind hnext (.bind ?_ .pure)⟩
    have hend : before.length + body.length + 6 +
        (functions.flatMap fun function => functionWords function.1 function.2).length + 1 =
        before.length + (((name, body) :: functions).flatMap
          fun function => functionWords function.1 function.2).length + 1 := by
      simp [functionWords]
      omega
    rwa [hend] at hreads

omit hi hmoves in
/-- Each function has at least one word. -/
private theorem length_le_flatMap (functions : List (String × List Lexeme)) :
    functions.length ≤
      (functions.flatMap fun function => functionWords function.1 function.2).length := by
  induction functions with
  | nil => exact Nat.le_refl _
  | cons function functions ih =>
    have hpos : 0 < (functionWords function.1 function.2).length := by simp [functionWords]
    rw [List.flatMap_cons, List.length_append, List.length_cons]
    omega

/-- A contract of such functions is read with all of them. -/
theorem contract_reads (htolerant : scope.tolerant = true)
    (hspeculative : scope.speculative = false) (name : String)
    (functions : List (String × List Lexeme))
    (hbodies : ∀ function ∈ functions, SelfContained function.2) {rest : List Lexeme}
    (hwords : scope.lexemes.toList = contractWords name functions ++ rest) :
    ∃ members, MembersAt 3 functions members ∧
      (contract inner).Reads scope 0
        ⟨⟨0, (contractWords name functions).length⟩, name, .contract, false, [], members⟩
        (contractWords name functions).length := by
  have hcontract : scope.lexemes.kindAt 0 = .kwContract := by
    simp [Lexemes.kindAt_eq_getElem?, hwords, contractWords]
  have hident : scope.lexemes.kindAt 1 = .ident := by
    simp [Lexemes.kindAt_eq_getElem?, hwords, contractWords]
  have hname : scope.lexemes.textAt 1 = name := by
    simp [Lexemes.textAt_eq_getElem?, hwords, contractWords]
  have hbrace : scope.lexemes.kindAt 2 = .lbrace := by
    simp [Lexemes.kindAt_eq_getElem?, hwords, contractWords]
  have hfuel : functions.length < scope.lexemes.size - 3 + 1 := by
    have hsize : scope.lexemes.size = scope.lexemes.toList.length := rfl
    have hle := length_le_flatMap functions
    rw [hsize, hwords]
    simp [contractWords] at hle ⊢
    omega
  obtain ⟨members, hmembers, hreads⟩ := collect_members hi hmoves htolerant hspeculative functions
    hbodies [.of .kwContract, ⟨.ident, name⟩, .of .lbrace] rest
    (by simpa [contractWords] using hwords) hfuel
  have hcollect : Reads scope 3 (Parser.collect (nextPart? inner)) members
      (contractWords name functions).length := by
    have hlength : (contractWords name functions).length = 3 +
        (functions.flatMap fun function => functionWords function.1 function.2).length + 1 := by
      simp [contractWords]
      omega
    rw [hlength]
    exact fun trail => hreads trail
  have hkind : Reads scope 0 contractKind .contract 1 := .eatIf (by decide) hcontract .pure
  have hbody : Reads scope 0 (contractBody inner)
      ⟨⟨0, (contractWords name functions).length⟩, name, .contract, false, [], members⟩
      (contractWords name functions).length := by
    have hidentifier := Reads.expectIdent hident
    rw [hname] at hidentifier
    exact .bind .position <| .bind (.eat_not (by rw [hcontract]; decide)) <| .bind hkind <|
      .bind hidentifier <| .bind (.eatElse (by rw [hbrace]; decide) .pure) <|
      .bind (.expect (by decide) hbrace) <| .bind hcollect <| .bind .extentFrom .pure
  refine ⟨members, hmembers, fun trail => ?_⟩
  unfold contract
  rw [if_pos (by rw [hcontract]; decide)]
  exact Rule.Reads.within (.ofParser hbody) trail

end Member

/-- A unit after which the input ends is the only one. -/
theorem units_reads_one {inner : Inner} {scope : Scope} {unit : SourceUnit .parsed} {j : Nat}
    (hunit : (sourceUnit inner).Reads scope 0 unit j)
    (hfirst : scope.lexemes.kindAt 0 ≠ .eof) (hlast : scope.lexemes.kindAt j = .eof) :
    Reads scope 0 (units inner) [unit] j := by
  have hnext : Reads scope 0 (nextUnit? inner) (some unit) j :=
    .bind (.check_not hfirst) (.map (.finish hunit))
  have hend : Reads scope j (nextUnit? inner) none j := .bind (.check hlast) .pure
  have hloop (fuel : Nat) :
      Reads scope 0 (Parser.collectAtFuel (nextUnit? inner) (fuel + 2)) [unit] j :=
    .bind hnext <| .bind (.bind hend .pure) .pure
  obtain ⟨fuel, hfuel⟩ : ∃ fuel, scope.lexemes.size - 0 + 1 = fuel + 2 :=
    ⟨scope.lexemes.size - 1, by have := Lexemes.lt_size_of_kindAt hfirst; omega⟩
  rw [units_eq]
  intro trail
  obtain ⟨trail', hrun⟩ := hloop fuel trail
  rw [← hfuel] at hrun
  exact ⟨trail', hrun⟩

/-- A contract of functions with self-contained bodies is parsed with tolerance, whatever stands in
the bodies: its members are the functions, in order, and the body of each ends with the brace that
follows its tokens. -/
theorem parseUnits_contained (name : String) (functions : List (String × List Lexeme))
    (hbodies : ∀ function ∈ functions, SelfContained function.2) :
    ∃ members,
      parseUnits (.ofList (contractWords name functions ++ [⟨.eof, ""⟩])) true =
        .ok [.contract ⟨⟨0, (contractWords name functions).length⟩, name, .contract, false, [],
          members⟩] ∧
      MembersAt 3 functions members := by
  generalize hlexemes : Lexemes.ofList (contractWords name functions ++ [⟨.eof, ""⟩]) = lexemes
  have hwords : lexemes.toList = contractWords name functions ++ [⟨.eof, ""⟩] := by
    rw [← hlexemes]
    rfl
  let scope : Scope := { lexemes, tolerant := true }
  obtain ⟨members, hmembers, hcontract⟩ := contract_reads (Inner.built_ofLexemes lexemes)
    (statement_moves (Inner.built_upTo lexemes.size)) (show scope.tolerant = true from rfl)
    rfl name functions hbodies hwords
  have hfirst : lexemes.kindAt 0 = .kwContract := by
    simp [Lexemes.kindAt_eq_getElem?, hwords, contractWords]
  have hlast : lexemes.kindAt (contractWords name functions).length = .eof := by
    simp [Lexemes.kindAt_eq_getElem?, hwords]
  have hne {k : Kind} (hk : .kwContract ≠ k) : scope.lexemes.kindAt 0 ≠ k := by rwa [hfirst]
  have hpragma : pragmaDirective.Misses scope 0 := .within (.opening (hne (by decide)))
  have himport : importDirective.Misses scope 0 := .within (.opening (hne (by decide)))
  have hunit : (sourceUnit (Inner.ofLexemes lexemes)).Reads scope 0
      (.contract ⟨⟨0, (contractWords name functions).length⟩, name, .contract, false, [],
        members⟩) (contractWords name functions).length :=
    .named <| .later hpragma <| .later (.map himport) <| .first (.map hcontract)
  obtain ⟨trail, hrun⟩ := units_reads_one hunit (hne (by decide)) hlast {}
  refine ⟨members, ?_, hmembers⟩
  unfold parseUnits run
  rw [hrun]

/-- Two functions with an open parenthesis, a stray bracket and an invalid token in their
bodies. -/
def brokenFunctions : List (String × List Lexeme) :=
  [("f", [⟨.ident, "x"⟩, .of .eq, .of .lparen, ⟨.error, "@"⟩, .of .semicolon]),
    ("g", [.of .lbrace, .of .rbracket, .of .rbrace, .of .kwFunction])]

/-- The contract of the two broken functions has just these members. -/
theorem parseUnits_contained_broken :
    (∀ function ∈ brokenFunctions, SelfContained function.2) ∧
      ∃ members,
        parseUnits (.ofList (contractWords "C" brokenFunctions ++ [⟨.eof, ""⟩])) true =
          .ok [.contract ⟨⟨0, 25⟩, "C", .contract, false, [], members⟩] ∧
        MembersAt 3 brokenFunctions members :=
  have hbodies : ∀ function ∈ brokenFunctions, SelfContained function.2 := by decide
  ⟨hbodies, parseUnits_contained "C" brokenFunctions hbodies⟩

end Grammar

end SolidityParser
