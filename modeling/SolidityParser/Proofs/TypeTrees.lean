import Mathlib
import SolidityParser.Proofs.Rows
import SolidityParser.Proofs.Slices

/-!
# Type names are read from their words

**Theorem** (`Grammar.typeName_reads_written`): the rule for type names reads each type name from
its words, all of them, up to the places of the nodes. `TypeName.IsWritten` says which words are
those of a type: an array may have any length that a source of its own is read as.

The words of a type stand for it wherever the next word is one that may follow a type
(`Lexemes.ReadsType`), by induction over the tree. The length of an array is a phrase at the end of
its own source, and has to be one before a bracket: a closing bracket is no word that any production
looks ahead for (`Part.Phrased.not_ahead_rbracket`), so the phrase can be moved there.
-/

namespace SolidityParser

/-! ### Ways to write a type -/

/-- The words of a source that is read as an expression. -/
def Expression.IsWritten (e : Expression Unit) (words : List Lexeme) : Prop :=
  ∃ source, (lex source).tokens.lexemes = .ofWords words ∧
    (Source.parseExpression source).map (·.relocate fun _ => ()) = .ok e

namespace Lexeme

/-- The word of a name, if there is one. -/
def ofName (name : Option String) : List Lexeme := name.toList.map (⟨.ident, ·⟩)

/-- Rows with commas between. -/
def separated : List (List Lexeme) → List Lexeme
  | [] => []
  | [row] => row
  | row :: rows => row ++ .of .comma :: separated rows

/-- Rows between parentheses. -/
def enclosed (rows : List (List Lexeme)) : List Lexeme :=
  .of .lparen :: (separated rows ++ [.of .rparen])

/-- The results of a function type, if it has any. -/
def results (rows : List (List Lexeme)) : List Lexeme :=
  if rows = [] then [] else .of .kwReturns :: enclosed rows

end Lexeme

mutual

/-- The words are a way to write the type. -/
inductive TypeName.IsWritten : TypeName Unit → List Lexeme → Prop
  | elementary {name : String} (h : Grammar.isElementary name = true) :
    TypeName.IsWritten (.elementary () name false) [⟨.ident, name⟩]
  | payableAddress : TypeName.IsWritten (.elementary () "address" true) [⟨.ident, "address"⟩, .of .kwPayable]
  | userDefined {first : String} {more : List String} (h : Grammar.isElementary first = false) :
    TypeName.IsWritten (.userDefined () (dotted first more)) (Lexeme.ofPath first more)
  | mapping {key value : TypeName Unit} {keyName valueName : Option String}
      {keyWords valueWords : List Lexeme} (hkey : TypeName.IsWritten key keyWords)
      (hvalue : TypeName.IsWritten value valueWords) :
    TypeName.IsWritten (.mapping () key keyName value valueName)
      (.of .kwMapping :: .of .lparen :: (keyWords ++ (Lexeme.ofName keyName ++ .of .fatArrow ::
        (valueWords ++ (Lexeme.ofName valueName ++ [.of .rparen])))))
  | array {base : TypeName Unit} {baseWords : List Lexeme} (hbase : TypeName.IsWritten base baseWords) :
    TypeName.IsWritten (.array () base none) (baseWords ++ [.of .lbracket, .of .rbracket])
  | arrayOfLength {base : TypeName Unit} {length : Expression Unit}
      {baseWords lengthWords : List Lexeme} (hbase : TypeName.IsWritten base baseWords)
      (hlength : length.IsWritten lengthWords) :
    TypeName.IsWritten (.array () base (some length))
      (baseWords ++ .of .lbracket :: (lengthWords ++ [.of .rbracket]))
  /-- The visibility and the mutability of a function may come in any order. -/
  | function {parameters returns : List (Parameter Unit)} {visibility : Option Visibility}
      {mutability : Option StateMutability} {rows returnRows : List (List Lexeme)}
      {attributes : List Kind} (hparameters : List.Forall₂ Parameter.IsWritten parameters rows)
      (hreturns : List.Forall₂ Parameter.IsWritten returns returnRows)
      (hattributes : attributes = visibility.toList.map (·.kind) ++ mutability.toList.map (·.kind) ∨
        attributes = mutability.toList.map (·.kind) ++ visibility.toList.map (·.kind)) :
    TypeName.IsWritten (.function () parameters returns visibility mutability)
      (.of .kwFunction :: (Lexeme.enclosed rows ++ (attributes.map .of ++ Lexeme.results returnRows)))

/-- The words are a way to write the parameter, which is not `indexed`. -/
inductive Parameter.IsWritten : Parameter Unit → List Lexeme → Prop
  | mk {type : TypeName Unit} {typeWords : List Lexeme} {location : Option StorageLocation}
      {name : Option String} (htype : type.IsWritten typeWords) :
    Parameter.IsWritten (.mk () type location name false)
      (typeWords ++ (location.toList.map (.of ·.kind) ++ Lexeme.ofName name))

end

/-! ### Phrases before a closing bracket -/

/-- No production looks ahead for a closing bracket. -/
theorem Part.Phrased.not_ahead_rbracket {part : Part .parsed} {symbols : List Symbol}
    {tests : Lookahead} (h : part.Phrased symbols) (hno : .no tests ∈ symbols) {lexemes : Lexemes}
    {i : Nat} (hi : lexemes.kindAt i = .rbracket) : ¬ lexemes.Ahead i tests := by
  induction h with
  | unit _ _ ih => exact ih hno
  | path => simp at hno
  | number =>
    obtain rfl : tests = .unit := by simpa using hno
    simp [Lexemes.ahead_unit, hi]
  | string =>
    obtain rfl : tests = .string := by simpa using hno
    simp [Lexemes.ahead_string, hi, Kind.isString]
  | new =>
    obtain rfl : tests = .kinds [.lbracket] := by simpa using hno
    simp [Lexemes.ahead_kind, hi]
  | elementary =>
    obtain ⟨-, rfl⟩ : _ ∧ tests = .kinds [.kwPayable] := by simpa using hno
    simp [Lexemes.ahead_kind, hi]
  | userDefined =>
    obtain rfl : tests = .step := by simpa using hno
    simp [Lexemes.ahead_step, hi]
  | functionType =>
    simp at hno
    rcases hno with rfl | ⟨-, rfl⟩
    · simp [Lexemes.lexemeAt, hi, Kind.isTypeAttribute, Visibility.ofKind?, StateMutability.ofKind?]
    · simp [Lexemes.ahead_kind, hi]
  | _ =>
    simp [Symbol.mem_series, Symbol.mem_separated, Symbol.option, Symbol.location, Symbol.name,
      Symbol.origin, WrittenPath.symbol] at hno

namespace Lexemes

variable {lexemes other : Lexemes} {f : Nat → Nat} {i j k : Nat} {part : Part .parsed}

/-- A phrase is kept with its words, where a closing bracket comes after them. -/
theorem carry_holds_rbracket (h : part.All lexemes.Holds) (hi : i ≤ part.place.first)
    (hj : part.place.next ≤ j) (hkept : ∀ n, i ≤ n → n < j → lexemes.Keeps other f n)
    (hend : other.kindAt (f j) = .rbracket) : (part.relocate (.move f)).All other.Holds := by
  induction part using Part.induction with
  | step part ih =>
    obtain ⟨htight, symbols, hphrased, hspells⟩ := h.here
    refine Part.all_iff.mpr ⟨⟨(Part.tight_relocate _ _).mpr htight, _, hphrased.move, ?_⟩, ?_⟩
    · rw [Part.place_relocate]
      refine hspells.carry (fun n hn hlt _ => hkept n (by omega) (by omega))
        (fun place hplace => ?_) fun front tests rest k hsplit hfront hrest hno hahead => ?_
      · obtain ⟨hfirst, hnext, hcovers⟩ := hspells.part_inside (mem_parts_of_part hplace)
        exact hcovers.carry fun n hn hlt => hkept n (by omega) (by omega)
      · have hmem : .no tests ∈ symbols := hsplit ▸ List.mem_append_right _ (List.mem_cons_self ..)
        have hfirst := hfront.inside.1
        have hnext := hrest.inside.1
        rcases Nat.eq_or_lt_of_le (show k ≤ j by omega) with rfl | hlt
        · exact hphrased.not_ahead_rbracket hmem hend hahead
        have hk := hkept k (by omega) hlt
        rcases hphrased.lookahead hmem with ⟨test, rfl⟩ | rfl
        · exact hno (hk.ahead_singleton.mp hahead)
        · obtain ⟨hdot, hname⟩ := ahead_step.mp hahead
          rw [← hk.next] at hname
          rcases Nat.eq_or_lt_of_le (Nat.succ_le_of_lt hlt) with rfl | hlt'
          · rw [hend] at hname
            cases hname
          · rw [hk.kindAt] at hdot
            rw [(hkept (k + 1) (by omega) hlt').kindAt] at hname
            exact hno (ahead_step.mpr ⟨hdot, hname⟩)
    · rw [Part.fields_relocate, List.forall_mem_map]
      intro field hfield
      rw [List.forall_mem_map]
      intro child hchild
      have hinside := hphrased.outlined.inside hspells hfield hchild
      exact ih field hfield child hchild (h.below hfield hchild) (by omega) (by omega)

end Lexemes

/-- The words of an expression by itself are the expression before a closing bracket too. -/
theorem Expression.IsWritten.isPhrase {lexemes : Lexemes} {e : Expression Unit}
    {words : List Lexeme} {i j : Nat} (h : e.IsWritten words) (hrow : lexemes.HasRow i words j)
    (hj : lexemes.kindAt j = .rbracket) :
    ∃ placed : Expression Extent, placed.relocate (fun _ => ()) = e ∧
      lexemes.IsPhrase i (.expression placed) j ∧ placed.IsWhole := by
  obtain ⟨source, hlex, hparse⟩ := h
  cases hparsed : Source.parseExpression source with
  | error error =>
    rw [hparsed] at hparse
    cases hparse
  | ok located =>
    rw [hparsed] at hparse
    obtain ⟨-, v, n, hphrase, hwhole, hend, rfl⟩ := Source.parseExpression_eq_ok_iff.mp hparsed
    have hcovers := hphrase.covers
    rw [hphrase.place] at hcovers
    obtain rfl := hcovers.eq_length hlex hend
    rw [hlex] at hphrase
    obtain ⟨rfl, hwords⟩ := Lexemes.hasRow_iff.mp hrow
    have hkept (m : Nat) (hm : m < words.length) :
        (Lexemes.ofWords words).Keeps lexemes (i + ·) m :=
      ⟨(hwords m hm).trans (Lexemes.lexemeAt_ofWords hm).symm, rfl⟩
    have hplace : v.place = ⟨0, words.length⟩ := hphrase.place
    refine ⟨v.relocate (Extent.move (i + ·)), ?_, ⟨?_, ?_⟩, ?_⟩
    · rw [Expression.relocate_relocate]
      exact (Expression.relocate_relocate (Source.layout source).span _ v).symm.trans
        (Except.ok.inj hparse)
    · change (v.relocate _).place = _
      rw [Expression.place_relocate, hplace]
      rfl
    · refine Lexemes.carry_holds_rbracket hphrase.holds (i := 0) (j := words.length)
        (Nat.zero_le _) ?_ (fun m _ hm => hkept m hm) hj
      rw [hphrase.place]
    · exact (Expression.isWhole_relocate _ v).mpr hwhole

/-! ### Types that stand where their words do -/

namespace Lexemes

variable {lexemes : Lexemes} {i j : Nat}

/-- A word that may follow a type. -/
def EndsType (lexemes : Lexemes) (j : Nat) : Prop :=
  lexemes.kindAt j ∈ [.kwMemory, .kwStorage, .kwCalldata, .ident, .comma, .rparen, .lbracket,
    .fatArrow, .eof]

/-- Where the words of a type stand, and a word comes next that may follow a type, there stands the
type, once it has places. -/
def ReadsType (lexemes : Lexemes) : Part .bare → Prop
  | .typeName type => ∀ words i j, type.IsWritten words → lexemes.HasRow i words j →
    lexemes.EndsType j → ∃ placed : TypeName Extent, placed.relocate (fun _ => ()) = type ∧
      lexemes.IsPhrase i (.typeName placed) j
  | .parameter parameter => ∀ words i j, parameter.IsWritten words → lexemes.HasRow i words j →
    lexemes.kindAt j = .comma ∨ lexemes.kindAt j = .rparen →
      ∃ placed : Parameter Extent, placed.relocate (fun _ => ()) = parameter ∧
        lexemes.IsPhrase i (.parameter placed) j ∧ placed.isIndexed = false
  | _ => True

namespace EndsType

/-- What may follow a type is no attribute of a function, no results and no step of a path. -/
theorem not_attribute (h : lexemes.EndsType j) : (lexemes.kindAt j).isTypeAttribute = false := by
  have hall : ∀ k ∈ [Kind.kwMemory, .kwStorage, .kwCalldata, .ident, .comma, .rparen, .lbracket,
      .fatArrow, .eof], k.isTypeAttribute = false := by decide
  exact hall _ h

/-- A token that may end a type is of one of a few kinds, so that it is of no other. -/
theorem ne {k : Kind} (h : lexemes.EndsType j) (hk : k ∉ [.kwMemory, .kwStorage, .kwCalldata,
    .ident, .comma, .rparen, .lbracket, .fatArrow, .eof]) : lexemes.kindAt j ≠ k := by
  rintro rfl
  exact hk h

end EndsType

/-- Each of these may. -/
theorem endsType_of_kind {k : Kind} (h : lexemes.kindAt j = k) (hk : k ∈ [Kind.kwMemory,
    .kwStorage, .kwCalldata, .ident, .comma, .rparen, .lbracket, .fatArrow, .eof]) :
    lexemes.EndsType j := by
  rwa [← h] at hk

/-! ### Rows of names -/

/-- The words of a name that may be missing spell it. -/
theorem HasRow.name {name : Option String} (h : lexemes.HasRow i (Lexeme.ofName name) j) :
    lexemes.Spells i (Symbol.name name) j := by
  cases name with
  | none => exact h
  | some name => exact ⟨⟨by decide, h.1⟩, h.2⟩

/-- So do those of a storage location. -/
theorem HasRow.location {location : Option StorageLocation}
    (h : lexemes.HasRow i (location.toList.map (.of ·.kind)) j) :
    lexemes.Spells i (Symbol.location location) j := by
  cases location with
  | none => exact h
  | some location => exact ⟨⟨by cases location <;> decide, h.1.1⟩, h.2⟩

/-- Words that are told by their kinds spell these. -/
theorem HasRow.kinds {kinds : List Kind} (h : lexemes.HasRow i (kinds.map .of) j)
    (hkinds : ∀ k ∈ kinds, k ≠ .eof) : lexemes.Spells i (kinds.map .token) j := by
  induction kinds generalizing i with
  | nil => exact h
  | cons kind kinds ih =>
    obtain ⟨hkind, hkinds⟩ := List.forall_mem_cons.mp hkinds
    exact ⟨⟨hkind, h.1.1⟩, ih h.2 hkinds⟩

/-! ### One case for each kind of type -/

/-- An elementary type is read where its words are. -/
theorem reads_elementary {name : String} {payable : Bool} :
    lexemes.ReadsType (.typeName (.elementary () name payable)) := by
  intro words i j hwritten hrow hend
  cases hwritten with
  | elementary helementary =>
    obtain ⟨⟨hkind, htext⟩, hnext⟩ := hrow
    refine ⟨.elementary ⟨i, j⟩ name false, rfl, .of_written rfl ?_ (.elementary helementary)
      ⟨⟨by decide, hkind, htext⟩, ?_⟩ ?_⟩
    · simp [Part.Tight, Part.fields, Part.typeFields]
    · obtain rfl : i + 1 = j := hnext
      split
      · exact ⟨fun hpayable => hend.ne (by decide) ((ahead_kind (by decide)).mp hpayable), rfl⟩
      · rfl
    · simp [Part.fields, Part.typeFields]
  | payableAddress =>
    obtain ⟨⟨hkind, htext⟩, ⟨hpayable, -⟩, hnext⟩ := hrow
    refine ⟨.elementary ⟨i, j⟩ "address" true, rfl, .of_written rfl ?_ .payableAddress
      ⟨⟨by decide, hkind, htext⟩, ⟨by decide, hpayable⟩, hnext⟩ ?_⟩
    · simp [Part.Tight, Part.fields, Part.typeFields]
    · simp [Part.fields, Part.typeFields]

/-- So is a type that is named by a path. -/
theorem reads_userDefined {path : String} :
    lexemes.ReadsType (.typeName (.userDefined () path)) := by
  intro words i j hwritten hrow hend
  cases hwritten with
  | @userDefined first more hfirst =>
    refine ⟨.userDefined ⟨i, j⟩ (dotted first more), rfl, .of_written rfl ?_ (.userDefined hfirst)
      (hrow.path.append ⟨fun hstep => ?_, rfl⟩) ?_⟩
    · simp [Part.Tight, Part.fields, Part.typeFields]
    · exact hend.ne (by decide) (ahead_step.mp hstep).1
    · simp [Part.fields, Part.typeFields]

/-- A type, and a name that may be missing. -/
theorem spells_named {type : TypeName Unit} {words rest : List Lexeme} {name : Option String}
    (htype : lexemes.ReadsType (.typeName type)) (hwritten : type.IsWritten words)
    (h : lexemes.HasRow i (words ++ (Lexeme.ofName name ++ rest)) j)
    (hrest : ∀ k, lexemes.HasRow k rest j → lexemes.EndsType k) :
    ∃ placed : TypeName Extent, placed.relocate (fun _ => ()) = type ∧
      (Part.typeName placed).All lexemes.Holds ∧
      ∃ k, lexemes.HasRow k rest j ∧
        lexemes.Spells i (.part placed.place :: Symbol.name name) k := by
  obtain ⟨k, hrow, hmore⟩ := hasRow_append.mp h
  obtain ⟨l, hname, hrest'⟩ := hasRow_append.mp hmore
  have hend : lexemes.EndsType k := by
    cases name with
    | none =>
      obtain rfl : k = l := hname
      exact hrest k hrest'
    | some name =>
      have hkind : lexemes.kindAt k = .ident := hname.1.1
      exact endsType_of_kind hkind (by decide)
  obtain ⟨placed, rfl, hphrase⟩ := htype words i k hwritten hrow hend
  exact ⟨placed, rfl, hphrase.holds, l, hrest', hphrase.spells hname.name⟩

/-- A mapping is read if its keys and values are. -/
theorem reads_mapping {key value : TypeName Unit} {keyName valueName : Option String}
    (hkey : lexemes.ReadsType (.typeName key)) (hvalue : lexemes.ReadsType (.typeName value)) :
    lexemes.ReadsType (.typeName (.mapping () key keyName value valueName)) := by
  rintro words i j hwritten hrow -
  cases hwritten with
  | mapping hkeyWords hvalueWords =>
    obtain ⟨⟨hmapping, -⟩, ⟨hopen, -⟩, hrow⟩ := hrow
    obtain ⟨k, rfl, hk, l, ⟨⟨harrow, -⟩, hrow'⟩, hspells⟩ := spells_named hkey hkeyWords hrow
      fun l hl => endsType_of_kind hl.1.1 (by decide)
    obtain ⟨v, rfl, hv, m, ⟨⟨hclose, -⟩, hnext⟩, hspells'⟩ := spells_named hvalue hvalueWords hrow'
      fun l hl => endsType_of_kind hl.1.1 (by decide)
    refine ⟨.mapping ⟨i, j⟩ k keyName v valueName, rfl, .of_written rfl ?_ .mapping ?_ ?_⟩
    · simp [Part.Tight, Part.fields, Part.typeFields]
    · have hvalued : lexemes.Spells l
          (.token .fatArrow :: .part v.place :: Symbol.name valueName) m :=
        ⟨⟨by decide, harrow⟩, hspells'⟩
      have hclosed : lexemes.Spells m [.token .rparen] j := ⟨⟨by decide, hclose⟩, hnext⟩
      exact ⟨⟨by decide, hmapping⟩, ⟨by decide, hopen⟩, (hspells.append hvalued).append hclosed⟩
    · simpa [Part.fields, Part.typeFields] using ⟨hk, hv⟩

/-- An array is read if what it is of is, up to its last bracket. -/
theorem reads_array {base : TypeName Unit} {length : Option (Expression Unit)}
    (hbase : lexemes.ReadsType (.typeName base)) :
    lexemes.ReadsType (.typeName (.array () base length)) := by
  rintro words i j hwritten hrow -
  cases hwritten with
  | array hbaseWords =>
    obtain ⟨k, hrow, ⟨hopen, -⟩, ⟨hclose, -⟩, hnext⟩ := hasRow_append.mp hrow
    obtain ⟨b, rfl, hb⟩ := hbase _ i k hbaseWords hrow (endsType_of_kind hopen (by decide))
    refine ⟨.array ⟨i, j⟩ b none, rfl, .of_written rfl ?_ .arrayType
      (hb.spells ⟨⟨by decide, hopen⟩, ⟨by decide, hclose⟩, hnext⟩) ?_⟩
    · simp [Part.Tight, Part.fields, Part.typeFields]
    · simpa [Part.fields, Part.typeFields] using hb.holds
  | arrayOfLength hbaseWords hlength =>
    obtain ⟨k, hrow, ⟨hopen, -⟩, hrest⟩ := hasRow_append.mp hrow
    obtain ⟨l, hlengthRow, ⟨hclose, -⟩, hnext⟩ := hasRow_append.mp hrest
    obtain ⟨b, rfl, hb⟩ := hbase _ i k hbaseWords hrow (endsType_of_kind hopen (by decide))
    obtain ⟨e, rfl, he, hwhole⟩ := hlength.isPhrase hlengthRow hclose
    refine ⟨.array ⟨i, j⟩ b (some e), rfl, .of_written rfl ?_ .arrayType
      (hb.spells ⟨⟨by decide, hopen⟩, he.spells ⟨⟨by decide, hclose⟩, hnext⟩⟩) ?_⟩
    · simpa [Part.Tight, Part.fields, Part.typeFields] using hwhole
    · simpa [Part.fields, Part.typeFields] using ⟨hb.holds, he.holds⟩

/-- A parameter is read if its type is, up to the comma or the parenthesis after it. -/
theorem reads_parameter {type : TypeName Unit} {location : Option StorageLocation}
    {name : Option String} {indexed : Bool} (htype : lexemes.ReadsType (.typeName type)) :
    lexemes.ReadsType (.parameter (.mk () type location name indexed)) := by
  intro words i j hwritten hrow hend
  cases hwritten with
  | mk htypeWords =>
    obtain ⟨k, htypeRow, hrest⟩ := hasRow_append.mp hrow
    obtain ⟨l, hlocation, hname⟩ := hasRow_append.mp hrest
    have hk : lexemes.EndsType k := by
      cases location with
      | some location =>
        have hkind : lexemes.kindAt k = location.kind := hlocation.1.1
        exact endsType_of_kind hkind (by cases location <;> decide)
      | none =>
        obtain rfl : k = l := hlocation
        cases name with
        | some name =>
          have hkind : lexemes.kindAt k = .ident := hname.1.1
          exact endsType_of_kind hkind (by decide)
        | none =>
          obtain rfl : k = j := hname
          rcases hend with hkind | hkind <;> exact endsType_of_kind hkind (by decide)
    obtain ⟨t, rfl, ht⟩ := htype _ i k htypeWords htypeRow hk
    have hindexed : lexemes.Spells l [] l := rfl
    refine ⟨.mk ⟨i, j⟩ t location name false, rfl, .of_written rfl ?_ .parameter
      (((ht.spells hlocation.location).append hindexed).append hname.name) ?_, rfl⟩
    · simp [Part.Tight, Part.fields]
    · simpa [Part.fields] using ht.holds

/-- Parameters in a row, with commas between. -/
theorem reads_separated {parameters : List (Parameter Unit)} {rows : List (List Lexeme)}
    (hwritten : List.Forall₂ Parameter.IsWritten parameters rows)
    (hreads : ∀ p ∈ parameters, lexemes.ReadsType (.parameter p))
    (h : lexemes.HasRow i (Lexeme.separated rows) j) (hj : lexemes.kindAt j = .rparen) :
    ∃ placed : List (Parameter Extent), placed.map (·.relocate fun _ => ()) = parameters ∧
      lexemes.Spells i (Symbol.separated (placed.map fun p => [.part p.place])) j ∧
      ∀ p ∈ placed, (Part.parameter p).All lexemes.Holds ∧ p.isIndexed = false := by
  induction hwritten generalizing i with
  | nil => exact ⟨[], rfl, h, by simp⟩
  | @cons p row parameters rows hp hrest ih =>
    obtain ⟨hread, hreadRest⟩ := List.forall_mem_cons.mp hreads
    cases hrest with
    | nil =>
      obtain ⟨placed, rfl, hphrase, hindexed⟩ := hread row i j hp h (.inr hj)
      exact ⟨[placed], rfl, hphrase.spells rfl, by simpa using ⟨hphrase.holds, hindexed⟩⟩
    | cons =>
      obtain ⟨k, hrow, ⟨hcomma, -⟩, hmore⟩ := hasRow_append.mp h
      obtain ⟨placed, rfl, hphrase, hindexed⟩ := hread row i k hp hrow (.inl hcomma)
      obtain ⟨others, hothers, hspells, hall⟩ := ih hreadRest hmore
      obtain ⟨other, others, rfl⟩ : ∃ other rest, others = other :: rest :=
        List.exists_cons_of_ne_nil (by rintro rfl; cases hothers)
      exact ⟨placed :: other :: others, by rw [List.map_cons, hothers],
        hphrase.spells ⟨⟨by decide, hcomma⟩, hspells⟩,
        List.forall_mem_cons.mpr ⟨⟨hphrase.holds, hindexed⟩, hall⟩⟩

/-- Parameters between parentheses. -/
theorem reads_enclosed {parameters : List (Parameter Unit)} {rows : List (List Lexeme)}
    (hwritten : List.Forall₂ Parameter.IsWritten parameters rows)
    (hreads : ∀ p ∈ parameters, lexemes.ReadsType (.parameter p))
    (h : lexemes.HasRow i (Lexeme.enclosed rows) j) :
    ∃ placed : List (Parameter Extent), placed.map (·.relocate fun _ => ()) = parameters ∧
      lexemes.Spells i (Symbol.parameters placed) j ∧
      ∀ p ∈ placed, (Part.parameter p).All lexemes.Holds ∧ p.isIndexed = false := by
  obtain ⟨⟨hopen, -⟩, hrow⟩ := h
  obtain ⟨k, hrow, ⟨hclose, -⟩, hnext⟩ := hasRow_append.mp hrow
  obtain ⟨placed, rfl, hspells, hall⟩ := reads_separated hwritten hreads hrow hclose
  exact ⟨placed, rfl, ⟨⟨by decide, hopen⟩, hspells.append ⟨⟨by decide, hclose⟩, hnext⟩⟩, hall⟩

/-- The results of a function type, if there are any. -/
theorem reads_results {returns : List (Parameter Unit)} {rows : List (List Lexeme)}
    (hwritten : List.Forall₂ Parameter.IsWritten returns rows)
    (hreads : ∀ p ∈ returns, lexemes.ReadsType (.parameter p))
    (h : lexemes.HasRow i (Lexeme.results rows) j) (hend : lexemes.EndsType j) :
    ∃ placed : Option (List (Parameter Extent)),
      (placed.getD []).map (·.relocate fun _ => ()) = returns ∧
      lexemes.Spells i (.no [fun lexeme => lexeme.kind.isTypeAttribute] :: Symbol.returns placed) j ∧
      ∀ p ∈ placed.getD [], (Part.parameter p).All lexemes.Holds ∧ p.isIndexed = false := by
  have not_ahead (hi : (lexemes.kindAt i).isTypeAttribute = false) :
      ¬ lexemes.Ahead i [fun lexeme => lexeme.kind.isTypeAttribute] := by
    rintro ⟨htest, -⟩
    change (lexemes.kindAt i).isTypeAttribute = true at htest
    rw [hi] at htest
    cases htest
  unfold Lexeme.results at h
  split at h
  · next hrows =>
    subst hrows
    cases hwritten
    obtain rfl : i = j := h
    refine ⟨none, rfl, ⟨not_ahead hend.not_attribute, fun hreturns => ?_, rfl⟩, by simp⟩
    exact hend.ne (by decide) ((ahead_kind (by decide)).mp hreturns)
  · obtain ⟨⟨hreturns, -⟩, hrow⟩ := h
    obtain ⟨placed, rfl, hspells, hall⟩ := reads_enclosed hwritten hreads hrow
    exact ⟨some placed, rfl, ⟨not_ahead (by rw [hreturns]; decide), ⟨by decide, hreturns⟩, hspells⟩,
      hall⟩

/-- One visibility and one mutability at the most, in any order. -/
theorem foldl_attributesAfter {visibility : Option Visibility}
    {mutability : Option StateMutability} {kinds : List Kind}
    (h : kinds = visibility.toList.map (·.kind) ++ mutability.toList.map (·.kind) ∨
      kinds = mutability.toList.map (·.kind) ++ visibility.toList.map (·.kind)) :
    kinds.foldl attributesAfter (none, none) = (visibility, mutability) ∧
      ∀ k ∈ kinds, k.isTypeAttribute = true := by
  rcases visibility with _ | (_ | _ | _ | _) <;> rcases mutability with _ | (_ | _ | _ | _) <;>
    rcases h with rfl | rfl <;> exact ⟨rfl, by decide⟩

/-- A function type is read if its parameters and results are. -/
theorem reads_functionType {parameters returns : List (Parameter Unit)}
    {visibility : Option Visibility} {mutability : Option StateMutability}
    (hparameters : ∀ p ∈ parameters, lexemes.ReadsType (.parameter p))
    (hreturns : ∀ p ∈ returns, lexemes.ReadsType (.parameter p)) :
    lexemes.ReadsType (.typeName (.function () parameters returns visibility mutability)) := by
  intro words i j hwritten hrow hend
  cases hwritten with
  | function hparameterRows hreturnRows hattributes =>
    obtain ⟨⟨hfunction, -⟩, hrow⟩ := hrow
    obtain ⟨k, hgiven, hrow⟩ := hasRow_append.mp hrow
    obtain ⟨l, hkinds, hresults⟩ := hasRow_append.mp hrow
    obtain ⟨ps, rfl, hspells, hps⟩ := reads_enclosed hparameterRows hparameters hgiven
    obtain ⟨rs, rfl, hspells', hrs⟩ := reads_results hreturnRows hreturns hresults hend
    obtain ⟨hfold, hattribute⟩ := foldl_attributesAfter hattributes
    have hplain : ∀ p ∈ ps ++ rs.getD [], p.isIndexed = false :=
      List.forall_mem_append.mpr ⟨fun p hp => (hps p hp).2, fun p hp => (hrs p hp).2⟩
    have hphrased := @Part.Phrased.functionType ⟨i, j⟩ ps rs _ hattribute hplain
    rw [hfold] at hphrased
    refine ⟨.function ⟨i, j⟩ ps (rs.getD []) visibility mutability, by simp [TypeName.relocate],
      .of_written rfl ?_ hphrased
        ⟨⟨by decide, hfunction⟩,
          (hspells.append (hkinds.kinds fun k hk heq => ?_)).append hspells'⟩ ?_⟩
    · simp [Part.Tight, Part.fields, Part.typeFields]
    · exact absurd (heq ▸ hattribute k hk) (by decide)
    · simpa [Part.fields, Part.typeFields] using ⟨fun p hp => (hps p hp).1, fun p hp => (hrs p hp).1⟩

/-- Where the words of a type stand, and a word comes next that may follow a type, there stands the
type. -/
theorem readsType (lexemes : Lexemes) (part : Part .bare) : lexemes.ReadsType part := by
  induction part using Part.induction with
  | step part ih =>
    have hbelow {child : Part .bare} (hchild : child ∈ part.fields.flatten) :
        lexemes.ReadsType child := by
      obtain ⟨field, hfield, hmem⟩ := List.mem_flatten.mp hchild
      exact ih field hfield child hmem
    cases part with
    | typeName type =>
      cases type with
      | elementary => exact reads_elementary
      | userDefined => exact reads_userDefined
      | mapping place key keyName value valueName =>
        exact reads_mapping (hbelow (by simp [Part.fields, Part.typeFields]))
          (hbelow (by simp [Part.fields, Part.typeFields]))
      | array place base length =>
        exact reads_array (hbelow (by simp [Part.fields, Part.typeFields]))
      | function place parameters returns visibility mutability =>
        refine reads_functionType (fun p hp => hbelow ?_) fun p hp => hbelow ?_
        · simpa [Part.fields, Part.typeFields] using .inl hp
        · simpa [Part.fields, Part.typeFields] using .inr hp
    | parameter p =>
      obtain ⟨place, type, location, name, indexed⟩ := p
      exact reads_parameter (hbelow (by simp [Part.fields]))
    | _ => trivial

end Lexemes

/-! ### Reading types -/

namespace Grammar

/-- The rule for type names reads a type from its words, up to the end, whatever mode it is in. -/
theorem typeName_reads_written {type : TypeName Unit} {words : List Lexeme}
    (h : type.IsWritten words) {scope : Scope} (hscope : scope.lexemes = .ofWords words) :
    ∃ placed : TypeName Extent, placed.relocate (fun _ => ()) = type ∧
      (typeName (.ofLexemes scope.lexemes)).finish.Reads scope 0 placed words.length := by
  obtain ⟨hrow, hend⟩ := Lexemes.hasRow_ofWords words
  rw [← hscope] at hrow hend
  obtain ⟨placed, rfl, hphrase⟩ := scope.lexemes.readsType (.typeName type) words 0 _ h hrow
    (Lexemes.endsType_of_kind hend (by decide))
  exact ⟨placed, rfl, .finish <| typeName_reads_phrase (Inner.complete_upTo _) (by omega) hphrase
    (by rw [hend]; decide)⟩

/-- An array of mappings to functions, which take an array whose length is a power. -/
theorem typeName_reads_written_nested :
    let type : TypeName Unit := .array () (.mapping () (.elementary () "address" true) (some "a")
      (.function () [.mk () (.array () (.array () (.elementary () "uint" false)
          (some (.binary () .pow (.identifier () "n") (.identifier () "m")))) none)
          (some .memory) (some "x") false]
        [.mk () (.userDefined () (dotted "L" ["S"])) none none false]
        (some .externalAccess) (some .view)) none) none
    ∃ words, (lex
        "mapping(address payable a=>function(uint[n**m][] memory x)view external returns(L.S))[]"
        ).tokens.lexemes = .ofWords words ∧
      type.IsWritten words ∧ ∃ placed, placed.relocate (fun _ => ()) = type ∧
        (typeName (.ofLexemes (.ofWords words))).finish.Reads ⟨.ofWords words, false, false, false⟩
          0 placed words.length := by
  intro type
  have hread : Source.parseExpression "n ** m" = .ok (.binary ⟨0, 6⟩ .pow
      (.identifier ⟨0, 1⟩ "n") (.identifier ⟨5, 6⟩ "m")) := by
    rw [Source.parseExpression, Source.read_ofList_of_le (by decide)]
    cbv
  have hlength : Expression.IsWritten (.binary () .pow (.identifier () "n") (.identifier () "m"))
      [⟨.ident, "n"⟩, .of .starStar, ⟨.ident, "m"⟩] :=
    ⟨"n ** m", by rw [lex_ofList]; decide +kernel, by rw [hread]; rfl⟩
  have hwritten : type.IsWritten _ := .array (.mapping .payableAddress (.function
    (.cons (.mk (.array (.arrayOfLength (.elementary (by decide)) hlength))) .nil)
    (.cons (.mk (.userDefined (by decide))) .nil) (.inr rfl)))
  exact ⟨_, by rw [lex_ofList]; decide +kernel, hwritten, typeName_reads_written hwritten rfl⟩

end Grammar

end SolidityParser
