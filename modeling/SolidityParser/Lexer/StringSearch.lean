import SolidityParser.Bytes
import SolidityParser.Lexer.Delimiter

/-!
# The end of a string by index

The search for the end of a string as it goes through bytes: from a position it is told where the
next quote, backslash or line feed is, and where the next carriage return is, and takes the nearer
one. A backslash is passed together with the byte after it, which may be the last. How single bytes
are found is left open.
-/

namespace SolidityParser

/-- Searches for the first of some bytes. -/
structure ByteSearch where
  /-- Index of the first byte that is the given one. -/
  one : UInt8 → List UInt8 → Option Nat
  /-- Index of the first byte that is one of three. -/
  three : UInt8 → UInt8 → UInt8 → List UInt8 → Option Nat

/-- The searches find the first of the bytes they are given, wherever there is one. -/
structure ByteSearch.Finds (search : ByteSearch) : Prop where
  one : ∀ a bytes, search.one a bytes = bytes.findIdx? (· == a)
  three : ∀ a b c bytes, search.three a b c bytes =
    bytes.findIdx? fun byte => byte == a || byte == b || byte == c

/-- Searches that look at one byte after the other. -/
def ByteSearch.linear : ByteSearch where
  one a bytes := bytes.findIdx? (· == a)
  three a b c bytes := bytes.findIdx? fun byte => byte == a || byte == b || byte == c

theorem ByteSearch.linear_finds : linear.Finds := ⟨fun _ _ => rfl, fun _ _ _ _ => rfl⟩

namespace StringSearch

/-- What a round of the search comes to. -/
inductive Round
  /-- The search goes on from a position. -/
  | goOn (position : Nat)
  /-- The search ends, with the length of the string's body or without one. -/
  | answer (length : Option Nat)

/-- The distance from a position to the next quote, backslash or line end. -/
def nextStop (search : ByteSearch) (quote : UInt8) (rest : List UInt8) (position : Nat) :
    Except ReadError (Option Nat) := do
  let near := search.three quote (CodeUnit.ofAscii '\\') (CodeUnit.ofAscii '\n')
    (← Bytes.suffix rest position)
  let far := search.one (CodeUnit.ofAscii '\r') (← Bytes.suffix rest position)
  return Option.merge min near far

/-- What is done at a quote, backslash or line end. -/
def atStop (rest : List UInt8) (found : Nat) : Except ReadError Round := do
  let byte ← Bytes.read rest found
  if byte = CodeUnit.ofAscii '\\' then
    if rest.length ≤ found + 1 then return .answer none else return .goOn (found + 2)
  else if Delimiter.isLineEnd byte then return .answer none
  else return .answer (some (found + 1))

/-- One round of the search, from a position. -/
def round (search : ByteSearch) (quote : UInt8) (rest : List UInt8) (position : Nat) :
    Except ReadError Round := do
  match ← nextStop search quote rest position with
  | none => return .answer none
  | some offset => atStop rest (position + offset)

/-- What is passed at a backslash is there. -/
theorem eq_of_atStop {rest : List UInt8} {found next : Nat}
    (h : atStop rest found = .ok (.goOn next)) : next = found + 2 ∧ found + 2 ≤ rest.length := by
  unfold atStop at h
  cases hread : Bytes.read rest found with
  | error error =>
    rw [hread] at h
    cases h
  | ok byte =>
    rw [hread] at h
    change (if _ then if _ then _ else _ else if _ then _ else _) = _ at h
    split at h
    · split at h
      · cases h
      · next hlast =>
        cases h
        exact ⟨rfl, by omega⟩
    · split at h <;> cases h

/-- A round goes forward, and not past the end. -/
theorem lt_of_round {search : ByteSearch} {quote : UInt8} {rest : List UInt8}
    {position next : Nat} (h : round search quote rest position = .ok (.goOn next)) :
    position < next ∧ next ≤ rest.length := by
  unfold round at h
  cases hstop : nextStop search quote rest position with
  | error error =>
    rw [hstop] at h
    cases h
  | ok stop =>
    rw [hstop] at h
    cases stop with
    | none => cases h
    | some offset =>
      obtain ⟨rfl, hle⟩ := eq_of_atStop h
      omega

/-- The search from a position on. -/
def run (search : ByteSearch) (quote : UInt8) (rest : List UInt8) (position : Nat) :
    Except ReadError (Option Nat) :=
  match h : round search quote rest position with
  | .error error => .error error
  | .ok (.answer length) => .ok length
  | .ok (.goOn next) =>
    have := lt_of_round h
    run search quote rest next
termination_by rest.length - position

/-- Length of a string body, closing quote included. A backslash takes the next byte with it; a
line end, or the end of the bytes, leaves the string open. -/
def stringEnd? (search : ByteSearch) (quote : UInt8) (rest : List UInt8) :
    Except ReadError (Option Nat) :=
  run search quote rest 0

end StringSearch

end SolidityParser
