import SolidityParser.Bytes
import SolidityParser.Lexer.Delimiter
import SolidityParser.Tree.Version

/-!
# Versions by index

The scan for the versions of a pragma's value as it goes through the bytes of the value. Where no
version is found it goes on one byte further, which may be inside a character. Versions are cut out
of the value as text, which is refused inside a character.
-/

namespace SolidityParser.VersionScan

/-- Is the byte a blank of ASCII: a space, tab, line feed, form feed or carriage return? -/
def isBlank (byte : UInt8) : Bool :=
  [' ', '\t', '\n', '\x0c', '\r'].any (byte == CodeUnit.ofAscii ·)

/-- May the byte belong to a version? -/
def isVersionByte (byte : UInt8) : Bool :=
  (CodeUnit.ofAscii '0' ≤ byte && byte ≤ CodeUnit.ofAscii '9') ||
    ['.', 'x', 'X', '*'].any (byte == CodeUnit.ofAscii ·)

/-- The comparison with which bytes begin, if they begin with one. -/
def comparison? (bytes : List UInt8) : Option (List Char) :=
  VersionLiteral.comparisons.find? fun comparison =>
    (comparison.map CodeUnit.ofAscii).isPrefixOf bytes

/-- Where a version is looked for: behind the comparison and the blanks after it, or at once. -/
def versionStart (bytes : List UInt8) (start : Nat) : Option (List Char) → Nat
  | some comparison => Bytes.passWhile isBlank bytes (start + comparison.length)
  | none => start

/-- The offset of an index in a value that begins at `base`. No offset is above the limit. -/
def offset (base index : Nat) : Nat := min (base + min index Span.limit) Span.limit

/-- What is found at an index that holds no blank: where to go on, and the version if there is
one. -/
def versionAt (base : Nat) (value : String) (start : Nat) :
    Except ReadError (Nat × Option VersionLiteral) := do
  let bytes := Bytes.ofString value
  let comparison := comparison? (← Bytes.suffix bytes start)
  let first := versionStart bytes start comparison
  let stop := Bytes.passWhile isVersionByte bytes first
  if stop = first then return (start + 1, none)
  else
    let version ← Bytes.cut value first stop
    return (stop, some ⟨comparison.map String.ofList, String.ofList version,
      ⟨offset base start, offset base stop⟩⟩)

/-- One round of the scan, from an index: where to go on, and the version that was found. -/
def round (base : Nat) (value : String) (start : Nat) :
    Except ReadError (Nat × Option VersionLiteral) := do
  if isBlank (← Bytes.read (Bytes.ofString value) start) then return (start + 1, none)
  else versionAt base value start

theorem le_versionStart (bytes : List UInt8) (start : Nat) (comparison : Option (List Char)) :
    start ≤ versionStart bytes start comparison := by
  cases comparison with
  | none => exact Nat.le_refl _
  | some comparison => exact Nat.le_trans (Nat.le_add_right _ _) (Bytes.le_passWhile _ _ _)

theorem lt_of_versionAt {base start next : Nat} {value : String} {found : Option VersionLiteral}
    (h : versionAt base value start = .ok (next, found)) : start < next := by
  dsimp only [versionAt] at h
  cases hsuffix : Bytes.suffix (Bytes.ofString value) start with
  | error error =>
    rw [hsuffix] at h
    cases h
  | ok suffix =>
    rw [hsuffix] at h
    dsimp only [bind, Except.bind, pure, Except.pure] at h
    split at h
    · cases h
      exact Nat.lt_succ_self _
    · next hne =>
      split at h
      · cases h
      · cases h
        have hfirst := le_versionStart (Bytes.ofString value) start (comparison? suffix)
        have hstop := Bytes.le_passWhile isVersionByte (Bytes.ofString value)
          (versionStart (Bytes.ofString value) start (comparison? suffix))
        omega

/-- A round goes forward. -/
theorem lt_of_round {base start next : Nat} {value : String} {found : Option VersionLiteral}
    (h : round base value start = .ok (next, found)) : start < next := by
  unfold round at h
  cases hread : Bytes.read (Bytes.ofString value) start with
  | error error =>
    rw [hread] at h
    cases h
  | ok byte =>
    rw [hread] at h
    dsimp only [bind, Except.bind, pure, Except.pure] at h
    split at h
    · cases h
      exact Nat.lt_succ_self _
    · exact lt_of_versionAt h

/-- The versions from an index on. -/
def run (base : Nat) (value : String) (start : Nat) : Except ReadError (List VersionLiteral) :=
  if start < (Bytes.ofString value).length then
    match h : round base value start with
    | .error error => .error error
    | .ok (next, found) =>
      have := lt_of_round h
      (run base value next).map (found.toList ++ ·)
  else .ok []
termination_by (Bytes.ofString value).length - start

/-- The versions of a value that begins at `base`. -/
def scan (base : Nat) (value : String) : Except ReadError (List VersionLiteral) := run base value 0

end SolidityParser.VersionScan
