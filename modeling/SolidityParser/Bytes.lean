import SolidityParser.Text

/-!
# Reading bytes by index

Bytes of a text are read one by one, from an index on, or cut out as text. A read of what is not
there is refused, and so is a cut inside a character: a search that goes by index fails with the
read that it may not do.
-/

namespace SolidityParser

/-- A read that is refused. -/
inductive ReadError
  /-- There is no byte at the index. -/
  | index (index : Nat)
  /-- The range begins behind the end. -/
  | range (start : Nat)
  /-- The cut is behind the end, reversed or inside a character. -/
  | cut (start stop : Nat)
deriving DecidableEq, Repr

namespace Bytes

/-- The bytes of a text. -/
def ofString (text : String) : List UInt8 := text.toUTF8.data.toList

/-- The byte at an index. -/
def read (bytes : List UInt8) (index : Nat) : Except ReadError UInt8 :=
  if h : index < bytes.length then .ok bytes[index] else .error (.index index)

theorem read_of_drop {bytes more : List UInt8} {byte : UInt8} {index : Nat}
    (h : bytes.drop index = byte :: more) : read bytes index = .ok byte := by
  have hget : bytes[index]? = some byte := by rw [← List.head?_drop, h, List.head?_cons]
  obtain ⟨hlt, rfl⟩ := List.getElem?_eq_some_iff.mp hget
  exact dif_pos hlt

/-- The bytes from an index on. -/
def suffix (bytes : List UInt8) (start : Nat) : Except ReadError (List UInt8) :=
  if start ≤ bytes.length then .ok (bytes.drop start) else .error (.range start)

theorem suffix_of_le {bytes : List UInt8} {start : Nat} (h : start ≤ bytes.length) :
    suffix bytes start = .ok (bytes.drop start) := if_pos h

/-- The text between two offsets. -/
def cut (text : String) (start stop : Nat) : Except ReadError (List Char) :=
  match Text.slice? text.toList ⟨start, stop⟩ with
  | some part => .ok part
  | none => .error (.cut start stop)

/-- The first index, from one on, at which there is no byte of a class. -/
def passWhile (p : UInt8 → Bool) (bytes : List UInt8) (index : Nat) : Nat :=
  if h : index < bytes.length then
    if p bytes[index] then passWhile p bytes (index + 1) else index
  else index
termination_by bytes.length - index

theorem le_passWhile (p : UInt8 → Bool) (bytes : List UInt8) (index : Nat) :
    index ≤ passWhile p bytes index := by
  fun_induction passWhile p bytes index with
  | case1 index h hp ih => exact Nat.le_of_succ_le ih
  | case2 => exact Nat.le_refl _
  | case3 => exact Nat.le_refl _

end Bytes

end SolidityParser
