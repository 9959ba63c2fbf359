import SolidityParser.Token.Kind

/-!
# Sets of token kinds

A set of kinds is a word with one bit per kind, so that two sets are equal exactly when they have
the same members.
-/

namespace SolidityParser

/-- A set of token kinds. -/
structure TokenSet where
  /-- One bit for each kind, at the kind's index. -/
  bits : BitVec Kind.count
deriving DecidableEq

namespace TokenSet

/-- The set without members. -/
def empty : TokenSet := ⟨0⟩

instance : EmptyCollection TokenSet := ⟨empty⟩

instance : Inhabited TokenSet := ⟨∅⟩

/-- The set with one member. -/
def single (kind : Kind) : TokenSet := ⟨BitVec.twoPow Kind.count kind.index⟩

/-- The members of either set. -/
def union (set other : TokenSet) : TokenSet := ⟨set.bits ||| other.bits⟩

instance : Union TokenSet := ⟨union⟩

/-- The set with a kind added. -/
def insert (set : TokenSet) (kind : Kind) : TokenSet := set ∪ single kind

/-- The set of the kinds of a list. -/
def ofList (kinds : List Kind) : TokenSet := kinds.foldl insert ∅

/-- Is the kind a member? -/
def contains (set : TokenSet) (kind : Kind) : Bool := set.bits.getLsbD kind.index

/-- Has the set no members? -/
def isEmpty (set : TokenSet) : Bool := set.bits == 0

/-- The members, in the order of `Kind.all`. -/
def toList (set : TokenSet) : List Kind := Kind.all.filter set.contains

/-- Number of members. -/
def size (set : TokenSet) : Nat := set.toList.length

end TokenSet

end SolidityParser
