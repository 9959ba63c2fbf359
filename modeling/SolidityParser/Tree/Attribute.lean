import SolidityParser.Token.Kind

/-!
# Attributes of declarations

Visibility, state mutability, data location and the kinds of contract, each with its keyword.
-/

namespace SolidityParser

/-- Who may use a declaration. -/
inductive Visibility
  | publicAccess | privateAccess | internalAccess | externalAccess
deriving DecidableEq, Inhabited

namespace Visibility

/-- The keyword's kind. -/
def kind : Visibility → Kind
  | publicAccess => .kwPublic
  | privateAccess => .kwPrivate
  | internalAccess => .kwInternal
  | externalAccess => .kwExternal

/-- The keyword. -/
def text (visibility : Visibility) : String := visibility.kind.text

/-- The visibility that a keyword names. -/
def ofKind? : Kind → Option Visibility
  | .kwPublic => some publicAccess
  | .kwPrivate => some privateAccess
  | .kwInternal => some internalAccess
  | .kwExternal => some externalAccess
  | _ => none

end Visibility

/-- What a function does with the state. -/
inductive StateMutability
  | pure | view | payable | constant
deriving DecidableEq, Inhabited

namespace StateMutability

/-- The keyword's kind. -/
def kind : StateMutability → Kind
  | pure => .kwPure
  | view => .kwView
  | payable => .kwPayable
  | constant => .kwConstant

/-- The keyword. -/
def text (mutability : StateMutability) : String := mutability.kind.text

/-- The mutability that a keyword names. -/
def ofKind? : Kind → Option StateMutability
  | .kwPure => some pure
  | .kwView => some view
  | .kwPayable => some payable
  | .kwConstant => some constant
  | _ => none

end StateMutability

/-- Where a value of reference type is kept. -/
inductive StorageLocation
  | memory | storage | calldata
deriving DecidableEq, Inhabited

namespace StorageLocation

/-- The keyword's kind. -/
def kind : StorageLocation → Kind
  | memory => .kwMemory
  | storage => .kwStorage
  | calldata => .kwCalldata

/-- The keyword. -/
def text (location : StorageLocation) : String := location.kind.text

end StorageLocation

/-- The kinds of contract. -/
inductive ContractKind
  | contract | interface | library
deriving DecidableEq, Inhabited

namespace ContractKind

/-- The keyword's kind. -/
def kind : ContractKind → Kind
  | contract => .kwContract
  | interface => .kwInterface
  | library => .kwLibrary

/-- The keyword. -/
def text (kind : ContractKind) : String := kind.kind.text

end ContractKind

end SolidityParser
