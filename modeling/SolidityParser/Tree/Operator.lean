import SolidityParser.Token.Kind

/-!
# Operators

The operators of expressions, each with the kind of token that stands for it. Binary operators that
group to the left have a level: the operators of one level bind equally, those of a lower level
more tightly.
-/

namespace SolidityParser

/-! ## Binary operators -/

/-- A binary operator. -/
inductive BinaryOp
  | or | and | eq | notEq | lt | ltEq | gt | gtEq | bitOr | bitXor | bitAnd | shl | shr | sar
  | add | sub | mul | div | mod | pow
deriving DecidableEq, Inhabited

namespace BinaryOp

/-- Every binary operator. -/
def all : List BinaryOp :=
  [or, and, eq, notEq, lt, ltEq, gt, gtEq, bitOr, bitXor, bitAnd, shl, shr, sar, add, sub, mul,
    div, mod, pow]

/-- The kind of token of an operator. -/
def kind : BinaryOp → Kind
  | or => .pipePipe
  | and => .ampAmp
  | eq => .eqEq
  | notEq => .notEq
  | lt => .lt
  | ltEq => .ltEq
  | gt => .gt
  | gtEq => .gtEq
  | bitOr => .pipe
  | bitXor => .caret
  | bitAnd => .amp
  | shl => .shl
  | shr => .shr
  | sar => .sar
  | add => .plus
  | sub => .minus
  | mul => .star
  | div => .slash
  | mod => .percent
  | pow => .starStar

/-- How an operator is written. -/
def symbol (op : BinaryOp) : String := op.kind.text

/-- The level of an operator that groups to the left, the tightest being `0`. The power operator
groups to the right, and binds more tightly than any of them. -/
def level? : BinaryOp → Option Nat
  | pow => none
  | mul | div | mod => some 0
  | add | sub => some 1
  | shl | shr | sar => some 2
  | bitAnd => some 3
  | bitXor => some 4
  | bitOr => some 5
  | lt | ltEq | gt | gtEq => some 6
  | eq | notEq => some 7
  | and => some 8
  | or => some 9

/-- Number of levels. -/
def levels : Nat := 10

/-- The operator that a token of this kind is, among those of a level. -/
def ofKind? (level : Nat) (kind : Kind) : Option BinaryOp :=
  all.find? fun op => op.kind == kind && op.level? == some level

end BinaryOp

/-! ## Unary operators -/

/-- An operator before or after its operand. -/
inductive UnaryOp
  | not | bitNot | neg | plus | increment | decrement | delete
deriving DecidableEq, Inhabited

namespace UnaryOp

/-- The kind of token of an operator. -/
def kind : UnaryOp → Kind
  | not => .bang
  | bitNot => .tilde
  | neg => .minus
  | plus => .plus
  | increment => .plusPlus
  | decrement => .minusMinus
  | delete => .kwDelete

/-- How an operator is written. -/
def symbol (op : UnaryOp) : String := op.kind.text

/-- The operator that a token of this kind is before its operand. -/
def leading? : Kind → Option UnaryOp
  | .bang => some not
  | .tilde => some bitNot
  | .minus => some neg
  | .plus => some plus
  | .plusPlus => some increment
  | .minusMinus => some decrement
  | .kwDelete => some delete
  | _ => none

/-- The operator that a token of this kind is after its operand. -/
def trailing? : Kind → Option UnaryOp
  | .plusPlus => some increment
  | .minusMinus => some decrement
  | _ => none

end UnaryOp

/-! ## Assignments -/

/-- The plain assignment and the compound ones. -/
inductive AssignOp
  | assign | add | sub | mul | div | mod | bitOr | bitAnd | bitXor | shl | shr | sar
deriving DecidableEq, Inhabited

namespace AssignOp

/-- The kind of token of an assignment. -/
def kind : AssignOp → Kind
  | assign => .eq
  | add => .plusEq
  | sub => .minusEq
  | mul => .starEq
  | div => .slashEq
  | mod => .percentEq
  | bitOr => .pipeEq
  | bitAnd => .ampEq
  | bitXor => .caretEq
  | shl => .shlEq
  | shr => .shrEq
  | sar => .sarEq

/-- How an assignment is written. -/
def symbol (op : AssignOp) : String := op.kind.text

/-- The assignment that a token of this kind is. -/
def ofKind? : Kind → Option AssignOp
  | .eq => some assign
  | .plusEq => some add
  | .minusEq => some sub
  | .starEq => some mul
  | .slashEq => some div
  | .percentEq => some mod
  | .pipeEq => some bitOr
  | .ampEq => some bitAnd
  | .caretEq => some bitXor
  | .shlEq => some shl
  | .shrEq => some shr
  | .sarEq => some sar
  | _ => none

end AssignOp

end SolidityParser
