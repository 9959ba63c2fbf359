/-!
# Token kinds

The kinds of token of the Solidity language: eight classes whose tokens differ in spelling, the
keywords, and the symbols. `Kind.all` lists them in the order in which messages mention them;
`Kind.index` is the place of a kind in that list.
-/

namespace SolidityParser

/-- The kind of a token. `error` stands for text that is no token of the language, `eof` for the
end of the input. -/
inductive Kind
  | ident | number | hexNumber | string | hexString | unicodeString | error | eof
  | kwAbstract | kwAs | kwAssembly | kwBreak | kwCalldata | kwCatch | kwConstant | kwConstructor
  | kwContinue | kwContract | kwDelete | kwDo | kwElse | kwEmit | kwEnum | kwEvent | kwExternal
  | kwFalse | kwFor | kwFunction | kwIf | kwImmutable | kwImport | kwIndexed | kwInterface
  | kwInternal | kwIs | kwLibrary | kwMapping | kwMemory | kwModifier | kwNew | kwOverride
  | kwPayable | kwPragma | kwPrivate | kwPublic | kwPure | kwReturn | kwReturns | kwStorage
  | kwStruct | kwThrow | kwTrue | kwTry | kwType | kwUnchecked | kwUsing | kwView | kwVirtual
  | kwWhile
  | lparen | rparen | lbracket | rbracket | lbrace | rbrace | semicolon | comma | dot | question
  | colon | fatArrow | arrow | colonEq | eq | eqEq | notEq | lt | ltEq | gt | gtEq | shl | shr
  | sar | plus | minus | star | slash | percent | starStar | plusPlus | minusMinus | bang | tilde
  | amp | pipe | caret | ampAmp | pipePipe | plusEq | minusEq | starEq | slashEq | percentEq
  | pipeEq | ampEq | caretEq | shlEq | shrEq | sarEq
deriving DecidableEq, Inhabited

namespace Kind

/-! ## The list of kinds -/

/-- The kinds named by what they have in common, not by a spelling. -/
def classes : List Kind :=
  [.ident, .number, .hexNumber, .string, .hexString, .unicodeString, .error, .eof]

/-- The reserved words. -/
def keywords : List Kind :=
  [.kwAbstract, .kwAs, .kwAssembly, .kwBreak, .kwCalldata, .kwCatch, .kwConstant, .kwConstructor,
    .kwContinue, .kwContract, .kwDelete, .kwDo, .kwElse, .kwEmit, .kwEnum, .kwEvent, .kwExternal,
    .kwFalse, .kwFor, .kwFunction, .kwIf, .kwImmutable, .kwImport, .kwIndexed, .kwInterface,
    .kwInternal, .kwIs, .kwLibrary, .kwMapping, .kwMemory, .kwModifier, .kwNew, .kwOverride,
    .kwPayable, .kwPragma, .kwPrivate, .kwPublic, .kwPure, .kwReturn, .kwReturns, .kwStorage,
    .kwStruct, .kwThrow, .kwTrue, .kwTry, .kwType, .kwUnchecked, .kwUsing, .kwView, .kwVirtual,
    .kwWhile]

/-- The operators, brackets and other punctuation. -/
def symbols : List Kind :=
  [.lparen, .rparen, .lbracket, .rbracket, .lbrace, .rbrace, .semicolon, .comma, .dot, .question,
    .colon, .fatArrow, .arrow, .colonEq, .eq, .eqEq, .notEq, .lt, .ltEq, .gt, .gtEq, .shl, .shr,
    .sar, .plus, .minus, .star, .slash, .percent, .starStar, .plusPlus, .minusMinus, .bang, .tilde,
    .amp, .pipe, .caret, .ampAmp, .pipePipe, .plusEq, .minusEq, .starEq, .slashEq, .percentEq,
    .pipeEq, .ampEq, .caretEq, .shlEq, .shrEq, .sarEq]

/-- Every kind, in the order in which messages mention them. -/
def all : List Kind := classes ++ keywords ++ symbols

/-- Number of kinds. -/
abbrev count : Nat := 109

/-- Place of a kind in `all`. -/
def index (kind : Kind) : Nat := kind.ctorIdx

/-- The kind at a place of `all`. -/
def ofIndex? (index : Nat) : Option Kind := all[index]?

/-! ## Spelling -/

/-- The spelling of a keyword or symbol; for a class, its name. -/
def text : Kind → String
  | .ident => "identifier"
  | .number => "number"
  | .hexNumber => "hex number"
  | .string => "string"
  | .hexString => "hex string"
  | .unicodeString => "unicode string"
  | .error => "invalid token"
  | .eof => "end of input"
  | .kwAbstract => "abstract"
  | .kwAs => "as"
  | .kwAssembly => "assembly"
  | .kwBreak => "break"
  | .kwCalldata => "calldata"
  | .kwCatch => "catch"
  | .kwConstant => "constant"
  | .kwConstructor => "constructor"
  | .kwContinue => "continue"
  | .kwContract => "contract"
  | .kwDelete => "delete"
  | .kwDo => "do"
  | .kwElse => "else"
  | .kwEmit => "emit"
  | .kwEnum => "enum"
  | .kwEvent => "event"
  | .kwExternal => "external"
  | .kwFalse => "false"
  | .kwFor => "for"
  | .kwFunction => "function"
  | .kwIf => "if"
  | .kwImmutable => "immutable"
  | .kwImport => "import"
  | .kwIndexed => "indexed"
  | .kwInterface => "interface"
  | .kwInternal => "internal"
  | .kwIs => "is"
  | .kwLibrary => "library"
  | .kwMapping => "mapping"
  | .kwMemory => "memory"
  | .kwModifier => "modifier"
  | .kwNew => "new"
  | .kwOverride => "override"
  | .kwPayable => "payable"
  | .kwPragma => "pragma"
  | .kwPrivate => "private"
  | .kwPublic => "public"
  | .kwPure => "pure"
  | .kwReturn => "return"
  | .kwReturns => "returns"
  | .kwStorage => "storage"
  | .kwStruct => "struct"
  | .kwThrow => "throw"
  | .kwTrue => "true"
  | .kwTry => "try"
  | .kwType => "type"
  | .kwUnchecked => "unchecked"
  | .kwUsing => "using"
  | .kwView => "view"
  | .kwVirtual => "virtual"
  | .kwWhile => "while"
  | .lparen => "("
  | .rparen => ")"
  | .lbracket => "["
  | .rbracket => "]"
  | .lbrace => "\x7b"
  | .rbrace => "\x7d"
  | .semicolon => ";"
  | .comma => ","
  | .dot => "."
  | .question => "?"
  | .colon => ":"
  | .fatArrow => "=>"
  | .arrow => "->"
  | .colonEq => ":="
  | .eq => "="
  | .eqEq => "=="
  | .notEq => "!="
  | .lt => "<"
  | .ltEq => "<="
  | .gt => ">"
  | .gtEq => ">="
  | .shl => "<<"
  | .shr => ">>"
  | .sar => ">>>"
  | .plus => "+"
  | .minus => "-"
  | .star => "*"
  | .slash => "/"
  | .percent => "%"
  | .starStar => "**"
  | .plusPlus => "++"
  | .minusMinus => "--"
  | .bang => "!"
  | .tilde => "~"
  | .amp => "&"
  | .pipe => "|"
  | .caret => "^"
  | .ampAmp => "&&"
  | .pipePipe => "||"
  | .plusEq => "+="
  | .minusEq => "-="
  | .starEq => "*="
  | .slashEq => "/="
  | .percentEq => "%="
  | .pipeEq => "|="
  | .ampEq => "&="
  | .caretEq => "^="
  | .shlEq => "<<="
  | .shrEq => ">>="
  | .sarEq => ">>>="

/-- Is this a class of tokens, with no spelling of its own? -/
def isClass (kind : Kind) : Bool := classes.contains kind

/-- Is this a reserved word? -/
def isKeyword (kind : Kind) : Bool := keywords.contains kind

/-- How messages mention a kind: a class by name, a spelling between backticks. -/
def display (kind : Kind) : String :=
  if kind.isClass then kind.text else "`" ++ kind.text ++ "`"

/-- The keyword with this spelling. -/
def ofKeyword? (word : String) : Option Kind := keywords.find? (·.text == word)

/-- The kind of a word: the keyword so spelled, or else an identifier. -/
def ofWord (word : String) : Kind := (ofKeyword? word).getD .ident

/-! ## Brackets -/

/-- Does this kind open a bracket? -/
def isOpen (kind : Kind) : Bool := kind matches .lparen | .lbracket | .lbrace

/-- Does this kind close a bracket? -/
def isClose (kind : Kind) : Bool := kind matches .rparen | .rbracket | .rbrace

/-- The closing bracket that answers an opening one. -/
def closer? : Kind → Option Kind
  | .lparen => some .rparen
  | .lbracket => some .rbracket
  | .lbrace => some .rbrace
  | _ => none

/-- Do tokens of this kind hold a string literal? -/
def isString (kind : Kind) : Bool := kind matches .string | .hexString | .unicodeString

end Kind

end SolidityParser
