import SolidityParser.Literal.Number

/-!
# JSON values

JSON values whose objects keep the order of their members, and their text over indented lines.
Numbers are exact integers or finite doubles; a double is written with the fewest digits that read
back as it.
-/

namespace SolidityParser

/-- A JSON value. -/
inductive Json
  | null
  | bool (value : Bool)
  | number (value : NumberValue)
  | string (value : String)
  | array (items : List Json)
  | object (members : List (String × Json))
deriving Inhabited

namespace Json

/-- The JSON value of a natural number. -/
def ofNat (n : Nat) : Json := number (.integer n)

/-- The JSON value of a text that may be missing. -/
def ofText? : Option String → Json
  | none => null
  | some text => string text

/-- The member with a key. -/
def member? (key : String) (members : List (String × Json)) : Option Json :=
  (members.find? (·.1 == key)).map (·.2)

/-! ## Numbers -/

/-- The decimal digits of a natural number. -/
def digitsOf (n : Nat) : String := String.ofList (Nat.toDigits 10 n)

/-- A decimal as text: positional below `10 ^ 16` and down to five places after the point, always
with a point; with a signed exponent beyond. -/
def decimalText (decimal : Double.Decimal) : String :=
  let digits := Nat.toDigits 10 decimal.digits
  let whole : Int := digits.length + decimal.exponent
  let zeros (n : Int) : List Char := List.replicate n.toNat '0'
  if 0 ≤ decimal.exponent ∧ whole ≤ 16 then
    String.ofList (digits ++ zeros decimal.exponent ++ ['.', '0'])
  else if 0 < whole ∧ whole ≤ 16 then
    String.ofList (digits.take whole.toNat ++ '.' :: digits.drop whole.toNat)
  else if -5 < whole ∧ whole ≤ 0 then
    String.ofList ('0' :: '.' :: (zeros (-whole) ++ digits))
  else
    let mantissa := match digits with
      | first :: second :: rest => first :: '.' :: second :: rest
      | short => short
    let power := whole - 1
    let sign := if power < 0 then '-' else '+'
    String.ofList (mantissa ++ 'e' :: sign :: Nat.toDigits 10 power.natAbs)

/-- A double as text. -/
def doubleText : Double → String
  | .infinite => "null"
  | .finite 0 _ => "0.0"
  | .finite mantissa scale => decimalText (Double.shortest mantissa scale)

/-- A number as text. -/
def numberText : NumberValue → String
  | .integer value => digitsOf value
  | .double value => doubleText value

/-! ## Strings -/

/-- A character inside a string: quotes, backslashes and control characters are escaped. -/
def escaped (c : Char) : List Char :=
  match c with
  | '\x22' => ['\\', '\x22']
  | '\\' => ['\\', '\\']
  | '\x08' => ['\\', 'b']
  | '\x0c' => ['\\', 'f']
  | '\n' => ['\\', 'n']
  | '\r' => ['\\', 'r']
  | '\t' => ['\\', 't']
  | c =>
    if c.toNat < 32 then
      ['\\', 'u', '0', '0', Nat.digitChar (c.toNat / 16), Nat.digitChar (c.toNat % 16)]
    else [c]

/-- A string with its quotes. -/
def quoted (text : String) : String :=
  "\x22" ++ String.ofList (text.toList.flatMap escaped) ++ "\x22"

/-! ## Text over several lines -/

/-- A text followed by a line end and the indentation of a depth. -/
def newLine (unit : String) : Nat → String → String
  | 0, text => text ++ "\n"
  | depth + 1, text => newLine unit depth text ++ unit

mutual

/-- A text followed by a value, whose own lines are indented `depth` times and more. -/
def append (unit : String) (depth : Nat) (text : String) : Json → String
  | null => text ++ "null"
  | bool true => text ++ "true"
  | bool false => text ++ "false"
  | number value => text ++ numberText value
  | string value => text ++ quoted value
  | array [] => text ++ "[]"
  | array (item :: items) =>
    let text := append unit (depth + 1) (newLine unit (depth + 1) (text ++ "[")) item
    newLine unit depth (appendItems unit (depth + 1) text items) ++ "]"
  | object [] => text ++ "\x7b\x7d"
  | object (member :: members) =>
    let text := appendMember unit (depth + 1) (newLine unit (depth + 1) (text ++ "\x7b")) member
    newLine unit depth (appendMembers unit (depth + 1) text members) ++ "\x7d"

/-- A text followed by further items of an array, each on a line. -/
def appendItems (unit : String) (depth : Nat) (text : String) : List Json → String
  | [] => text
  | item :: items =>
    appendItems unit depth (append unit depth (newLine unit depth (text ++ ",")) item) items

/-- A text followed by a member of an object. -/
def appendMember (unit : String) (depth : Nat) (text : String) : String × Json → String
  | (key, value) => append unit depth (text ++ quoted key ++ ": ") value

/-- A text followed by further members of an object, each on a line. -/
def appendMembers (unit : String) (depth : Nat) (text : String) : List (String × Json) → String
  | [] => text
  | member :: members =>
    appendMembers unit depth
      (appendMember unit depth (newLine unit depth (text ++ ",")) member) members

end

/-- A value as text over several lines, each level indented by `unit` once more. -/
def pretty (unit : String) (value : Json) : String := append unit 0 "" value

end Json

end SolidityParser
