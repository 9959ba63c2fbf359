/-!
# Doubles

The non-negative values of the binary64 format, as integers: a finite double is a mantissa below
`2 ^ 53` times a power of two. `Double.ofRatio` rounds an exact quotient to the nearest double, a
tie going to the even mantissa; `Double.shortest` finds the shortest decimal that rounds back.
-/

namespace SolidityParser

/-- A non-negative double. `finite m s` is `m * 2 ^ s / 2 ^ 1074`; its mantissa is at least `2 ^ 52`
unless `s` is zero. -/
inductive Double
  | finite (mantissa scale : Nat)
  | infinite
deriving DecidableEq, Inhabited

namespace Double

/-- The smallest positive double is one unit; so many units make up the number one. -/
def unitsPerOne : Nat := Nat.pow 2 1074

/-- The least mantissa of a double whose scale is not zero. -/
def hiddenBit : Nat := Nat.pow 2 52

/-- Number of units in a finite double. -/
def units (mantissa scale : Nat) : Nat := mantissa * Nat.pow 2 scale

/-- The double zero. -/
def zero : Double := finite 0 0

/-- The sixty-four bits of a double, as a number. -/
def bits : Double → Nat
  | finite mantissa scale => scale * hiddenBit + mantissa
  | infinite => 2047 * hiddenBit

/-! ## Rounding -/

/-- The integer nearest to a quotient, a tie going to the even one. -/
def roundHalfEven (num den : Nat) : Nat :=
  let quotient := num / den
  let twice := 2 * (num % den)
  if den < twice ∨ (twice = den ∧ quotient % 2 = 1) then quotient + 1 else quotient

/-- The double of a mantissa at most `2 ^ 53` and a scale, infinite if the scale is too large. -/
def ofScaled (mantissa scale : Nat) : Double :=
  let (mantissa, scale) :=
    if mantissa = 2 * hiddenBit then (hiddenBit, scale + 1) else (mantissa, scale)
  if 2045 < scale then infinite else finite mantissa scale

/-- The double nearest to a quotient, a tie going to the even mantissa. -/
def ofRatio (num den : Nat) : Double :=
  let units := num * unitsPerOne
  let scale := (units / den).log2 - 52
  ofScaled (roundHalfEven units (den * Nat.pow 2 scale)) scale

/-- Number of decimal digits of a positive number. -/
def decimalLength (n : Nat) : Nat := (Nat.toDigits 10 n).length

/-- The double nearest to `significand * 10 ^ exponent`. Where the size of the number alone settles
that it is infinite or zero, no power of ten is formed. -/
def ofDecimal (significand : Nat) (exponent : Int) : Double :=
  let top := exponent + decimalLength significand
  if significand = 0 ∨ top < -400 then zero
  else if 400 < top then infinite
  else if 0 ≤ exponent then ofRatio (significand * Nat.pow 10 exponent.toNat) 1
  else ofRatio significand (Nat.pow 10 (-exponent).toNat)

/-- The double nearest to `x * factor + addend`. -/
def timesPlus (factor addend : Nat) : Double → Double
  | finite mantissa scale =>
    ofRatio (units mantissa scale * factor + addend * unitsPerOne) unitsPerOne
  | infinite => infinite

/-! ## Shortest decimals -/

/-- A decimal `digits * 10 ^ exponent`. -/
structure Decimal where
  /-- The digits, read as a number. -/
  digits : Nat
  /-- The power of ten. -/
  exponent : Int

/-- The distance of two numbers. -/
def distance (a b : Nat) : Nat := (a - b) + (b - a)

/-- The decimal with exponent `exponent` that rounds to `finite mantissa scale`, if one of the two
nearest to the value does; of two, the nearer, and of two equally near the even one. -/
def onGrid? (mantissa scale : Nat) (exponent : Int) : Option Decimal :=
  let value := units mantissa scale
  let up := Nat.pow 10 exponent.toNat * unitsPerOne
  let down := Nat.pow 10 (-exponent).toNat
  let floor := value * down / up
  let hits := [floor, floor + 1].filter fun n =>
    n != 0 && ofDecimal n exponent == finite mantissa scale
  match hits with
  | [] => none
  | [n] => some ⟨n, exponent⟩
  | a :: b :: _ =>
    let below := distance (a * up) (value * down)
    let above := distance (b * up) (value * down)
    if below < above ∨ (below = above ∧ a % 2 = 0) then some ⟨a, exponent⟩
    else some ⟨b, exponent⟩

/-- The first of the grids from `exponent` downwards, at most `fuel` of them, with a decimal that
rounds back. -/
def shortestAtFuel (mantissa scale : Nat) : Nat → Int → Decimal
  | 0, exponent => ⟨0, exponent⟩
  | fuel + 1, exponent =>
    match onGrid? mantissa scale exponent with
    | some decimal => decimal
    | none => shortestAtFuel mantissa scale fuel (exponent - 1)

/-- The shortest decimal that rounds to a positive finite double. The search starts above the
largest double and ends, after seventeen digits, below the smallest. -/
def shortest (mantissa scale : Nat) : Decimal :=
  let whole := units mantissa scale / unitsPerOne
  let start : Int :=
    if whole = 0 then
      -- the first decimal place that is not zero lies no earlier than here
      -((unitsPerOne / units mantissa scale).log2 / 4 : Nat)
    else decimalLength whole
  shortestAtFuel mantissa scale 800 start

end Double

end SolidityParser
