import FieldMask.Number.Basic

/-!
# Number literals

The number literals of JSON: an optional minus sign, an integer part without a leading zero, and
optionally a fraction and an exponent.

* A literal without fraction and exponent is an integer if it fits the 64-bit ranges; `-0` does
  not.
* Any other literal is a double. `Literal.toDouble?` computes it in binary64 arithmetic: the
  leading digits, as far as they stay below `2 ^ 64`, are rounded to a double and scaled by
  powers of ten. `Literal.nearest?` rounds the exact decimal once.
-/

namespace FieldMask

namespace Double

/-- The double nearest to `10 ^ k`, for `k` up to 308. -/
def powerOfTen (k : Nat) : Double := (nearest? false (Nat.pow 10 k) 1).getD (zero false)

/-- Divide by `10 ^ 308` a number of times; zero stays zero. -/
def lowerBySteps? : Nat → Double → Option Double
  | 0, d => some d
  | n + 1, d => if d.isZero then some d else d.div? (powerOfTen 308) >>= lowerBySteps? n

/-- Multiply by `10 ^ k` in binary64 arithmetic. A scale beyond `10 ^ 308` is out of range, one
    beyond `10 ^ (-308)` is taken in steps of `10 ^ (-308)` and a remainder. -/
def scaleByTen? (d : Double) (k : Int) : Option Double :=
  if 0 ≤ k then
    if k ≤ 308 then d.mul? (powerOfTen k.toNat)
    else if d.isZero then some d
    else none
  else
    let steps := (k.natAbs - 1) / 308
    lowerBySteps? steps d >>= fun e => e.div? (powerOfTen (k.natAbs - 308 * steps))

end Double

/-- A number literal, taken apart. -/
structure Literal where
  negative : Bool
  whole : List Nat
  fraction : Option (List Nat)
  exponent : Option Int
deriving DecidableEq

namespace Literal

/-- The value of a decimal digit. -/
def digit? (c : Char) : Option Nat := if c.isDigit then some (c.toNat - '0'.toNat) else none

/-- The digits at the start of a text, and the rest. -/
def digits : List Char → List Nat × List Char
  | [] => ([], [])
  | c :: rest => match digit? c with
    | some d => let (ds, tail) := digits rest; (d :: ds, tail)
    | none => ([], c :: rest)

/-- The natural number written by digits. -/
def ofDigits (ds : List Nat) : Nat := ds.foldl (fun n d => 10 * n + d) 0

/-- The fraction that a text starts with: a point and at least one digit. -/
def readFraction? : List Char → Option (Option (List Nat) × List Char)
  | '.' :: rest => match digits rest with
    | ([], _) => none
    | (ds, tail) => some (some ds, tail)
  | cs => some (none, cs)

/-- The digits of an exponent, at least one. -/
def readPower? (negative : Bool) (cs : List Char) : Option (Option Int × List Char) :=
  match digits cs with
  | ([], _) => none
  | (ds, tail) => some (some (if negative then -(ofDigits ds : Int) else ofDigits ds), tail)

/-- The exponent that a text starts with: a mark, an optional sign and at least one digit. -/
def readExponent? : List Char → Option (Option Int × List Char)
  | c :: rest =>
    if c = 'e' ∨ c = 'E' then
      match rest with
      | '+' :: tail => readPower? false tail
      | '-' :: tail => readPower? true tail
      | tail => readPower? false tail
    else some (none, c :: rest)
  | [] => some (none, [])

/-- The literal that a whole text is. -/
def read? (cs : List Char) : Option Literal := do
  let (negative, unsigned) := match cs with
    | '-' :: rest => (true, rest)
    | rest => (false, rest)
  let (whole, rest) := digits unsigned
  guard (whole ≠ [] ∧ (whole.head? = some 0 → whole.length = 1))
  let (fraction, rest) ← readFraction? rest
  let (exponent, rest) ← readExponent? rest
  guard rest.isEmpty
  return { negative, whole, fraction, exponent }

/-- Append digits to a number as long as it stays below `2 ^ 64`. -/
def absorb : Nat → List Nat → Nat × List Nat
  | n, [] => (n, [])
  | n, d :: ds => if 10 * n + d < Nat.pow 2 64 then absorb (10 * n + d) ds else (n, d :: ds)

/-- The double of a literal, computed by scaling its leading digits in binary64 arithmetic. Whole
    digits that do not fit raise the exponent, digits of the fraction that do not fit are dropped.
    -/
def toDouble? (l : Literal) : Option Double := do
  -- Digits of the fraction are tried even if whole digits were left out.
  let (significand, wholeLeft) := absorb 0 l.whole
  let fraction := l.fraction.getD []
  let (significand, fractionLeft) := absorb significand fraction
  let shift : Int := wholeLeft.length - (fraction.length - fractionLeft.length : Nat)
  let scaled ← (← Double.nearest? false significand 1).scaleByTen? (shift + l.exponent.getD 0)
  return if l.negative then scaled.neg else scaled

/-- The double nearest to a literal. `none` if the literal lies beyond the finite doubles. -/
def nearest? (l : Literal) : Option Double :=
  let fraction := l.fraction.getD []
  let n := ofDigits (l.whole ++ fraction)
  let k : Int := l.exponent.getD 0 - fraction.length
  if n = 0 then some (Double.zero l.negative)
  -- Far outside the finite doubles the power of ten is not worth computing.
  else if 400 < k then none
  else if k < -(400 + Double.decimalLength n : Int) then some (Double.zero l.negative)
  else Double.nearest? l.negative (n * Nat.pow 10 k.toNat) (Nat.pow 10 (-k).toNat)

/-- The number of a literal: an integer if it is written as one and fits, otherwise a double.
    `none` if it lies beyond the finite doubles. -/
def toNumber? (l : Literal) : Option Number :=
  let whole := ofDigits l.whole
  let integral := l.fraction.isNone && l.exponent.isNone && !(l.negative && whole == 0)
  match (if integral then Number.ofInt? (if l.negative then -(whole : Int) else whole)
      else none) with
  | some n => some n
  | none => l.toDouble?.map Number.double

end Literal

/-- The number that a text is a literal of. -/
def Number.ofText? (cs : List Char) : Option Number := Literal.read? cs >>= Literal.toNumber?

end FieldMask
