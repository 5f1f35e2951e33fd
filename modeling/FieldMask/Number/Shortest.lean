import FieldMask.Number.Double

/-!
# The shortest decimal of a double

The decimal with the fewest digits among those that round to a given double; of several with
that many digits the one nearest to it, and of two equally near the one with an even last digit.
The decimals that round to a double fill an interval around it, whose ends belong to it exactly if
the significand is even. A grid of decimals meets the interval only if it does so at one of the
two neighbours of the double on the grid, so these are the two to test.

* `shortest` finds the decimal, trying one digit, two digits, and so on.
* `PositionalFormat.render` writes it, positionally or with an exponent.
-/

namespace FieldMask

/-- The decimal `digits * 10 ^ exponent`. -/
structure Decimal where
  digits : Nat
  exponent : Int
deriving DecidableEq, Repr

namespace Double

/-- The number of decimal digits. -/
def decimalLength (n : Nat) : Nat := (Nat.toDigits 10 n).length

/-- The integer part of the decimal logarithm of a positive quotient. -/
def floorLog10 (num den : Nat) : Int :=
  if den ≤ num then (decimalLength (num / den) : Int) - 1
  else -(decimalLength ((den - 1) / num) : Int)

/-- The interval of the quotients that round to a magnitude, in units of a fourth of its spacing,
    and the magnitude itself in those units. -/
def bounds (d : Double) : Nat × Nat × Nat :=
  let m := d.significand
  -- Below the first number of a run the spacing is half as wide.
  let low := if m = run ∧ -1074 < d.exponent then 4 * m - 1 else 4 * m - 2
  (low, 4 * m, 4 * m + 2)

/-- Compare `a * 2 ^ e` with `c * 10 ^ k`. -/
def compareScaled (a : Nat) (e : Int) (c : Nat) (k : Int) : Ordering :=
  compare (a * Nat.pow 2 e.toNat * Nat.pow 10 (-k).toNat)
    (c * Nat.pow 10 k.toNat * Nat.pow 2 (-e).toNat)

/-- Whether the decimal `c * 10 ^ k` rounds to the magnitude. -/
def admits (d : Double) (c : Nat) (k : Int) : Bool :=
  let e := d.exponent - 2
  let (low, _, high) := d.bounds
  let closed := d.significand % 2 = 0
  let above := match compareScaled low e c k with
    | .lt => true
    | .eq => closed
    | .gt => false
  let below := match compareScaled high e c k with
    | .gt => true
    | .eq => closed
    | .lt => false
  above && below

/-- The better neighbour of the magnitude among the multiples of `10 ^ k`, if one rounds to it. -/
def onGrid? (d : Double) (k : Int) : Option Nat :=
  let (num, den) := d.toRatio
  let n := num * Nat.pow 10 (-k).toNat
  let m := den * Nat.pow 10 k.toNat
  let c := n / m
  -- `c` is the neighbour below, `c + 1` the one above.
  match d.admits c k, d.admits (c + 1) k with
  | true, true => some (roundQuotient n m)
  | true, false => some c
  | false, true => some (c + 1)
  | false, false => none

/-- The first grid from `10 ^ k` downwards, of at most `steps`, with a decimal that rounds to the
    magnitude. -/
def firstGrid (d : Double) : Nat → Int → Decimal
  | 0, k => ⟨(d.onGrid? k).getD 0, k⟩
  | steps + 1, k => match d.onGrid? k with
    | some digits => ⟨digits, k⟩
    | none => d.firstGrid steps (k - 1)

/-- The shortest decimal that rounds to the magnitude. Seventeen digits always suffice. -/
def shortest (d : Double) : Decimal :=
  if d.isZero then ⟨0, 0⟩
  else
    let (num, den) := d.toRatio
    d.firstGrid 16 (floorLog10 num den)

end Double

/-- How decimals are written: which exponents are written out in positions, and how others are
    marked. -/
structure PositionalFormat where
  /-- The least decimal exponent that is written out. -/
  least : Int
  /-- The greatest decimal exponent that is written out. -/
  greatest : Int
  /-- What stands between the digits and the exponent. -/
  mark : String
  /-- The sign of a positive exponent. -/
  plus : String

namespace PositionalFormat

/-- Write a nonzero decimal. An integral number in positions ends in `.0`. -/
def render (format : PositionalFormat) (d : Decimal) : String :=
  let all := Nat.toDigits 10 d.digits
  let point : Int := d.exponent + all.length
  let digits := (all.reverse.dropWhile (· == '0')).reverse
  -- The first digit stands for `10 ^ power`.
  let power := point - 1
  if format.least ≤ power ∧ power ≤ format.greatest then
    if point ≤ 0 then
      "0." ++ String.ofList (List.replicate (-point).toNat '0' ++ digits)
    else
      let whole := digits.take point.toNat
      let zeros := List.replicate (point.toNat - whole.length) '0'
      let fraction := digits.drop point.toNat
      String.ofList (whole ++ zeros) ++ "." ++
        (if fraction.isEmpty then "0" else String.ofList fraction)
  else
    let sign := if power < 0 then "-" else format.plus
    let mantissa := match digits with
      | [] => ""
      | [c] => String.ofList [c]
      | c :: rest => String.ofList (c :: '.' :: rest)
    mantissa ++ format.mark ++ sign ++ toString power.natAbs

end PositionalFormat

end FieldMask
