/-!
# Finite binary64 numbers

A finite double is a sign and the code of its magnitude, the bit pattern without the sign. Codes
count the magnitudes in increasing order: below `2 ^ 52` the magnitude is `code * 2 ^ (-1074)`,
and from there on each run of `2 ^ 52` codes has twice the spacing of the run before. Arithmetic
is exact on natural numbers; no machine float occurs.

* `toRatio` is the exact magnitude, `nearest?` rounds a quotient to the nearest double.
* `mul?` and `div?` are the operations of binary64 arithmetic.
-/

namespace FieldMask

/-- The number of codes of a run, in which magnitudes have one spacing. -/
def Double.run : Nat := Nat.pow 2 52

/-- The number of finite magnitudes of a double. -/
def Double.codes : Nat := 2047 * Double.run

/-- A finite double: its sign and the code of its magnitude. -/
structure Double where
  negative : Bool
  code : Nat
  finite : code < Double.codes
deriving DecidableEq

namespace Double

/-- Zero with a sign. -/
def zero (negative : Bool) : Double := ⟨negative, 0, by decide⟩

instance : Inhabited Double := ⟨zero false⟩

/-- Whether the number is zero, of either sign. -/
def isZero (d : Double) : Bool := d.code == 0

/-- The integer `m` of the magnitude `m * 2 ^ d.exponent`. -/
def significand (d : Double) : Nat :=
  if d.code < run then d.code else run + d.code % run

/-- The exponent `e` of the magnitude `d.significand * 2 ^ e`. -/
def exponent (d : Double) : Int :=
  if d.code < run then -1074 else (d.code / run : Nat) - 1075

/-- Numerator and denominator of `num / den * 2 ^ e`. -/
def scale (num den : Nat) (e : Int) : Nat × Nat :=
  if 0 ≤ e then (num * Nat.pow 2 e.toNat, den) else (num, den * Nat.pow 2 (-e).toNat)

/-- The magnitude as an exact quotient. -/
def toRatio (d : Double) : Nat × Nat := scale d.significand 1 d.exponent

/-- The integer nearest to `num / den`; a half goes to the even neighbour. -/
def roundQuotient (num den : Nat) : Nat :=
  let q := num / den
  let twice := 2 * (num % den)
  if twice < den then q
  else if den < twice then q + 1
  else if q % 2 = 0 then q else q + 1

/-- The integer part of the binary logarithm of a positive quotient. -/
def floorLog2 (num den : Nat) : Int :=
  let k : Int := (num.log2 : Int) - (den.log2 : Int)
  let (n, d) := scale num den (-k)
  if d ≤ n then k else k - 1

/-- The double nearest to a quotient, a tie to the even code. `none` if the quotient is so large
    that it rounds to no finite double. -/
def nearest? (negative : Bool) (num den : Nat) : Option Double :=
  if num = 0 then some (zero negative)
  else
    -- 53 binary digits, or as many as the smallest spacing leaves.
    let e := max (floorLog2 num den - 52) (-1074)
    let (n, d) := scale num den (-e)
    -- A significand rounded up to `2 ^ 53` carries over to the next run of codes.
    let code := (e + 1074).toNat * run + roundQuotient n d
    if finite : code < codes then some ⟨negative, code, finite⟩ else none

/-- The product, rounded. -/
def mul? (a b : Double) : Option Double :=
  let (an, ad) := a.toRatio
  let (bn, bd) := b.toRatio
  nearest? (a.negative != b.negative) (an * bn) (ad * bd)

/-- The quotient by a number other than zero, rounded. -/
def div? (a b : Double) : Option Double :=
  let (an, ad) := a.toRatio
  let (bn, bd) := b.toRatio
  nearest? (a.negative != b.negative) (an * bd) (ad * bn)

/-- The opposite number. -/
def neg (d : Double) : Double := { d with negative := !d.negative }

/-- The integer that the number is, if it is one. -/
def toInt? (d : Double) : Option Int :=
  let (num, den) := d.toRatio
  if num % den = 0 then
    some (if d.negative then -((num / den : Nat) : Int) else (num / den : Nat))
  else none

/-- Equality of numbers: zero equals zero whatever the signs. -/
def same (a b : Double) : Bool := (a.isZero && b.isZero) || a == b

end Double

end FieldMask
