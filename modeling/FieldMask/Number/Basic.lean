import FieldMask.Number.Shortest

/-!
# Numbers

A number is an integer of one of the two 64-bit ranges or a finite double. An integer never
equals a double, not even `1` and `1.0`.

* `Number.text` writes integers in full and doubles by their shortest decimal.
* `Number.toInteger?` is the integer that a number stands for, if it fits.
-/

namespace FieldMask

/-- An integer between `-2 ^ 63` and `2 ^ 64 - 1`, or a finite double. -/
inductive Number where
  | integer (value : Int) (inRange : -Int.pow 2 63 ≤ value ∧ value < Int.pow 2 64)
  | double (value : Double)
deriving DecidableEq

namespace Number

/-- The number zero as an integer. -/
def zero : Number := integer 0 (by decide)

instance : Inhabited Number := ⟨zero⟩

/-- The integer as a number, if it fits. -/
def ofInt? (n : Int) : Option Number :=
  if h : -Int.pow 2 63 ≤ n ∧ n < Int.pow 2 64 then some (integer n h) else none

/-- Whether the number is an integer or a double equal to zero. -/
def isZero : Number → Bool
  | integer n _ => n == 0
  | double d => d.isZero

/-- Equality of numbers: the two zeros of the doubles are equal. -/
def same : Number → Number → Bool
  | integer a _, integer b _ => a == b
  | double a, double b => a.same b
  | _, _ => false

/-- An integer is itself; a double without a fraction is an integer if it lies between `-2 ^ 63`
    and `2 ^ 63 - 1`. -/
def toInteger? : Number → Option Number
  | n@(integer ..) => some n
  | double d =>
    match d.toInt? with
    | some i => if i < Int.pow 2 63 then ofInt? i else none
    | none => none

/-- Doubles are written out in positions for decimal exponents from -5 to 15; other exponents
    follow `e` with their sign. -/
def format : PositionalFormat := ⟨-5, 15, "e", "+"⟩

/-- The number as text. -/
def text : Number → String
  | integer n _ => toString n
  | double d =>
    let magnitude := if d.isZero then "0.0" else format.render d.shortest
    if d.negative then "-" ++ magnitude else magnitude

end Number

end FieldMask
