import Conduit.Text.Natural

/-!
# Finite binary64 numbers

A `Double` is a finite number of the binary64 format by its three parts, so there is no infinity and
no NaN to exclude later. `ofRatio?` rounds a ratio to the nearest number of the format, a tie to the
one with an even significand, and answers `none` where the format overflows; products, quotients and
whole numbers are rounded through it.
-/

namespace Conduit

/-- A finite number of the binary64 format: its sign, biased exponent and fraction. -/
structure Double where
  negative : Bool
  biased : Fin 2047
  fraction : Fin (Nat.pow 2 52)
  deriving DecidableEq, Repr

namespace Double

/-- Zero without a sign. -/
def zero : Double := ⟨false, 0, 0⟩

instance : Inhabited Double := ⟨zero⟩

/-- The integer `m` in the magnitude `m · 2 ^ (shift - 1074)` of a number. -/
def significand (x : Double) : Nat :=
  if x.biased.val = 0 then x.fraction.val else Nat.pow 2 52 + x.fraction.val

/-- The exponent of two in the magnitude of a number, counted from the least one, `-1074`. -/
def shift (x : Double) : Nat :=
  x.biased.val - 1

/-- Numerator of the magnitude of a number, over the denominator `2 ^ 1074`. -/
def scaled (x : Double) : Nat :=
  x.significand * Nat.pow 2 x.shift

/-- The denominator that every magnitude has. -/
def unit : Nat := Nat.pow 2 1074

/-- Whether a number is zero of either sign. -/
def isZero (x : Double) : Bool :=
  x.scaled == 0

/-- Equality as numbers: the two zeros are equal. -/
def equal (x y : Double) : Bool :=
  x == y || (x.isZero && y.isZero)

/-- The number with the other sign. -/
def neg (x : Double) : Double :=
  { x with negative := !x.negative }

/-- A quotient rounded to the nearest integer, a tie to the even one. -/
def roundDiv (num den : Nat) : Nat :=
  let whole := num / den
  let twice := 2 * (num % den)
  if twice < den then whole
  else if den < twice then whole + 1
  else whole + whole % 2

/-- The number of format parts `m` and `shift`, where `m` is at most `2 ^ 53`. -/
def ofParts? (negative : Bool) (m shift : Nat) : Option Double :=
  let (m, shift) := if m = Nat.pow 2 53 then (Nat.pow 2 52, shift + 1) else (m, shift)
  if m < Nat.pow 2 52 then some ⟨negative, 0, Fin.ofNat _ m⟩
  else if h : shift + 1 < 2047 then some ⟨negative, ⟨shift + 1, h⟩, Fin.ofNat _ (m - Nat.pow 2 52)⟩
  else none

/-- The number nearest to `num / den`, or `none` where that is beyond the format. -/
def ofRatio? (negative : Bool) (num den : Nat) : Option Double :=
  -- the magnitude in units of the least positive number has about `bits + 1` binary digits
  let whole := num * unit / den
  let shift := whole.log2 - 52
  ofParts? negative (roundDiv (num * unit) (den * Nat.pow 2 shift)) shift

/-- The number nearest to a natural number below 2^1024. -/
def ofNat (n : Nat) : Double :=
  (ofRatio? false n 1).getD zero

/-- The number nearest to an integer of less than 1024 binary digits. -/
def ofInt (n : Int) : Double :=
  (ofRatio? (n < 0) n.natAbs 1).getD zero

/-- The rounded product of two numbers. -/
def mul? (x y : Double) : Option Double :=
  ofRatio? (x.negative != y.negative) (x.scaled * y.scaled) (unit * unit)

/-- The rounded quotient of two numbers, the second not zero. -/
def div? (x y : Double) : Option Double :=
  ofRatio? (x.negative != y.negative) x.scaled y.scaled

/-- The integer that a number is, if it is one. -/
def toInt? (x : Double) : Option Int :=
  if x.scaled % unit = 0 then
    let n := Int.ofNat (x.scaled / unit)
    some (if x.negative then -n else n)
  else none

end Double

end Conduit
