import Conduit.Double.Basic

/-!
# Decimal numbers

`Double.ofDecimal?` finds the number nearest to a decimal number, which is an integer times a power
of ten. It rounds once, and answers `none` where the decimal number is beyond the format.
-/

namespace Conduit.Double

/-- No number of the format has so many digits before its point, and none but zero has as many zeros
after it. -/
def decimalBound : Nat := 400

/-- The number nearest to `n · 10 ^ exponent`. -/
def ofDecimal? (negative : Bool) (n : Nat) (exponent : Int) : Option Double :=
  let size : Int := (Text.digitsOf n).length + exponent
  if n = 0 || size < -decimalBound then some { zero with negative }
  else if decimalBound < size then none
  else if 0 ≤ exponent then ofRatio? negative (n * Nat.pow 10 exponent.toNat) 1
  else ofRatio? negative n (Nat.pow 10 exponent.natAbs)

end Conduit.Double
