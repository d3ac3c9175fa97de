/-!
# Counts written in decimal

A count is written in ASCII digits, with any number of leading zeros and at most one plus sign
before them, and is smaller than 2^64.
-/

namespace Conduit.Text

/-- The bound below which counts and indices stay. -/
def wordBound : Nat := Nat.pow 2 64

/-- The number that a run of decimal digits writes, after the digits of `value`. -/
def ofDigits (value : Nat) (digits : List Char) : Nat :=
  digits.foldl (fun n c => 10 * n + (c.val - 48).toNat) value

/-- The decimal digits of a number, without leading zeros. -/
def digitsOf (n : Nat) : List Char :=
  Nat.toDigits 10 n

/-- The count that a text writes, if it writes one. -/
def count? (cs : List Char) : Option Nat :=
  let digits := match cs with
    | '+' :: rest => rest
    | _ => cs
  if digits.isEmpty || !digits.all Char.isDigit then none
  else
    let n := ofDigits 0 digits
    if n < wordBound then some n else none

end Conduit.Text
