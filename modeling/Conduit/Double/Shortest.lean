import Conduit.Double.Basic

/-!
# The fewest digits that read back

`Double.shortest` writes the magnitude of a number with as few significant digits as a reader that
rounds to nearest needs to find the number again, and among those with the digits nearest to it. The
search goes over the decimal grids of 1, 2, … 17 digits and tests the two neighbours of the number
on each, in exact arithmetic.
-/

namespace Conduit.Double

/-- Decimal digits and the place of the point: the value `0.d₁d₂… · 10 ^ point`. -/
structure Digits where
  digits : List Char
  point : Int
  deriving DecidableEq, Repr

/-- The magnitudes that round to a number, in units of a quarter of the least positive number: its
own magnitude, the two ends of the interval, and whether the ends belong to it. -/
structure Interval where
  centre : Nat
  low : Nat
  high : Nat
  closed : Bool

/-- The interval of a number. The lower end is nearer where the exponent changes. -/
def interval (x : Double) : Interval :=
  let quarter := Nat.pow 2 x.shift
  let below := if x.fraction.val = 0 && 1 < x.biased.val then 1 else 2
  { centre := 4 * x.scaled
    low := 4 * x.scaled - below * quarter
    high := 4 * x.scaled + 2 * quarter
    closed := x.significand % 2 == 0 }

/-- Whether `d · 10 ^ place` lies in an interval. -/
def Interval.holds (i : Interval) (d : Nat) (place : Int) : Bool :=
  -- both sides in units of a quarter of the least positive number, times a power of ten
  let value := d * Nat.pow 10 place.toNat * (4 * unit)
  let down := Nat.pow 10 (-place).toNat
  if i.closed then i.low * down ≤ value && value ≤ i.high * down
  else i.low * down < value && value < i.high * down

/-- The digits on the grid `10 ^ place` that lie in an interval and are nearest to its centre. -/
def Interval.onGrid? (i : Interval) (place : Int) : Option Nat :=
  let num := i.centre * Nat.pow 10 (-place).toNat
  let den := 4 * unit * Nat.pow 10 place.toNat
  let lower := num / den
  match i.holds lower place, i.holds (lower + 1) place with
  | false, false => none
  | true, false => some lower
  | false, true => some (lower + 1)
  | true, true => some (roundDiv num den)

/-- The decimal exponent of the leading digit of a positive number. -/
def leading (x : Double) : Int :=
  ((Text.digitsOf (x.scaled * Nat.pow 10 400 / unit)).length : Int) - 401

/-- The shortest digits of a number that are at least `n` and at most `n + more`. -/
def shortestFrom (x : Double) : Nat → Nat → Option (Nat × Int)
  | _, 0 => none
  | n, more + 1 =>
    let place := x.leading - n + 1
    match x.interval.onGrid? place with
    | some d => some (d, place)
    | none => shortestFrom x (n + 1) more

/-- The fewest digits that read back as the magnitude of a number, and of those the nearest. -/
def shortest (x : Double) : Digits :=
  match shortestFrom x 1 17 with
  | some (d, place) =>
    let digits := Text.digitsOf d
    -- a grid of one digit may give a ten
    ⟨(digits.reverse.dropWhile (· == '0')).reverse, place + digits.length⟩
  | none => ⟨['0'], 1⟩

end Conduit.Double
