import Conduit.Double.Shortest

/-!
# How numbers are written

Two layouts of the shortest digits. `positional` never uses an exponent and writes a whole number
without a point; `Json`'s layout, `scientific`, keeps a point or an exponent in every number, so a
reader can tell it from an integer, and turns to exponents below `1e-5` and from `1e16` on.
-/

namespace Conduit.Double

/-- The digits of a number around its decimal point, without an exponent. -/
def Digits.aroundPoint (d : Digits) : List Char × List Char :=
  if d.point ≤ 0 then (['0'], List.replicate (-d.point).toNat '0' ++ d.digits)
  else
    let n := d.point.toNat
    (d.digits.take n ++ List.replicate (n - d.digits.length) '0', d.digits.drop n)

/-- The sign of a number as it is written. -/
def signText (x : Double) : String :=
  if x.negative then "-" else ""

/-- A number without an exponent; a whole number without a point. -/
def positional (x : Double) : String :=
  if x.isZero then x.signText ++ "0"
  else
    let (whole, part) := x.shortest.aroundPoint
    x.signText ++ String.ofList whole ++
      (if part.isEmpty then "" else "." ++ String.ofList part)

/-- The exponent of ten as scientific notation writes it, always with a sign. -/
def exponentText (e : Int) : String :=
  (if e < 0 then "e-" else "e+") ++ toString e.natAbs

/-- A number with a point or an exponent, positional from `1e-5` up to `1e16`. -/
def scientific (x : Double) : String :=
  if x.isZero then x.signText ++ "0.0"
  else
    let d := x.shortest
    if -4 ≤ d.point && d.point ≤ 16 then
      let (whole, part) := d.aroundPoint
      x.signText ++ String.ofList whole ++ "." ++
        (if part.isEmpty then "0" else String.ofList part)
    else
      x.signText ++ String.ofList (d.digits.take 1) ++
        (if d.digits.length ≤ 1 then "" else "." ++ String.ofList (d.digits.drop 1)) ++
        exponentText (d.point - 1)

end Conduit.Double
