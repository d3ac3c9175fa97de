import Conduit.Text.Blank
import Conduit.Text.Natural

/-!
# Dates and timestamps

`Date.isValid` accepts calendar dates, `2024-02-29`, and RFC 3339 timestamps. In a date, white space
may stand before each number, month and day have one or two digits, and a year of more than four
digits needs a sign. A timestamp has fixed widths; a second may be 60, and the offset is below one
day.
-/

namespace Conduit.Date

open Text

/-- Whether February has 29 days. -/
def isLeap (year : Int) : Bool :=
  year % 4 == 0 && (year % 100 != 0 || year % 400 == 0)

/-- The days of a month. -/
def daysIn (year : Int) (month : Nat) : Nat :=
  match month with
  | 2 => if isLeap year then 29 else 28
  | 4 | 6 | 9 | 11 => 30
  | _ => 31

/-- The first year of the calendar. -/
def firstYear : Int := -262143

/-- The last year of the calendar. -/
def lastYear : Int := 262142

/-- Whether the calendar has a day. -/
def hasDay (year : Int) (month day : Nat) : Bool :=
  firstYear ≤ year && year ≤ lastYear && 1 ≤ month && month ≤ 12 && 1 ≤ day &&
    day ≤ daysIn year month

/-- The number of the leading digits of a text, at most `width` of them and at least one. -/
def digits? (width : Nat) (cs : List Char) : Option (Nat × List Char) :=
  let digits := (cs.take width).takeWhile Char.isDigit
  if digits.isEmpty then none else some (ofDigits 0 digits, cs.drop digits.length)

/-- A number of exactly `width` digits. -/
def fixed? (width : Nat) (cs : List Char) : Option (Nat × List Char) :=
  let digits := cs.take width
  if digits.length = width && digits.all Char.isDigit then
    some (ofDigits 0 digits, cs.drop width)
  else none

/-- What follows one character. -/
def skip? (c : Char) : List Char → Option (List Char)
  | [] => none
  | d :: rest => if c = d then some rest else none

/-- A year: with a sign it may have any number of digits, else at most four. -/
def year? (cs : List Char) : Option (Int × List Char) :=
  match trimStart cs with
  | '-' :: rest => (digits? rest.length rest).map fun (n, r) => (-n, r)
  | '+' :: rest => (digits? rest.length rest).map fun (n, r) => (n, r)
  | rest => (digits? 4 rest).map fun (n, r) => (n, r)

/-- Whether a text is a calendar date. -/
def isDay (cs : List Char) : Bool :=
  (do
    let (year, cs) ← year? cs
    let cs ← skip? '-' cs
    let (month, cs) ← digits? 2 (trimStart cs)
    let cs ← skip? '-' cs
    let (day, cs) ← digits? 2 (trimStart cs)
    return cs.isEmpty && hasDay year month day : Option Bool) == some true

/-- What follows a fraction of a second, which has at least one digit after its point. -/
def fraction? : List Char → Option (List Char)
  | '.' :: rest => (digits? rest.length rest).map (·.2)
  | rest => some rest

/-- Whether a text is an offset from universal time, below one day. -/
def isOffset : List Char → Bool
  | ['z'] | ['Z'] => true
  | sign :: rest =>
    (sign == '+' || sign == '-' || sign == '\u2212') &&
      (do
        let (hour, cs) ← fixed? 2 rest
        let cs ← skip? ':' cs
        let (minute, cs) ← fixed? 2 cs
        return cs.isEmpty && hour ≤ 23 && minute ≤ 59 : Option Bool) == some true
  | [] => false

/-- Whether a text is an RFC 3339 timestamp. -/
def isTimestamp (cs : List Char) : Bool :=
  (do
    let (year, cs) ← fixed? 4 cs
    let cs ← skip? '-' cs
    let (month, cs) ← fixed? 2 cs
    let cs ← skip? '-' cs
    let (day, cs) ← fixed? 2 cs
    let cs ← match cs with
      | 't' :: cs | 'T' :: cs | ' ' :: cs => some cs
      | _ => none
    let (hour, cs) ← fixed? 2 cs
    let cs ← skip? ':' cs
    let (minute, cs) ← fixed? 2 cs
    let cs ← skip? ':' cs
    let (second, cs) ← fixed? 2 cs
    let cs ← fraction? cs
    return hasDay year month day && hour ≤ 23 && minute ≤ 59 && second ≤ 60 && isOffset cs :
      Option Bool) == some true

/-- Whether a text is a calendar date or a timestamp. -/
def isValid (text : String) : Bool :=
  isDay text.toList || isTimestamp text.toList

end Conduit.Date
