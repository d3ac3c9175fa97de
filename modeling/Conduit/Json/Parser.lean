import Conduit.Json.Basic

/-!
# Reading JSON

A strict reader of RFC 8259: no lone surrogate, no raw control character in a string, nothing after
the value, and a bounded number of containers in one another. `Json.parseOrdered?` keeps the members
of objects as they are written; `Json.parse?` gives the canonical form, and its bound is
`maxNesting`.

A decimal number keeps as many leading digits as fit 64 bits; the binary64 number nearest to that
significand is then multiplied or divided by a power of ten, with one rounding for each step. A
number that leaves the format's range is refused.
-/

namespace Conduit.Json.Parser

open Text

/-- How deep containers may be nested. -/
def maxNesting : Nat := 127

/-- The white space of JSON. -/
def isSpace (c : Char) : Bool :=
  c == ' ' || c == '\n' || c == '\t' || c == '\r'

/-- What follows the white space at the start of a text. -/
def skipSpace (cs : List Char) : List Char :=
  cs.dropWhile isSpace

/-! ## Strings -/

/-- The value of a hexadecimal digit. -/
def hexValue? (c : Char) : Option Nat :=
  if '0' ≤ c && c ≤ '9' then some (c.toNat - '0'.toNat)
  else if 'a' ≤ c && c ≤ 'f' then some (c.toNat - 'a'.toNat + 10)
  else if 'A' ≤ c && c ≤ 'F' then some (c.toNat - 'A'.toNat + 10)
  else none

/-- The code unit that four hexadecimal digits write. -/
def unit? (a b c d : Char) : Option Nat := do
  let a ← hexValue? a
  let b ← hexValue? b
  let c ← hexValue? c
  let d ← hexValue? d
  return ((a * 16 + b) * 16 + c) * 16 + d

/-- The character that a backslash and one more character write. -/
def unescape? : Char → Option Char
  | '"' => some '"'
  | '\\' => some '\\'
  | '/' => some '/'
  | 'b' => some '\x08'
  | 'f' => some '\x0c'
  | 'n' => some '\n'
  | 'r' => some '\r'
  | 't' => some '\t'
  | _ => none

/-- Whether a code unit starts a surrogate pair. -/
def isHigh (u : Nat) : Bool := 0xD800 ≤ u && u ≤ 0xDBFF

/-- Whether a code unit ends a surrogate pair. -/
def isLow (u : Nat) : Bool := 0xDC00 ≤ u && u ≤ 0xDFFF

/-- The characters of a string up to its closing quotation mark, and what follows that. -/
def stringBody : List Char → Option (List Char × List Char)
  | [] => none
  | '"' :: rest => some ([], rest)
  | '\\' :: 'u' :: a :: b :: c :: d :: '\\' :: 'u' :: e :: f :: g :: h :: rest =>
    match unit? a b c d with
    | none => none
    | some u =>
      if isHigh u then
        match unit? e f g h with
        | none => none
        | some v =>
          if isLow v then
            (stringBody rest).map fun (s, r) =>
              (Char.ofNat (0x10000 + (u - 0xD800) * 0x400 + (v - 0xDC00)) :: s, r)
          else none
      else if isLow u then none
      else (stringBody ('\\' :: 'u' :: e :: f :: g :: h :: rest)).map fun (s, r) =>
        (Char.ofNat u :: s, r)
  | '\\' :: 'u' :: a :: b :: c :: d :: rest =>
    match unit? a b c d with
    | none => none
    | some u =>
      if isHigh u || isLow u then none
      else (stringBody rest).map fun (s, r) => (Char.ofNat u :: s, r)
  | '\\' :: c :: rest =>
    match unescape? c with
    | none => none
    | some c => (stringBody rest).map fun (s, r) => (c :: s, r)
  | c :: rest =>
    if c.toNat < 0x20 then none
    else (stringBody rest).map fun (s, r) => (c :: s, r)
  termination_by cs => cs.length

/-! ## Numbers -/

/-- A decimal significand that fits 64 bits, and the exponent of ten that goes with it. -/
structure Scaled where
  significand : Nat
  exponent : Int

/-- Appends the digits before the point; those that no longer fit raise the exponent. -/
def Scaled.whole (s : Scaled) : List Char → Scaled
  | [] => s
  | c :: cs =>
    let next := s.significand * 10 + (c.toNat - '0'.toNat)
    if next < wordBound then Scaled.whole { s with significand := next } cs
    else { s with exponent := s.exponent + (cs.length + 1) }

/-- Appends the digits after the point, up to the first that does not fit. -/
def Scaled.part (s : Scaled) : List Char → Scaled
  | [] => s
  | c :: cs =>
    let next := s.significand * 10 + (c.toNat - '0'.toNat)
    if next < wordBound then Scaled.part ⟨next, s.exponent - 1⟩ cs
    else s

/-- The greatest exponent of ten that is applied in one step. -/
def maxPower : Nat := 308

/-- Divides a number by `10 ^ power`, at most `10 ^ 308` at a time. -/
def divideByTens (x : Double) (power : Nat) : Option Double :=
  if power ≤ maxPower then x.div? (Double.ofNat (Nat.pow 10 power))
  else if x.isZero then some x
  else do
    let y ← x.div? (Double.ofNat (Nat.pow 10 maxPower))
    divideByTens y (power - maxPower)
  termination_by power
  decreasing_by simp only [maxPower] at *; omega

/-- The number that a significand and an exponent of ten make. -/
def Scaled.toDouble? (s : Scaled) : Option Double :=
  let x := Double.ofNat s.significand
  if s.exponent < 0 then divideByTens x s.exponent.natAbs
  else if s.exponent ≤ maxPower then x.mul? (Double.ofNat (Nat.pow 10 s.exponent.toNat))
  else if x.isZero then some x
  else none

/-- A number with the sign that is written before it. -/
def signed (negative : Bool) (x : Double) : Double :=
  if negative then x.neg else x

/-- The number that an integer without point and exponent writes. -/
def integer? (negative : Bool) (digits : List Char) : Option JsonNumber :=
  let n : Int := ofDigits 0 digits
  if negative && n == 0 then some (.real Double.zero.neg)
  else match JsonInteger.ofInt? (if negative then -n else n) with
    | some i => some (.integer i)
    | none => do
      let x ← (Scaled.whole ⟨0, 0⟩ digits).toDouble?
      return .real (signed negative x)

/-- The exponent that a text starts with, if it starts with an `e`. -/
def exponent : List Char → Option (Option Int × List Char)
  | 'e' :: rest | 'E' :: rest =>
    let (negative, rest) := match rest with
      | '+' :: rest => (false, rest)
      | '-' :: rest => (true, rest)
      | _ => (false, rest)
    let digits := rest.takeWhile Char.isDigit
    if digits.isEmpty then none
    else
      let n : Int := ofDigits 0 digits
      some (some (if negative then -n else n), rest.dropWhile Char.isDigit)
  | rest => some (none, rest)

/-- The digits after the point that a text starts with, if it starts with a point. -/
def fraction : List Char → Option (Option (List Char) × List Char)
  | '.' :: rest =>
    let digits := rest.takeWhile Char.isDigit
    if digits.isEmpty then none else some (some digits, rest.dropWhile Char.isDigit)
  | rest => some (none, rest)

/-- The number after an optional minus sign that a text starts with, and what follows it. -/
def unsigned (negative : Bool) (cs : List Char) : Option (JsonNumber × List Char) := do
  let digits := cs.takeWhile Char.isDigit
  let rest := cs.dropWhile Char.isDigit
  if digits.isEmpty || (digits.length > 1 && digits.head? == some '0') then none
  let (part, rest) ← fraction rest
  let (power, rest) ← exponent rest
  match part, power with
  | none, none => return (← integer? negative digits, rest)
  | _, _ =>
    let s := ((Scaled.whole ⟨0, 0⟩ digits).part (part.getD []))
    let x ← Scaled.toDouble? { s with exponent := s.exponent + power.getD 0 }
    return (.real (signed negative x), rest)

/-! ## Values -/

/-- Items up to the closing bracket; `fuel` bounds their number. -/
def items (item : List Char → Option (Json × List Char)) :
    Nat → List Char → Option (List Json × List Char)
  | 0, _ => none
  | fuel + 1, cs => do
    let (v, rest) ← item cs
    match skipSpace rest with
    | ',' :: rest =>
      let (vs, rest) ← items item fuel rest
      return (v :: vs, rest)
    | ']' :: rest => return ([v], rest)
    | _ => none

/-- Members up to the closing brace; `fuel` bounds their number. -/
def members (item : List Char → Option (Json × List Char)) :
    Nat → List Char → Option (List (String × Json) × List Char)
  | 0, _ => none
  | fuel + 1, cs =>
    match skipSpace cs with
    | '"' :: cs => do
      let (key, rest) ← stringBody cs
      match skipSpace rest with
      | ':' :: rest =>
        let (v, rest) ← item rest
        match skipSpace rest with
        | ',' :: rest =>
          let (vs, rest) ← members item fuel rest
          return ((String.ofList key, v) :: vs, rest)
        | '}' :: rest => return ([(String.ofList key, v)], rest)
        | _ => none
      | _ => none
    | _ => none

/-- The value that a text starts with, with at most `nesting` containers in one another, and what
follows it. -/
def value (nesting : Nat) (cs : List Char) : Option (Json × List Char) :=
  match skipSpace cs with
  | 'n' :: 'u' :: 'l' :: 'l' :: rest => some (.null, rest)
  | 't' :: 'r' :: 'u' :: 'e' :: rest => some (.bool true, rest)
  | 'f' :: 'a' :: 'l' :: 's' :: 'e' :: rest => some (.bool false, rest)
  | '"' :: rest => do
    let (s, rest) ← stringBody rest
    return (.string (String.ofList s), rest)
  | '-' :: rest => do
    let (n, rest) ← unsigned true rest
    return (.number n, rest)
  | '[' :: rest =>
    match nesting with
    | 0 => none
    | nesting + 1 =>
      match skipSpace rest with
      | ']' :: rest => some (.array [], rest)
      | rest => do
        let (vs, rest) ← items (value nesting) (rest.length + 1) rest
        return (.array vs, rest)
  | '{' :: rest =>
    match nesting with
    | 0 => none
    | nesting + 1 =>
      match skipSpace rest with
      | '}' :: rest => some (.object [], rest)
      | rest => do
        let (vs, rest) ← members (value nesting) (rest.length + 1) rest
        return (.object vs, rest)
  | cs => do
    let (n, rest) ← unsigned false cs
    return (.number n, rest)
  termination_by structural nesting

end Conduit.Json.Parser

namespace Conduit.Json

/-- The value that a text writes, with at most `nesting` containers in one another and the members
of its objects in written order. -/
def parseOrdered? (nesting : Nat) (text : String) : Option Json :=
  match Parser.value nesting text.toList with
  | some (v, rest) => if (Parser.skipSpace rest).isEmpty then some v else none
  | none => none

/-- The value that a text writes. -/
def parse? (text : String) : Option Json :=
  (parseOrdered? Parser.maxNesting text).map canonical

end Conduit.Json
