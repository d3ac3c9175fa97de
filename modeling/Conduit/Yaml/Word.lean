import Conduit.Double.Decimal
import Conduit.Json.Basic
import Conduit.Json.Parser
import Conduit.Yaml.Basic

/-!
# What plain words stand for

A plain scalar stands for null, for a truth value, for a number or for its own text. An integer may
be written in base 16, 8 or 2 after `0x`, `0o` or `0b`, and one in base 10 with more than one digit
does not begin with a zero. An integer of 64 bits is a number, one that needs up to 128 bits has no
value, and a longer one is a floating number. What is beyond the floating numbers is text.
-/

namespace Conduit.Yaml

open Text Json.Parser

/-- Whether a word stands for null. -/
def isNullWord (word : String) : Bool :=
  ["", "~", "null", "Null", "NULL"].contains word

/-- The truth value that a word stands for. -/
def boolWord? (word : String) : Option Bool :=
  if ["true", "True", "TRUE"].contains word then some true
  else if ["false", "False", "FALSE"].contains word then some false
  else none

/-- The number that digits of a base write. -/
def digits? (base : Nat) (cs : List Char) : Option Nat :=
  if cs.isEmpty then none
  else cs.foldlM (fun n c => do
    let d ← hexValue? c
    if d < base then some (base * n + d) else none) 0

/-- The natural number that a word writes. -/
def natural? : List Char → Option Nat
  | '0' :: 'x' :: cs => digits? 16 cs
  | '0' :: 'o' :: cs => digits? 8 cs
  | '0' :: 'b' :: cs => digits? 2 cs
  | '0' :: _ :: _ => none
  | cs => digits? 10 cs

/-- A word after its sign, and whether the sign is a minus sign. -/
def unsign : List Char → Bool × List Char
  | '+' :: cs => (false, cs)
  | '-' :: cs => (true, cs)
  | cs => (false, cs)

/-- The integer that a word writes. -/
def integer? (cs : List Char) : Option Int :=
  let (negative, cs) := unsign cs
  (natural? cs).map fun n => if negative then -n else n

/-- Whether an integer needs no more than 128 bits. -/
def fits128 (n : Int) : Bool :=
  -Int.pow 2 127 ≤ n && n < Int.pow 2 128

/-- The exponent that a word ends with, zero if it has ended. -/
def exponent? : List Char → Option Int
  | [] => some 0
  | c :: cs =>
    let (negative, digits) := unsign cs
    if (c == 'e' || c == 'E') && !digits.isEmpty && digits.all Char.isDigit then
      let n := ofDigits 0 digits
      some (if negative then -n else n)
    else none

/-- The floating number that a word writes. It has a digit before or after its point, if it has a
point. -/
def real? (cs : List Char) : Option Double := do
  let (negative, cs) := unsign cs
  let whole := cs.takeWhile Char.isDigit
  let rest := cs.dropWhile Char.isDigit
  let (part, rest) := match rest with
    | '.' :: rest => (rest.takeWhile Char.isDigit, rest.dropWhile Char.isDigit)
    | _ => ([], rest)
  if whole.isEmpty && part.isEmpty then none
  Double.ofDecimal? negative (ofDigits 0 (whole ++ part)) ((← exponent? rest) - part.length)

/-- Whether a word has only digits after its sign, more than one, and begins with a zero. -/
def isPadded (cs : List Char) : Bool :=
  let (_, digits) := unsign cs
  digits.length > 1 && digits.head? == some '0' && digits.all Char.isDigit

/-- What a word stands for that is no integer of up to 128 bits. -/
def realOrText (word : String) : Json :=
  if isPadded word.toList then .string word
  else (real? word.toList).elim (.string word) (.number <| .real ·)

/-- What a plain word stands for. -/
def word? (word : String) : Option Json :=
  if isNullWord word then some .null
  else match boolWord? word, integer? word.toList with
    | some b, _ => some (.bool b)
    | none, none => some (realOrText word)
    | none, some n => match JsonInteger.ofInt? n with
      | some i => some (.number (.integer i))
      | none => if fits128 n then none else some (realOrText word)

mutual

/-- The JSON value that a value stands for, with at most `nesting` collections in one another. Its
keys stand for texts. -/
def toJson? (nesting : Nat) : Yaml → Option Json
  | plain text => word? text
  | quoted text => some (.string text)
  | sequence items =>
    match nesting with
    | 0 => none
    | nesting + 1 => (itemsToJson? nesting items).map .array
  | mapping entries =>
    match nesting with
    | 0 => none
    | nesting + 1 => (entriesToJson? nesting entries).map .object

/-- The JSON values of a list of items. -/
def itemsToJson? (nesting : Nat) : List Yaml → Option (List Json)
  | [] => some []
  | v :: vs => do return (← toJson? nesting v) :: (← itemsToJson? nesting vs)

/-- The JSON members of a list of entries. -/
def entriesToJson? (nesting : Nat) : List (Yaml × Yaml) → Option (List (String × Json))
  | [] => some []
  | (k, v) :: es => do
    match ← toJson? nesting k with
    | .string key => return (key, ← toJson? nesting v) :: (← entriesToJson? nesting es)
    | _ => none

end

end Conduit.Yaml
