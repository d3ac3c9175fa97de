import Conduit.Yaml.Cursor
import Conduit.Json.Parser

/-!
# Scalars

A scalar is written between double quotation marks, where a backslash begins an escape; between
single ones, where a doubled mark stands for one; or plain. It may go over several lines, whose gaps
are folded. Each reader here gives the characters of a scalar and the place after it, or nothing if
the scalar is not well formed.
-/

namespace Conduit.Yaml.Scalar

open Json.Parser

/-! ## Quoted scalars -/

/-- The character that a backslash and one more character write. -/
def escaped? : Char → Option Char
  | '0' => some '\x00'
  | 'a' => some '\x07'
  | 'b' => some '\x08'
  | 't' | '\t' => some '\t'
  | 'n' => some '\n'
  | 'v' => some '\x0b'
  | 'f' => some '\x0c'
  | 'r' => some '\r'
  | 'e' => some '\x1b'
  | 'N' => some '\u0085'
  | '_' => some '\u00a0'
  | 'L' => some '\u2028'
  | 'P' => some '\u2029'
  | c => if c == ' ' || c == '"' || c == '/' || c == '\\' then some c else none

/-- How many hexadecimal digits follow a backslash and a character. -/
def hexLength : Char → Nat
  | 'x' => 2
  | 'u' => 4
  | 'U' => 8
  | _ => 0

/-- The character with a number in hexadecimal digits; surrogates are not characters. -/
def hexChar? (digits : List Char) : Option Char := do
  let n ← digits.foldlM (fun n c => (hexValue? c).map (16 * n + ·)) 0
  if n.isValidChar then some (Char.ofNat n) else none

/-- The character that an escape writes, and how many characters the escape has after its
backslash. -/
def escape? : List Char → Option (Char × Nat)
  | [] => none
  | c :: cs =>
    match hexLength c with
    | 0 => (escaped? c).map (·, 1)
    | n => if cs.length < n then none else (hexChar? (cs.take n)).map (·, n + 1)

/-- A scalar after its opening double quotation mark. An escaped line break makes its gap stand for
the other line breaks in it. -/
def double (c : Cursor) : Option (List Char × Cursor) :=
  if c.atDocumentMark then none
  else match _h : c.rest with
    | [] => none
    | '"' :: _ => some ([], c.next)
    | '\\' :: x :: xs =>
      if isBreak x then do
        let gap := c.next.gap
        let (text, c) ← double (c.drop (gap.length + 1))
        return ((breaks gap).drop 1 ++ text, c)
      else do
        let (x, n) ← escape? (x :: xs)
        let (text, c) ← double (c.drop (n + 1))
        return (x :: text, c)
    | x :: _ =>
      if hx : isGap x then do
        have := Cursor.length_gap_pos _h hx
        let (text, d) ← double (c.drop c.gap.length)
        return (folded c.gap ++ text, d)
      else do
        let (text, c) ← double (c.drop 1)
        return (x :: text, c)
  termination_by c.rest.length
  decreasing_by all_goals simp only [Cursor.length_rest_drop, _h, List.length_cons]; omega

/-- A scalar after its opening single quotation mark. -/
def single (c : Cursor) : Option (List Char × Cursor) :=
  if c.atDocumentMark then none
  else match _h : c.rest with
    | [] => none
    | '\'' :: '\'' :: _ => do
      let (text, c) ← single (c.drop 2)
      return ('\'' :: text, c)
    | '\'' :: _ => some ([], c.next)
    | x :: _ =>
      if hx : isGap x then do
        have := Cursor.length_gap_pos _h hx
        let (text, d) ← single (c.drop c.gap.length)
        return (folded c.gap ++ text, d)
      else do
        let (text, c) ← single (c.drop 1)
        return (x :: text, c)
  termination_by c.rest.length
  decreasing_by all_goals simp only [Cursor.length_rest_drop, _h, List.length_cons]; omega

/-! ## Plain scalars -/

/-- The marks that end a plain scalar in a flow collection. -/
def flowMarks : List Char := [',', '[', ']', '{', '}']

/-- The first word of a text that goes on as a plain scalar. It ends at a gap, at a colon before a
gap, and in a flow collection at a mark; there a colon may not touch a mark or a question mark. -/
def word? (flow : Bool) : List Char → Option (List Char)
  | [] => some []
  | c :: cs =>
    if isGap c || (c == ':' && beginsGap cs) || (flow && flowMarks.contains c) then some []
    else if flow && c == ':' && cs.head?.any ('?' :: flowMarks).contains then none
    else (word? flow cs).map (c :: ·)

/-- Whether a line of a gap is indented by a tab before a column. The column is not known on the
line in which the gap begins. -/
def hasTabBefore (margin : Nat) (column : Option Nat) : List Char → Bool
  | [] => false
  | c :: cs =>
    if isBreak c then hasTabBefore margin (some 0) cs
    else match column with
      | none => hasTabBefore margin none cs
      | some k => (c == '\t' && k < margin) || hasTabBefore margin (some (k + 1)) cs

/-- A plain scalar: its characters, whether a line break precedes what follows it, and the place
after it. `gap` is what precedes its next word. Outside flow collections no line goes on with it
before the column `margin`. -/
def plain (flow : Bool) (margin : Nat) (gap : List Char) (c : Cursor) :
    Option (List Char × Bool × Cursor) :=
  match _h : c.rest with
  | [] => some ([], gap.any isBreak, c)
  | x :: _ =>
    if c.atDocumentMark || x == '#' then some ([], gap.any isBreak, c)
    else match word? flow c.rest with
      | none => none
      | some [] => some ([], gap.any isBreak, c)
      | some (w :: ws) =>
        let text := folded gap ++ w :: ws
        let after := c.drop (ws.length + 1)
        let line := after.drop after.gap.length
        if after.gap.isEmpty then some (text, false, after)
        else if hasTabBefore margin none after.gap then none
        else if !flow && line.column < margin then some (text, after.gap.any isBreak, line)
        else (plain flow margin after.gap line).map fun (more, broken, c) =>
          (text ++ more, broken, c)
  termination_by c.rest.length
  decreasing_by simp only [Cursor.length_rest_drop, _h, List.length_cons]; omega

end Conduit.Yaml.Scalar
