import Conduit.Double.Text
import Conduit.Json.Basic

/-!
# JSON text

`Json.compact` writes a value without white space, `Json.pretty` with one member or item a line and
two spaces of indentation. Characters outside ASCII are written as they are; of the others only
quotation marks, backslashes and control characters are escaped.
-/

namespace Conduit

/-- The lower-case hexadecimal digit of a number below sixteen. -/
def Text.hexDigit (n : Nat) : Char :=
  Nat.digitChar n

namespace Json

/-- A character as it is written between quotation marks. -/
def escaped (c : Char) : List Char :=
  match c with
  | '"' => ['\\', '"']
  | '\\' => ['\\', '\\']
  | '\x08' => ['\\', 'b']
  | '\x0c' => ['\\', 'f']
  | '\n' => ['\\', 'n']
  | '\r' => ['\\', 'r']
  | '\t' => ['\\', 't']
  | _ =>
    if c.toNat < 0x20 then
      ['\\', 'u', '0', '0', Text.hexDigit (c.toNat / 16), Text.hexDigit (c.toNat % 16)]
    else [c]

/-- A string between quotation marks. -/
def quoted (s : String) : String :=
  String.ofList ('"' :: s.toList.flatMap escaped ++ ['"'])

/-- A number; the two classes never share a text. -/
def numberText : JsonNumber → String
  | .integer n => toString n.val
  | .real x => x.scientific

/-- A value that holds no other values. -/
def scalarText : Json → String
  | null => "null"
  | bool true => "true"
  | bool false => "false"
  | number n => numberText n
  | string s => quoted s
  | array _ | object _ => ""

mutual

/-- A value without white space. -/
def compact : Json → String
  | array items => "[" ++ compactItems items ++ "]"
  | object members => "\x7b" ++ compactMembers members ++ "\x7d"
  | v => scalarText v

/-- Items with commas between them. -/
def compactItems : List Json → String
  | [] => ""
  | [v] => compact v
  | v :: vs => compact v ++ "," ++ compactItems vs

/-- Members with commas between them. -/
def compactMembers : List (String × Json) → String
  | [] => ""
  | [(k, v)] => quoted k ++ ":" ++ compact v
  | (k, v) :: vs => quoted k ++ ":" ++ compact v ++ "," ++ compactMembers vs

end

/-- The start of a line at a depth of nesting. -/
def newline (depth : Nat) : String :=
  "\n" ++ String.ofList (List.replicate (2 * depth) ' ')

mutual

/-- A value with one member or item a line, nested in `depth` others. -/
def prettyAt (depth : Nat) : Json → String
  | array [] => "[]"
  | object [] => "\x7b\x7d"
  | array items => "[" ++ prettyItems (depth + 1) items ++ newline depth ++ "]"
  | object members => "\x7b" ++ prettyMembers (depth + 1) members ++ newline depth ++ "\x7d"
  | v => scalarText v

/-- Items, each on a line of its own. -/
def prettyItems (depth : Nat) : List Json → String
  | [] => ""
  | [v] => newline depth ++ prettyAt depth v
  | v :: vs => newline depth ++ prettyAt depth v ++ "," ++ prettyItems depth vs

/-- Members, each on a line of its own. -/
def prettyMembers (depth : Nat) : List (String × Json) → String
  | [] => ""
  | [(k, v)] => newline depth ++ quoted k ++ ": " ++ prettyAt depth v
  | (k, v) :: vs =>
    newline depth ++ quoted k ++ ": " ++ prettyAt depth v ++ "," ++ prettyMembers depth vs

end

/-- A value with one member or item a line and two spaces of indentation. -/
def pretty (v : Json) : String :=
  prettyAt 0 v

end Json

end Conduit
