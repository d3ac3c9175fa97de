import Conduit.Text.Blank
import Conduit.Text.Natural
import Conduit.Text.Search
import Conduit.Json.Basic

/-!
# Attribute paths

A path names a variable and a place inside its value: `ticket.tags[0]`. Keys are separated by
points; an index stands in brackets or, where the value is an array, is a key of digits. The first
segment is the variable's name, which does not start with a digit. `Path.parse?` reads a path,
`Json.at?` follows its segments, and `Path.root` gives the variable of any text, path or not.
-/

namespace Conduit

/-- One step of a path. -/
inductive Segment where
  | key (name : String)
  | index (position : Nat)
  deriving DecidableEq, Repr

/-- Whether a path may start with this segment: a key that does not start with a digit. -/
def Segment.isRoot : Segment → Bool
  | .key name => match name.toList with
    | [] => false
    | c :: _ => !c.isDigit
  | .index _ => false

namespace Path

open Text

/-- The characters of keys. -/
def isKeyChar (c : Char) : Bool :=
  c.isAlphanum || c == '_'

/-- The indices of a text of the form `[i][j]…`, each with white space around it allowed;
`fuel` bounds their number. -/
def indices? : Nat → List Char → Option (List Nat)
  | _, [] => some []
  | 0, _ :: _ => none
  | fuel + 1, cs => do
    let inner ← after? ['['] cs
    let (text, rest) ← cutAt? [']'] inner
    let i ← count? (trim text)
    let is ← indices? fuel rest
    return i :: is

/-- The segments of one part of a path: a key, indices, or a key followed by indices. -/
def part? (cs : List Char) : Option (List Segment) := do
  let key := cs.takeWhile (· != '[')
  let indices ← indices? cs.length (cs.dropWhile (· != '['))
  if key.isEmpty && indices.isEmpty then none
  if !key.all isKeyChar then none
  let keys := if key.isEmpty then [] else [.key (String.ofList key)]
  return keys ++ indices.map .index

/-- The segments of the parts of a path. -/
def parts? : List (List Char) → Option (List Segment)
  | [] => some []
  | p :: ps => do
    let segments ← part? p
    let more ← parts? ps
    return segments ++ more

/-- The segments of a path. -/
def parse? (path : String) : Option (List Segment) :=
  match parts? (splitOn '.' (trim path.toList)) with
  | some (first :: rest) => if first.isRoot then some (first :: rest) else none
  | _ => none

/-- Whether a text is a path. -/
def isValid (path : String) : Bool :=
  (parse? path).isSome

/-- The name of the variable that a path starts from. -/
def root (path : String) : String :=
  String.ofList ((trim path.toList).takeWhile fun c => c != '.' && c != '[')

end Path

/-- The value at one step: a member of an object, or an item of an array by its index. -/
def Json.step? : Json → Segment → Option Json
  | .object members, .key name => Json.member? members name
  | .array items, .key name => (Text.count? name.toList).bind (items[·]?)
  | .array items, .index i => items[i]?
  | _, _ => none

/-- The value at the end of a path. -/
def Json.at? : Json → List Segment → Option Json
  | v, [] => some v
  | v, s :: rest => (v.step? s).bind (at? · rest)

end Conduit
