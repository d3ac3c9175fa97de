import Conduit.Memory.Basic
import Conduit.Path

/-!
# Paths into memory

`Memory.resolve` gives the value at the end of a path. Where the variable holds a list and the path
goes on with a field, the rest of the path is followed in every item, and the results that are
themselves arrays are joined; an index right after the variable selects an item.
-/

namespace Conduit

/-- The index that a segment selects an item by, if it does. -/
def Segment.itemIndex? : Segment → Option Nat
  | .index i => some i
  | .key name => Text.count? name.toList

/-- The value at the end of a path in some content; the whole content is taken as a value. -/
def Content.at? (c : Content) : List Segment → Option Json
  | [] => some c.value
  | rest => c.toJson.at? rest

namespace Content

/-- The elements of an array, or a value that is none. -/
def spread : Json → List Json
  | .array items => items
  | v => [v]

/-- The values at the end of a path in every item, joined. -/
def atEach? (path : List Segment) : List Content → Option (List Json)
  | [] => some []
  | c :: cs => do
    let v ← c.at? path
    let more ← atEach? path cs
    return spread v ++ more

/-- The value at the end of a path that goes on with a segment after the variable's name. -/
def follow? (c : Content) (first : Segment) (rest : List Segment) : Option Json :=
  match c with
  | .list items =>
    match first.itemIndex? with
    | some i => (items[i]?).bind (·.at? rest)
    | none => (atEach? (first :: rest) items).map .array
  | c => c.at? (first :: rest)

end Content

/-- The value at the end of a path. -/
def Memory.resolve (m : Memory) (path : String) : Except MemoryError Json :=
  let name := Path.root path
  match Path.parse? path with
  | none => .error (.attributeNotFound name path)
  | some segments => do
    let s ← m.get name
    match segments.tail with
    | [] => return s.content.value
    | first :: rest =>
      match s.content.follow? first rest with
      | some v => return v
      | none => throw (.attributeNotFound name path)

end Conduit
