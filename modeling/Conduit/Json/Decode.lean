import Conduit.Dict
import Conduit.Json.Basic

/-!
# Reading JSON values as data

The readers of this library decide field by field whether a value is there. A record is an object in
which no field comes twice, or an array that gives its fields in their order and may leave the last
ones out. A field may be required, have a default for its absence, or be optional, where null counts
as absent.
-/

namespace Conduit.Json

/-- The fields of a record that is an object, by name. -/
def objectFields? (names : List String) (members : List (String × Json)) :
    Option (String → Option Json) :=
  if Dict.comeOnce names members then some (member? members) else none

/-- The fields of a record, by name; `names` lists them in their order. -/
def fields? (names : List String) : Json → Option (String → Option Json)
  | .object members => objectFields? names members
  | .array items =>
    if items.length ≤ names.length then
      some fun name => (names.findIdx? (· == name)).bind (items[·]?)
    else none
  | _ => none

/-- A field that must be there. -/
def required {α : Type} (read : Json → Option α) (field : Option Json) : Option α :=
  field.bind read

/-- A field that has a default. -/
def defaulted {α : Type} (default : α) (read : Json → Option α) : Option Json → Option α
  | none => some default
  | some v => read v

/-- A field that may be absent or null. -/
def optional {α : Type} (read : Json → Option α) : Option Json → Option (Option α)
  | none | some .null => some none
  | some v => (read v).map some

/-- A value that is a text. -/
def text? : Json → Option String
  | .string s => some s
  | _ => none

/-- A value that is true or false. -/
def bool? : Json → Option Bool
  | .bool b => some b
  | _ => none

/-- A value that is a count. -/
def count? : Json → Option Nat
  | .number n => n.toCount?
  | _ => none

/-- A value that is any number. -/
def double? : Json → Option Double
  | .number n => some n.toDouble
  | _ => none

/-- A value that is an array, item by item. -/
def list? {α : Type} (read : Json → Option α) : Json → Option (List α)
  | .array items => items.mapM read
  | _ => none

/-- A value that is an object, member by member. -/
def members? {α : Type} (read : Json → Option α) : Json → Option (List (String × α))
  | .object members => members.mapM fun (k, v) => (read v).map (k, ·)
  | _ => none

end Conduit.Json
