import Conduit.Dict
import Conduit.Yaml.Word

/-!
# Reading files as data

What the readers of files ask of a value. A text is any scalar. A record is a mapping in which no
field comes twice, and one that is left out has no fields. A field that stands for null may count as
absent.
-/

namespace Conduit.Yaml

/-- The entries of a mapping by the texts of their keys. -/
def entries? : Yaml → Option (List (String × Yaml))
  | mapping entries => entries.mapM fun (k, v) => k.text?.map (·, v)
  | plain "" => some []
  | _ => none

/-- The fields of a record, by name. -/
def fields? (names : List String) (v : Yaml) : Option (String → Option Yaml) := do
  let entries ← v.entries?
  if Dict.comeOnce names entries then some (Dict.lookup? · entries) else none

/-- The dictionary that a mapping writes. -/
def dict? {α : Type} (read : Yaml → Option α) (v : Yaml) : Option (Dict α) := do
  let entries ← (← v.entries?).mapM fun (k, v) => (read v).map (k, ·)
  return .ofList entries

/-- A field that has a default. -/
def defaulted {α : Type} (default : α) (read : Yaml → Option α) : Option Yaml → Option α
  | none => some default
  | some v => read v

/-- Whether a value stands for null. -/
def isNull : Yaml → Bool
  | plain text => isNullWord text
  | _ => false

/-- A field that may be absent or stand for null. -/
def optional {α : Type} (read : Yaml → Option α) : Option Yaml → Option (Option α)
  | none => some none
  | some v => if v.isNull then some none else (read v).map some

/-- A value that is a count. -/
def count? : Yaml → Option Nat
  | plain word =>
    let (negative, digits) := unsign word.toList
    if negative then none else (natural? digits).filter (· < Text.wordBound)
  | _ => none

end Conduit.Yaml
