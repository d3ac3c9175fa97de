import Conduit.Text.Blank
import Conduit.Text.Natural
import Conduit.Text.Search

/-!
# How many values a variable holds

A concept reference says both which concept a value has and how many values there are: `Text` is a
single value, `Text[]` a list of any length and `Text[3]` a list of exactly three.
-/

namespace Conduit

/-- How many values a variable holds. -/
inductive Multiplicity where
  | single
  | list
  | fixed (count : Nat)
  deriving DecidableEq, Repr

namespace Multiplicity

/-- Whether a list of values is meant. -/
def isMultiple : Multiplicity → Bool
  | single => false
  | list | fixed _ => true

/-- A multiplicity in words. -/
def describe : Multiplicity → String
  | single => "a single value"
  | list => "a list"
  | fixed count => s!"a list of {count}"

end Multiplicity

/-- A concept's name, qualified by its domain or not, and how many values are meant. -/
structure Reference where
  concept : String
  multiplicity : Multiplicity
  deriving DecidableEq, Repr

namespace Reference

open Text

/-- The multiplicity between the brackets of a reference: nothing, or a positive count. -/
def multiplicity? (cs : List Char) : Option Multiplicity :=
  if cs.isEmpty then some .list
  else match count? cs with
    | some 0 | none => none
    | some n => some (.fixed n)

/-- The reference that a text writes. -/
def parse? (text : String) : Option Reference :=
  let cs := trim text.toList
  match cutAt? ['['] cs with
  | none => if cs.isEmpty then none else some ⟨String.ofList cs, .single⟩
  | some (name, rest) => do
    let size ← before? [']'] rest
    let name := trim name
    if name.isEmpty then none
    let m ← multiplicity? (trim size)
    return ⟨String.ofList name, m⟩

end Reference

end Conduit
