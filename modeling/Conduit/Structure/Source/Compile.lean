import Conduit.Structure.Record
import Conduit.Structure.Source.Parser

/-!
# From a source to a structure

`Registry.compile` turns a source into the one structure that it declares. It asks, in this order,
that the source can be read, that it declares exactly one structure, of the expected name, which
extends the root of content, and that each field mentions known structures only, has choices only if
it is a text and has a default of its own type and among its choices.
-/

namespace Conduit

/-- What is wrong with a structure that can be read. -/
inductive StructureFault where
  | count (found : Nat)
  | misnamed (expected found : String)
  | noParent
  | badParent (parent : String)
  | unknownMention (field name : String)
  | choicesOfOther (field : String)
  | invalidDefault (field : String) (fault : RecordFault)
  | defaultNotAChoice (field : String)
  deriving DecidableEq

/-- A fault in words. -/
def StructureFault.message : StructureFault → String
  | count found => s!"expected exactly one structure, found {found}"
  | misnamed expected found => s!"expected a structure named '{expected}', found '{found}'"
  | noParent => s!"structure must extend {Structure.root}"
  | badParent parent => s!"parent '{parent}' is not a {Structure.root} structure"
  | unknownMention field name => s!"field '{field}' references unknown structure '{name}'"
  | choicesOfOther field => s!"field '{field}' declares choices but is not a text field"
  | invalidDefault field fault => s!"default of field '{field}' is invalid: {fault.message}"
  | defaultNotAChoice field => s!"default of field '{field}' is not one of its choices"

/-- A source that makes no structure. -/
inductive StructureError where
  | unreadable (name : String) (fault : SourceFault) (location : Location) (source : String)
  | refused (name : String) (fault : StructureFault) (source : String)
  deriving DecidableEq

namespace StructureError

/-- An error in words. -/
def message : StructureError → String
  | unreadable name fault location _ =>
    s!"syntax error in structure '{name}' at {location.describe}: {fault.message}"
  | refused name fault _ => s!"invalid structure definition '{name}': {fault.message}"

/-- The source that an error is about. -/
def source : StructureError → String
  | unreadable _ _ _ source | refused _ _ source => source

end StructureError

namespace Registry

/-- Checks a field of a structure that is not registered yet. -/
def checkField (r : Registry) (owner : String) (f : Field) : Except StructureFault Unit :=
  match f.type.mentions.find? fun name => name == owner || !r.contains name with
  | some name => .error (.unknownMention f.name name)
  | none =>
    if !f.choices.isEmpty && f.type != .text then .error (.choicesOfOther f.name)
    else match f.default with
      | none => .ok ()
      | some v => do
        (r.check owner f.name f.type v).mapError fun e => .invalidDefault f.name e.fault
        if f.admits v then return () else .error (.defaultNotAChoice f.name)

/-- Checks that a structure extends the root of content. -/
def checkParent (r : Registry) (s : Structure) : Except StructureFault Unit :=
  match s.parent with
  | none => .error .noParent
  | some parent =>
    if parent != Structure.root && !r.isContent parent then .error (.badParent parent) else .ok ()

/-- The structure among those that a source declares, if it is the expected one and well formed. -/
def accept (r : Registry) (name : String) : List Structure → Except StructureFault Structure
  | [s] => do
    if s.name != name then throw (.misnamed name s.name)
    r.checkParent s
    s.fields.values.forM (r.checkField s.name)
    return s
  | ss => .error (.count ss.length)

/-- The structure of the expected name that a source declares. -/
def compile (r : Registry) (name source : String) : Except StructureError Structure := do
  let declared ← (SourceParser.parse? source).mapError fun (fault, location) =>
    StructureError.unreadable name fault location source
  (r.accept name declared).mapError fun fault => .refused name fault source

end Registry

end Conduit
