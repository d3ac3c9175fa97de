import Conduit.Concept.Library
import Conduit.Content.Read
import Conduit.Memory.Basic
import Conduit.Multiplicity

/-!
# Memory from a document of inputs

A document of inputs is an object. A text stands for a value of the concept `Text` and a number for
one of `Number`; anything else is an object that gives a concept and a content. An array as content
makes a list, which a reference to a list needs.
-/

namespace Conduit.ConceptLibrary

/-- The content of a concept that an input gives. -/
def inputContent (l : ConceptLibrary) (c : Concept) (m : Multiplicity) :
    Json → Except InputFault Content
  | .array items => do
    let contents ← (items.mapM fun v => l.registry.read c.shape v).mapError .record
    return .list contents
  | v => if m = .single then (l.registry.read c.shape v).mapError .record else .error .notAList

/-- The concept and content that an input gives. -/
def input (l : ConceptLibrary) (domain : String) : Json → Except InputFault (Concept × Content)
  | .string s => .ok (l.native .text, .text s)
  | .number n => .ok (l.native .number, .number n.toDouble)
  | .object members =>
    match Json.member? members "concept" with
    | some (.string reference) =>
      match Reference.parse? reference with
      | none => .error (.badReference reference)
      | some r =>
        match l.resolve? r.concept domain with
        | none => .error (.unknownConcept r.concept)
        | some c => do
          let content ← l.inputContent c r.multiplicity
            ((Json.member? members "content").getD .null)
          return (c, content)
    | _ => .error .noConcept
  | v => .error (.unsupported v)

/-- Adds inputs to a memory, in their order. -/
def addInputs (l : ConceptLibrary) (domain : String) (m : Memory) :
    List (String × Json) → Except MemoryError Memory
  | [] => .ok m
  | (name, v) :: rest =>
    if name = Memory.mainAlias then .error (.invalidInput name .reserved)
    else match l.input domain v with
      | .error fault => .error (.invalidInput name fault)
      | .ok (c, content) => l.addInputs domain (m.set name (m.fresh name c content)) rest

/-- The memory that a document of inputs fills. References are resolved in a domain, which is the
native one if none is given. -/
def memoryOf (l : ConceptLibrary) (domain : Option String) : Json → Except MemoryError Memory
  | .object members => l.addInputs (domain.getD Concept.nativeDomain) .empty members
  | _ => .error (.invalidInput "" .notAnObject)

end Conduit.ConceptLibrary
