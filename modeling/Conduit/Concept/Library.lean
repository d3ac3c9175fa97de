import Conduit.Text.Blank
import Conduit.Text.Search
import Conduit.Concept.Basic
import Conduit.Structure.Registry

/-!
# The library of concepts

A library holds concepts under their full names, together with the registry of their structures.
`ConceptLibrary.resolve?` finds the concept of a reference, first in a domain and then among the
native ones, and `ConceptLibrary.isCompatible` decides whether a value of one concept may be used
where another is wanted.
-/

namespace Conduit

/-- Every known concept, under its full name, and every known structure. -/
structure ConceptLibrary where
  concepts : Dict Concept
  registry : Registry
  deriving DecidableEq

namespace ConceptLibrary

/-- The library that holds the native concepts only. -/
def initial : ConceptLibrary :=
  ⟨.ofList (NativeConcept.all.map fun n => (n.concept.name, n.concept)), .initial⟩

/-- The concept of a full name. -/
def get? (l : ConceptLibrary) (name : String) : Option Concept :=
  l.concepts.get? name

/-- A native concept, which need not be in the library. -/
def native (l : ConceptLibrary) (n : NativeConcept) : Concept :=
  (l.get? n.concept.name).getD n.concept

/-- The concept of a reference: a full name, or a code in a domain or among the native ones. -/
def resolve? (l : ConceptLibrary) (reference domain : String) : Option Concept :=
  let reference := Text.trimmed reference
  if reference.toList.contains '.' then l.get? reference
  else (l.get? (Concept.fullName domain reference)).or
    (l.get? (Concept.fullName Concept.nativeDomain reference))

/-- The library without a concept, and without its structure if no other concept has it. -/
def removeConcept (l : ConceptLibrary) (c : Concept) : ConceptLibrary :=
  let concepts := l.concepts.erase c.name
  if concepts.values.any (·.shape == c.shape) then ⟨concepts, l.registry⟩
  else ⟨concepts, l.registry.remove c.shape⟩

/-- The concepts of a domain. -/
def ofDomain (l : ConceptLibrary) (domain : String) : List Concept :=
  l.concepts.values.filter (·.domain == domain)

/-- The library without the concepts of a domain and the structures that only they have. -/
def removeDomain (l : ConceptLibrary) (domain : String) : ConceptLibrary :=
  (l.ofDomain domain).foldl removeConcept l

/-- Whether a value of the concept `tested` may be used where `wanted` is. A wildcard goes with
everything, a concept with itself, with those of its structure and with the one it refines. Beyond
that, two concepts that refine nothing are compared by their structures: in the strict mode these
must be equivalent, else one must descend from the other or have its required fields. -/
def isCompatible (l : ConceptLibrary) (tested wanted : Concept) (strict : Bool) : Bool :=
  if tested.isWildcard || wanted.isWildcard then true
  else if tested.name == wanted.name then true
  else if tested.shape == wanted.shape then true
  else if tested.refines == some wanted.name then true
  else if tested.refines.isNone && wanted.refines.isNone then
    if strict then l.registry.equivalent tested.shape wanted.shape
    else l.registry.isSubtype tested.shape wanted.shape ||
      l.registry.hasCompatibleFields tested.shape wanted.shape
  else false

end ConceptLibrary

end Conduit
