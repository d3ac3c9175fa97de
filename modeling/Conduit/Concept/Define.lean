import Conduit.Text.Name
import Conduit.Blueprint.Concept
import Conduit.Concept.Library
import Conduit.DefinitionError
import Conduit.Structure.Source.Render

/-!
# Defining concepts

`ConceptLibrary.make` turns a declared concept into a concept. A declaration may name a structure,
give one by a schema, which is then registered under the concept's code, or refine a native concept;
one that does none of these has the structure of texts. `ConceptLibrary.add` puts a concept into the
library.
-/

namespace Conduit.ConceptLibrary

/-- What is wrong with the code of a new concept, if anything is. -/
def codeFault? (code : String) : Option CodeFault :=
  if !Text.isConceptCode code then some .notPascalCase
  else if (NativeConcept.ofCode? code).isSome then some .reserved
  else none

/-- The structure of a declared concept, the native concept that it refines, and the registry with a
structure that the declaration adds. -/
def shapeOf (l : ConceptLibrary) (domain code : String) (d : ConceptDetail) :
    Except DefinitionError (String × Option String × Registry) :=
  let name := Concept.fullName domain code
  match d.shape, d.refines with
  | some _, some _ => .error (.structureAndRefinement name)
  | none, some reference =>
    match l.resolve? reference domain with
    | none => .error (.unknownConcept reference (.refinement name))
    | some parent =>
      if parent.isNative then .ok (parent.shape, some parent.name, l.registry)
      else .error (.invalidRefinement name parent.name)
  | some (.named shape), none =>
    if l.registry.contains shape then .ok (shape, none, l.registry)
    else .error (.unknownStructure name shape)
  | some (.schema fields), none => do
    let s ← (l.registry.synthesize code fields).mapError .badStructure
    match l.registry.register? s with
    | some registry => return (code, none, registry)
    | none => throw (.duplicateStructure s.name)
  | none, none => .ok (Structure.textContent, none, l.registry)

/-- The concept that a declaration makes, and the library with the structure that it adds. The
concept is not in the library yet. -/
def make (l : ConceptLibrary) (domain code : String) (b : ConceptBlueprint) :
    Except DefinitionError (Concept × ConceptLibrary) :=
  match codeFault? code with
  | some fault => .error (.invalidCode code fault)
  | none => do
    let (shape, refines, registry) ← l.shapeOf domain code b.detail
    return (⟨code, domain, b.detail.description, shape, refines⟩, { l with registry })

/-- The library with one more concept, whose name is new and whose structure is registered. -/
def add (l : ConceptLibrary) (c : Concept) : Except DefinitionError ConceptLibrary :=
  if l.concepts.contains c.name then .error (.duplicateConcept c.name)
  else if !l.registry.contains c.shape then .error (.unknownStructure c.name c.shape)
  else .ok { l with concepts := l.concepts.insert c.name c }

end Conduit.ConceptLibrary
