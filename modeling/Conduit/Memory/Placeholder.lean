import Conduit.Concept.Library
import Conduit.Content.Placeholder
import Conduit.Memory.Basic
import Conduit.Pipe.Basic

/-!
# Memory of placeholders

A dry run starts from a memory that holds a placeholder for each requirement of the pipe.
-/

namespace Conduit

/-- Why there is no memory of placeholders. -/
inductive PlaceholderError where
  | record (error : RecordError)
  | memory (error : MemoryError)
  deriving DecidableEq

namespace ConceptLibrary

/-- Placeholders of a concept: one, or a list of them. `size` is the length of a list that may have
any length. -/
def placeholder (l : ConceptLibrary) (size : Nat) (c : Concept) (m : Multiplicity) :
    Except RecordError Content :=
  let one := Placeholder.content l.registry size c.name c.shape
  match m with
  | .single => one
  | .list => items one size
  | .fixed n => items one n
where
  /-- A list of equal items. -/
  items (one : Except RecordError Content) : Nat → Except RecordError Content
    | 0 => .ok (.list [])
    | n + 1 => one.map fun c => .list (List.replicate (n + 1) c)

/-- Adds a placeholder for each requirement to a memory. -/
def addPlaceholders (l : ConceptLibrary) (size : Nat) (m : Memory) :
    List (String × Requirement) → Except PlaceholderError Memory
  | [] => .ok m
  | (name, r) :: rest => do
    let content ← (l.placeholder size r.concept r.multiplicity).mapError .record
    match m.add name (m.fresh name r.concept content) [] with
    | (.ok (), m) => l.addPlaceholders size m rest
    | (.error e, _) => throw (.memory e)

/-- The memory that holds a placeholder for each requirement. -/
def placeholders (l : ConceptLibrary) (size : Nat) (needs : Requirements) :
    Except PlaceholderError Memory :=
  l.addPlaceholders size .empty needs.entries

end ConceptLibrary

end Conduit
