import Conduit.Blueprint.Bundle
import Conduit.Concept.Library
import Conduit.DefinitionError
import Conduit.Pipe.Basic

/-!
# Libraries

A library holds the loaded domains, the concepts with their structures, and the pipes. Pipe codes
are shared by all domains.
-/

namespace Conduit

/-- Everything a run can look up. -/
structure Library where
  domains : Dict Domain
  concepts : ConceptLibrary
  pipes : Dict Pipe
  deriving DecidableEq

namespace Library

/-- The library in which nothing is loaded. -/
def initial : Library := ⟨.empty, .initial, .empty⟩

/-- The registry of structures. -/
def registry (l : Library) : Registry := l.concepts.registry

/-- The pipe of a code, for another pipe that names it. -/
def pipe (l : Library) (code requestedBy : String) : Except MissingPipes Pipe :=
  match l.pipes.get? code with
  | some p => .ok p
  | none => .error ⟨requestedBy, [code]⟩

section

variable {l : Library} {p : Pipe} {code requestedBy : String}

/-- A pipe is found for a code if it is the pipe of the code. -/
theorem pipe_eq_ok_iff : l.pipe code requestedBy = .ok p ↔ l.pipes.get? code = some p := by
  unfold pipe
  cases l.pipes.get? code <;> simp

/-- No pipe is found for a code if there is none. -/
theorem pipe_eq_error_iff {e : MissingPipes} : l.pipe code requestedBy = .error e ↔
    l.pipes.get? code = none ∧ e = ⟨requestedBy, [code]⟩ := by
  unfold pipe
  cases l.pipes.get? code <;> simp [eq_comm]

end

/-- The prompt that a domain gives to language models. -/
def systemPrompt? (l : Library) (domain : String) : Option String :=
  (l.domains.get? domain).bind Domain.systemPrompt

end Library

end Conduit
