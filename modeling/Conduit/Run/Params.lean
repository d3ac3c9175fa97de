import Conduit.Pipe.Basic
import Conduit.Run.Error

/-!
# Parameters of a run

Each pipe runs with parameters: whether the run is dry, which pipes are running, and what the caller
asks of the output. What is asked of a pipe is not asked of the pipes that it runs.
-/

namespace Conduit

/-- How a pipe is run. The pipes on the stack are running, the outermost first. -/
structure RunParams where
  dry : Bool := false
  stack : List String := []
  multiplicity : Option Multiplicity := none
  dynamic : Option String := none
  deriving DecidableEq

namespace RunParams

/-- The number of pipes that are running. -/
def layer (p : RunParams) : Nat :=
  p.stack.length

/-- Puts a pipe on a stack that may have at most `limit` pipes. -/
def enter (p : RunParams) (limit : Nat) (code : String) : Except RunCause RunParams :=
  if p.layer < limit then .ok { p with stack := p.stack ++ [code] }
  else .error (.stackOverflow code limit)

/-- The parameters of a pipe that a step runs. -/
def forStep (p : RunParams) (s : Step) : RunParams :=
  { dry := p.dry, stack := p.stack, multiplicity := s.multiplicity }

/-- The parameters of a pipe of which nothing is asked. -/
def nested (p : RunParams) : RunParams :=
  { dry := p.dry, stack := p.stack }

/-- A pipe that a step runs is run dry exactly if its owner is. -/
@[simp] theorem dry_forStep (p : RunParams) (s : Step) : (p.forStep s).dry = p.dry := rfl

/-- A pipe of which nothing is asked is run dry exactly if the one that runs it is. -/
@[simp] theorem dry_nested (p : RunParams) : p.nested.dry = p.dry := rfl

end RunParams

end Conduit
