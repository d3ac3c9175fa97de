import Conduit.Run.Params
import Conduit.Run.Time

/-!
# Runs

A run ends with a result or an error. It leaves a trace of what happened on the way, and it takes
some time. Runs follow one another by `Run.bind`: the traces are joined and the times are added up.
A cause becomes the error of a run through `Run.ofExcept`.
-/

namespace Conduit

/-- What observers of a run are told. A layer is the number of pipes that are running. -/
inductive Event where
  | pipeStep (pipe : String) (layer : Nat) (inputs : List String) (stored : String)
  | batchStep (pipe : String) (layer : Nat) (list : String) (index : Nat)
  | aggregateStep (pipe : String) (layer : Nat) (inputs : List String) (stored : String)
  | conditionStep (pipe : String) (layer : Nat) (expression evaluated : String)
  | choiceStep (pipe : String) (layer : Nat) (evaluated chosen : String)
  deriving DecidableEq

/-- What happens in a run: a pipe is entered, observers are told something, the generator is asked
for something, or a registered function is called. -/
inductive Mark where
  | entered (pipe : String) (params : RunParams)
  | event (event : Event)
  | request (request : Request)
  | call (function : String)
  deriving DecidableEq

/-- What observers are told, if they are. -/
def Mark.event? : Mark → Option Event
  | event e => some e
  | _ => none

/-- What the generator is asked for, if it is. -/
def Mark.request? : Mark → Option Request
  | request r => some r
  | _ => none

/-- How a run ends, what happened in it, and how long it takes. -/
structure Run (α : Type) where
  result : Except RunError α
  trace : List Mark
  elapsed : Time

namespace Run

variable {α β : Type}

/-- The run that ends at once. -/
def pure (a : α) : Run α := ⟨.ok a, [], .zero⟩

/-- Goes on after a run, unless it has failed. -/
def bind (r : Run α) (f : α → Run β) : Run β :=
  match r.result with
  | .error e => ⟨.error e, r.trace, r.elapsed⟩
  | .ok a =>
    let next := f a
    ⟨next.result, r.trace ++ next.trace, r.elapsed.followedBy next.elapsed⟩

instance : Monad Run where
  pure := Run.pure
  bind := Run.bind

/-- The run that fails at once. -/
def fail (cause : RunCause) : Run α := ⟨.error { cause }, [], .zero⟩

/-- The run that has a given result. -/
def ofExcept : Except RunCause α → Run α
  | .ok a => pure a
  | .error cause => fail cause

instance : MonadLift (Except RunCause) Run where
  monadLift := ofExcept

/-- The run that leaves a mark. -/
def mark (m : Mark) : Run Unit := ⟨.ok (), [m], .zero⟩

/-- The run that tells observers something. -/
def emit (e : Event) : Run Unit := mark (.event e)

/-- The run in which a pipe has a generator's reply; requests of dry runs leave no mark. -/
def ask (pipe : String) (dry : Bool) (request : Request) (reply : Reply α) : Run α :=
  { result := reply.answer.mapError fun e => { cause := .backend pipe e }
    trace := if dry then [] else [.request request]
    elapsed := .pause reply.delay }

/-- Adds a place to the error of a run. -/
def located (place : Place) (r : Run α) : Run α :=
  { r with result := r.result.mapError (·.locate place) }

/-- Whether a run fails. -/
def failed (r : Run α) : Bool :=
  match r.result with
  | .ok _ => false
  | .error _ => true

/-- What observers were told. -/
def events (r : Run α) : List Event :=
  r.trace.filterMap Mark.event?

/-- What the generator was asked for. -/
def requests (r : Run α) : List Request :=
  r.trace.filterMap Mark.request?

end Run

end Conduit
