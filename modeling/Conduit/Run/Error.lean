import Conduit.DefinitionError
import Conduit.Generator.Basic
import Conduit.Library.Needs
import Conduit.Memory.Placeholder
import Conduit.Template.Render

/-!
# Errors of runs

A run fails for a cause. The pipe in which the failure arises adds its place, and the pipes around
it leave the place as it is, so an error tells the innermost pipe.
-/

namespace Conduit

/-- Why a run fails. -/
inductive RunCause where
  | missingInputs (pipe : String) (names : List String)
  | missingPipes (error : MissingPipes)
  | templating (error : TemplateError)
  | memory (error : MemoryError)
  | record (error : RecordError)
  | inputConcept (pipe name : String) (expected actual : Concept)
  | inputMultiplicity (pipe name : String) (expected : Multiplicity) (actual : Option Nat)
  | outputConcept (pipe : String) (expected actual : Concept)
  | unknownConcept (pipe reference : String)
  | conditionFailed (pipe evaluated : String)
  | stackOverflow (pipe : String) (limit : Nat)
  | backend (pipe : String) (error : BackendError)
  | functionNotFound (pipe name : String)
  | function (pipe name reason : String)
  | branchLost (pipe : String) (index : Nat)
  | timeout (pipe : String) (seconds : Nat)
  deriving DecidableEq

/-- What a failure is about. -/
inductive FailureCategory where
  | input
  | definition
  | templating
  | backend
  | condition
  | stackDepth
  | timeout
  | internal
  deriving DecidableEq, Repr

namespace RunCause

/-- The length of a list in words, or that there is no list. -/
def lengthText : Option Nat → String
  | some n => s!"list of {n}"
  | none => "single"

/-- A cause in words. -/
def message : RunCause → String
  | missingInputs pipe names =>
    s!"pipe '{pipe}' is missing required inputs: " ++ ", ".intercalate names
  | missingPipes error => error.message
  | templating error => error.message
  | memory error => error.message
  | record error => error.message
  | inputConcept pipe name expected actual =>
    s!"pipe '{pipe}' input '{name}' expects concept '{expected.name}' but got '{actual.name}'"
  | inputMultiplicity pipe name expected actual =>
    s!"pipe '{pipe}' input '{name}' expects {expected.describe} but got {lengthText actual}"
  | outputConcept pipe expected actual =>
    s!"pipe '{pipe}' must output '{expected.name}' but produced '{actual.name}'"
  | unknownConcept pipe reference => s!"unknown concept '{reference}' requested by pipe '{pipe}'"
  | conditionFailed pipe evaluated =>
    s!"condition pipe '{pipe}' failed on evaluated value '{evaluated}'"
  | stackOverflow pipe limit => s!"pipe stack exceeded {limit} levels while entering '{pipe}'"
  | backend pipe error => s!"pipe '{pipe}' backend call failed: {error.message}"
  | functionNotFound pipe name => s!"pipe '{pipe}' calls unregistered function '{name}'"
  | function pipe name reason => s!"pipe '{pipe}' function '{name}' failed: {reason}"
  | branchLost pipe index =>
    s!"branch of pipe '{pipe}' was aborted: branch {index} produced no output"
  | timeout pipe seconds => s!"pipeline '{pipe}' timed out after {seconds}s"

/-- What a cause is about. -/
def category : RunCause → FailureCategory
  | missingInputs .. | memory _ | inputConcept .. | inputMultiplicity .. => .input
  | missingPipes _ | unknownConcept .. | functionNotFound .. | outputConcept .. => .definition
  | templating _ => .templating
  | backend .. | function .. | record _ => .backend
  | conditionFailed .. => .condition
  | stackOverflow .. => .stackDepth
  | timeout .. => .timeout
  | branchLost .. => .internal

end RunCause

/-- Needs that cannot be computed, as a cause. -/
def NeedsError.toCause : NeedsError → RunCause
  | missingPipes e => .missingPipes e
  | templating e => .templating (.unreadable e)
  | undeclaredItem e => .missingInputs e.branch [e.item]

/-- Placeholders that cannot be made, as a cause. -/
def PlaceholderError.toCause : PlaceholderError → RunCause
  | record e => .record e
  | memory e => .memory e

/-- Where a run fails: the pipe, and the pipes that were running, the outermost first. -/
structure Place where
  pipe : String
  stack : List String
  deriving DecidableEq

/-- A failure of a run, and where it arose. -/
structure RunError where
  cause : RunCause
  place : Option Place := none
  deriving DecidableEq

namespace RunError

/-- Adds a place to an error that has none. -/
def locate (place : Place) (e : RunError) : RunError :=
  { e with place := e.place.or (some place) }

/-- The pipes that were running, the outermost first. -/
def stack (e : RunError) : List String :=
  e.place.elim [] Place.stack

/-- An error in words. -/
def message (e : RunError) : String :=
  match e.place with
  | none => e.cause.message
  | some place =>
    s!"pipe '{place.pipe}' failed (stack: " ++ " > ".intercalate place.stack ++
      s!"): {e.cause.message}"

end RunError

end Conduit
