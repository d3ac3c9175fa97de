import Conduit.Config
import Conduit.Generator.DryRun
import Conduit.Library.Basic
import Conduit.Run.Join

/-!
# Engines

An engine is everything that a run needs besides the memory: the library, the configuration, a
generator, the registered functions and the order in which branches end. In a dry run the generator
of dry runs takes the place of the engine's own. `Engine.checkInputs` decides whether a memory holds
what a pipe declares.
-/

namespace Conduit

/-- A registered function: content from a memory, or the reason why there is none. -/
abbrev Function := Memory → Except String Content

/-- Everything that a run needs besides the memory. -/
structure Engine where
  library : Library
  config : EngineConfig := {}
  generator : Generator := .unavailable
  functions : Dict Function := .empty
  schedule : Schedule := .byTime

/-- Runs a pipe on a memory. A name that is given is the one under which the result is stored. -/
abbrev Runner := String → Memory → RunParams → Option String → Run Memory

namespace Engine

/-- The generator that answers the requests of a live or of a dry run. -/
def generatorFor (e : Engine) (dry : Bool) : Generator :=
  if dry then .dryRun e.library.registry e.config.listSize else e.generator

/-- Whether content is as many values as declared. -/
def hasMultiplicity (c : Content) : Multiplicity → Bool
  | .single => !c.isList
  | .list => c.isList
  | .fixed n => c.count? == some n

/-- Checks that a variable holds what a pipe declares for it; a wildcard may hold a list or not. -/
def checkInput (e : Engine) (p : Pipe) (m : Memory) (name : String) (r : Requirement) :
    Except RunCause Unit := do
  let s ← (m.get name).mapError .memory
  if !e.library.concepts.isCompatible s.concept r.concept false then
    throw (.inputConcept p.code name r.concept s.concept)
  if !r.concept.isWildcard && !hasMultiplicity s.content r.multiplicity then
    throw (.inputMultiplicity p.code name r.multiplicity s.content.count?)

/-- Checks that a memory holds what a pipe declares. -/
def checkInputs (e : Engine) (p : Pipe) (m : Memory) : Except RunCause Unit :=
  let missing := p.inputs.keys.filter fun name => !m.contains name
  if missing.isEmpty then p.inputs.entries.forM fun (name, r) => e.checkInput p m name r
  else .error (.missingInputs p.code missing)

/-- The result of a memory operation, as far as a run goes on with it. -/
def stored {α : Type} : Except MemoryError α × Memory → Except RunCause (α × Memory)
  | (.ok a, m) => .ok (a, m)
  | (.error e, _) => .error (.memory e)

/-- Stores new content as the latest result of a pipe, and gives the name under which it is stored:
the given one, else the code of the pipe. -/
def storeResult (m : Memory) (pipe : String) (concept : Concept) (content : Content)
    (name : Option String) : Except RunCause (String × Memory) :=
  stored (m.setMain (m.fresh (name.getD pipe) concept content) name)

/-- Stores the latest result under another name as well, if one is given. -/
def storeAs (m : Memory) : Option String → Except RunCause Memory
  | none => .ok m
  | some name => (stored (m.storeMain name)).map Prod.snd

end Engine

end Conduit
