import Conduit.Run.Controller

/-!
# Running pipes

`Engine.run` runs a pipe on a memory. A pipe is looked up and put on the stack, its inputs are
checked, and then its kind decides. The stack has a limit, so a pipe that runs itself fails at some
depth, and the levels that are left below the limit bound the recursion. `Engine.execute` adds the
timeout, `Engine.dryRun` makes up the memory.
-/

namespace Conduit.Engine

/-- Runs a pipe that has been put on the stack. -/
def dispatch (e : Engine) (run : Runner) (p : Pipe) (m : Memory) (params : RunParams)
    (name : Option String) : Run Memory := do
  Run.mark (.entered p.code params)
  e.checkInputs p m
  match p.kind with
  | .sequence steps => e.runSequence run p steps m params name
  | .parallel q => e.runParallel run p q m params name
  | .condition c => runCondition run p c m params name
  | .batch branch b => e.runBatch run p.code branch b p.output m params name
  | .operator op => e.runOperator p op m params name

/-- The pipe of a code, for the pipe that is running. -/
def lookup (e : Engine) (code : String) (params : RunParams) : Except RunCause Pipe :=
  (e.library.pipe code (params.stack.getLast?.getD code)).mapError .missingPipes

/-- Runs a pipe when `levels` more pipes may be put on the stack. -/
def runWithin (e : Engine) : Nat → Runner
  | levels, code, m, params, name =>
    let before : Place := ⟨code, params.stack⟩
    match e.lookup code params, levels with
    | .error cause, _ => (Run.fail cause).located before
    | .ok p, 0 => (Run.fail (.stackOverflow p.code e.config.maxDepth)).located before
    | .ok p, levels + 1 =>
      let params := { params with stack := params.stack ++ [p.code] }
      (e.dispatch (e.runWithin levels) p m params name).located ⟨p.code, params.stack⟩

/-- Runs a pipe on a memory. -/
def run (e : Engine) : Runner
  | code, m, params, name => e.runWithin (e.config.maxDepth - params.layer) code m params name

/-- The outcome of a run that may take a number of seconds. -/
def withTimeout {α : Type} (e : Engine) (code : String) (r : Run α) : Run α :=
  match e.config.timeout with
  | none => r
  | some seconds =>
    let limit := seconds * 1000
    if r.elapsed.within limit then r
    else ⟨.error { cause := .timeout code seconds }, r.trace, .pause limit⟩

/-- Runs a pipe on a memory, within the time that it may take. -/
def execute (e : Engine) (code : String) (m : Memory) (params : RunParams) : Run Memory :=
  e.withTimeout code (e.run code m params none)

/-- The memory of placeholders on which a pipe is run dry: they are made for what it declares and
for what it needs. -/
def dryMemory (e : Engine) (code : String) : Except RunCause Memory := do
  let p ← (e.library.pipe code code).mapError .missingPipes
  let needs ← (e.library.needs p).mapError NeedsError.toCause
  (e.library.concepts.placeholders e.config.listSize (p.inputs.merge needs)).mapError
    PlaceholderError.toCause

/-- Runs a pipe dry, on placeholders. -/
def dryRun (e : Engine) (code : String) : Run Memory := do
  let m ← e.dryMemory code
  e.execute code m { dry := true }

/-- The pipes of a library with the outcomes of their dry runs. -/
def dryRunAll (e : Engine) : List (String × Run Memory) :=
  e.library.pipes.keys.map fun code => (code, e.dryRun code)

end Conduit.Engine
