import Conduit.Library.Basic

/-!
# What a pipe needs

`Library.needs` computes which variables must hold what before a pipe can run, through all the pipes
that it runs. A pipe that is met again on the way to itself adds nothing, so the computation ends
for pipes that run themselves. `Library.required` is narrower: the variables that the logic of a
pipe itself reads.
-/

namespace Conduit

/-- Why the needs of a pipe cannot be computed. -/
inductive NeedsError where
  | missingPipes (error : MissingPipes)
  | templating (error : SyntaxError)
  | undeclaredItem (error : UndeclaredItem)
  deriving DecidableEq

/-- An error in words. -/
def NeedsError.message : NeedsError → String
  | missingPipes e => e.message
  | templating e => e.message
  | undeclaredItem e => e.message

namespace Library

/-- The names that a step leaves in memory: that of its result, and those of the branches of a
pipe that stores each of them. -/
def writtenNames (target : Pipe) (step : Step) : List String :=
  step.result.toList ++ match target.kind with
    | .parallel q =>
      if q.addEach then q.branches.map fun b => b.result.getD b.pipe else []
    | _ => []

/-- Needs of a branch that runs for each item of a list: the list takes the place of the item, which
the branch must declare. -/
def absorb (owner : String) (branch : Pipe) (needs : Requirements) (b : Batching) :
    Except NeedsError Requirements :=
  match branch.inputs.get? b.item with
  | none => .error (.undeclaredItem ⟨owner, branch.code, b.item⟩)
  | some item =>
    .ok ((Dict.empty.insert b.list ⟨item.concept, .list⟩).merge (needs.erase b.item))

/-- The requirement on a variable: what a pipe declares for it, else that it holds anything. -/
def declaredOrAnything (l : Library) (p : Pipe) (name : String) : Requirement :=
  (p.inputs.get? name).getD ⟨l.concepts.native .anything, .single⟩

/-- The variables that a condition reads, and the one that it makes an alias of. -/
def conditionVariables (c : Condition) : Except NeedsError (List String) := do
  let read ← match c.subject with
    | .expression source => (Expression.freeNames? source).mapError .templating
    | .template source => (Template.freeNames? source).mapError .templating
  return distinct (read ++ c.aliasTarget.toList)

/-- Needs of a step of the pipe `owner`, from those of its target. -/
def stepNeeds (owner : String) (target : Pipe) (step : Step) (needs : Requirements) :
    Except NeedsError Requirements :=
  match step.batching with
  | some b => absorb owner target needs b
  | none => .ok needs

/-- Needs of steps that run one after another. What an earlier step leaves in memory is not needed
by a later one. -/
def sequenceNeeds (l : Library) (visit : Pipe → Except NeedsError Requirements) (owner : String)
    (known : Requirements) (produced : List String) :
    List Step → Except NeedsError Requirements
  | [] => .ok known
  | step :: rest => do
    let target ← (l.pipe step.pipe owner).mapError .missingPipes
    let needs ← visit target
    let needs ← stepNeeds owner target step needs
    l.sequenceNeeds visit owner (known.merge (needs.filter fun name _ => !produced.contains name))
      (produced ++ writtenNames target step) rest

/-- Needs of steps that run side by side. -/
def branchNeeds (l : Library) (visit : Pipe → Except NeedsError Requirements) (owner : String)
    (known : Requirements) : List Step → Except NeedsError Requirements
  | [] => .ok known
  | step :: rest => do
    let target ← (l.pipe step.pipe owner).mapError .missingPipes
    let needs ← visit target
    let needs ← stepNeeds owner target step needs
    l.branchNeeds visit owner (known.merge needs) rest

/-- Needs of the pipes that a condition may lead to. -/
def outcomeNeeds (l : Library) (visit : Pipe → Except NeedsError Requirements) (owner : String)
    (known : Requirements) : List String → Except NeedsError Requirements
  | [] => .ok known
  | code :: rest => do
    let target ← (l.pipe code owner).mapError .missingPipes
    let needs ← visit target
    l.outcomeNeeds visit owner (known.merge needs) rest

/-- Needs of a pipe, from those of the pipes that it runs itself. -/
def needsOf (l : Library) (visit : Pipe → Except NeedsError Requirements) (p : Pipe) :
    Except NeedsError Requirements :=
  match p.kind with
  | .operator _ => .ok p.inputs
  | .sequence steps => l.sequenceNeeds visit p.code .empty [] steps
  | .parallel q => l.branchNeeds visit p.code .empty q.branches
  | .condition c => do
    let names ← conditionVariables c
    let known := names.foldl (fun known name =>
      known.insertNew name (l.declaredOrAnything p name)) .empty
    l.outcomeNeeds visit p.code known c.pipes
  | .batch branch b => do
    let target ← (l.pipe branch p.code).mapError .missingPipes
    let needs ← visit target
    absorb p.code target needs b

/-- Needs of a pipe that is reached through the pipes `path`, at most `n` more pipes deep. -/
def needsWithin (l : Library) : Nat → List String → Pipe → Except NeedsError Requirements
  | 0, _, _ => .ok .empty
  | n + 1, path, p =>
    if p.code ∈ path then .ok .empty
    else l.needsOf (l.needsWithin n (p.code :: path)) p

/-- The variables that must hold something before a pipe can run. A path that meets no pipe twice
has at most one pipe that is not in the library and each of the others once. -/
def needs (l : Library) (p : Pipe) : Except NeedsError Requirements :=
  l.needsWithin (l.pipes.size + 2) [] p

/-- The inputs of a pipe that go into a prompt as images. -/
def imageInputs (l : Library) (p : Pipe) : List String :=
  (p.inputs.entries.filter fun (_, r) =>
    !r.concept.isWildcard && l.concepts.isCompatible r.concept (l.concepts.native .image) false).map
      (·.1)

/-- The variables that the logic of a pipe itself reads. -/
def required (l : Library) (p : Pipe) : Except NeedsError (List String) :=
  let read (source : String) := (Template.freeNames? source).mapError NeedsError.templating
  match p.kind with
  | .operator (.llm prompt system) => do
    let inPrompt ← read prompt
    let inSystem ← match system with
      | some source => read source
      | none => pure []
    return distinct (inPrompt ++ inSystem ++ l.imageInputs p)
  | .operator (.imgGen (some prompt)) => read prompt
  | .operator (.imgGen none) | .operator (.extract _) | .operator (.func _) => .ok p.inputs.keys
  | .operator (.compose template) => read template
  | .condition c => conditionVariables c
  | .batch _ b => .ok [b.list]
  | .sequence _ | .parallel _ => (l.needs p).map Dict.keys

end Library

end Conduit
