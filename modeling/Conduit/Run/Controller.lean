import Conduit.Run.Join
import Conduit.Run.Operator

/-!
# Running controllers

A controller runs other pipes through the runner that it is given. Branches that run side by side
each work on the memory as it was, and only their results come back. In a dry run a condition
explores every pipe that it may lead to, except those that are running already.
-/

namespace Conduit.Engine

/-! ## Batches -/

/-- The items of a list that a batch is spread over, and their concept. -/
def batchItems (m : Memory) (list : String) : Except RunCause (Concept × List Content) := do
  let s ← (m.get list).mapError .memory
  match s.content with
  | .list items => return (s.concept, items)
  | c => throw (.memory (Memory.mismatch list "list" c))

/-- The memory of the run for an item. -/
def itemMemory (m : Memory) (name : String) (c : Concept) (item : Content) : Memory :=
  m.set name (m.fresh name c item)

/-- The contents of the latest results of several memories. -/
def mainContents (memories : List Memory) : Except RunCause (List Content) :=
  (memories.mapM fun m => (Memory.main m).map Stuff.content).mapError .memory

/-- Runs a pipe for each item of a list, side by side, and stores the list of their results. `owner`
is the pipe that asks for it and `output` the concept of the results. -/
def runBatch (e : Engine) (run : Runner) (owner branch : String) (b : Batching) (output : Concept)
    (m : Memory) (params : RunParams) (name : Option String) : Run Memory := do
  let (c, items) ← batchItems m b.list
  (List.range items.length).forM fun i => Run.emit (.batchStep owner params.layer b.list i)
  let memories ← Run.join e.schedule owner (items.map fun item =>
    run branch (itemMemory m b.item c item) params.nested none)
  let contents ← mainContents memories
  let (stored, m) ← storeResult m owner output (.list contents) name
  Run.emit (.aggregateStep owner params.layer [b.list] stored)
  return m

/-! ## Sequences -/

/-- The pipe that a step runs for each item of a list. -/
def batchTarget (e : Engine) (owner : Pipe) (s : Step) : Except RunCause Pipe :=
  (e.library.pipe s.pipe owner.code).mapError .missingPipes

/-- Runs a step of a pipe. -/
def runStep (e : Engine) (run : Runner) (p : Pipe) (s : Step) (m : Memory) (params : RunParams) :
    Run Memory :=
  match s.batching with
  | none => run s.pipe m params s.result
  | some b => do
    let target ← e.batchTarget p s
    e.runBatch run p.code target.code b target.output m params s.result

/-- Runs the steps of a pipe one after another. -/
def runSteps (e : Engine) (run : Runner) (p : Pipe) (params : RunParams) (m : Memory) :
    List Step → Run Memory
  | [] => return m
  | s :: rest => do
    let m ← e.runStep run p s m (params.forStep s)
    e.runSteps run p params m rest

/-- Checks that the latest result is what a pipe declares as its output. -/
def checkOutput (e : Engine) (p : Pipe) (m : Memory) : Except RunCause Unit := do
  let produced ← m.main.mapError .memory
  if !e.library.concepts.isCompatible produced.concept p.output false then
    throw (.outputConcept p.code p.output produced.concept)

/-- Runs a sequence. -/
def runSequence (e : Engine) (run : Runner) (p : Pipe) (steps : List Step) (m : Memory)
    (params : RunParams) (name : Option String) : Run Memory := do
  let m ← e.runSteps run p params m steps
  e.checkOutput p m
  storeAs m name

/-! ## Parallels -/

/-- The name of the result of a branch. -/
def resultName (s : Step) : String :=
  s.result.getD s.pipe

/-- Checks that the pipes of branches that run for each item of a list are there. -/
def checkTargets (e : Engine) (p : Pipe) (branches : List Step) : Except RunCause Unit :=
  branches.forM fun s => if s.batching.isSome then (e.batchTarget p s).map fun _ => () else .ok ()

/-- The named results of branches, from their memories. -/
def branchResults (branches : List Step) (memories : List Memory) :
    Except RunCause (List (String × Stuff)) :=
  ((branches.zip memories).mapM fun (s, m) => (Memory.main m).map (resultName s, ·)).mapError
    .memory

/-- Stores the result of each branch under its name. -/
def storeEach (m : Memory) (results : List (String × Stuff)) : Memory :=
  results.foldl (fun m (name, s) => m.set name s) m

/-- Stores the result of each branch, the last of them as the latest result. -/
def storeResults (m : Memory) (results : List (String × Stuff)) : Except RunCause Memory :=
  match results.getLast? with
  | none => .ok m
  | some (last, _) =>
    ((storeEach m results).setAlias Memory.mainAlias last).mapError .memory

/-- The record that combines the results of branches. -/
def combine (e : Engine) (c : Concept) (results : List (String × Stuff)) :
    Except RunCause Content :=
  let record := Json.ofMembers (results.map fun (name, s) => (name, s.content.value))
  (e.library.registry.read c.shape record).mapError .record

/-- Runs branches side by side and stores their results. -/
def runParallel (e : Engine) (run : Runner) (p : Pipe) (q : Parallel) (m : Memory)
    (params : RunParams) (name : Option String) : Run Memory := do
  e.checkTargets p q.branches
  let memories ← Run.join e.schedule p.code (q.branches.map fun s =>
    e.runStep run p s m (params.forStep s))
  let results ← branchResults q.branches memories
  let m ← storeResults m (if q.addEach then results else [])
  match q.combined with
  | none => storeAs m name
  | some c =>
    let content ← e.combine c results
    let (stored, m) ← storeResult m p.code c content name
    Run.emit (.aggregateStep p.code params.layer (results.map Prod.fst) stored)
    return m

/-! ## Conditions -/

/-- The text that a condition chooses by. -/
def evaluated (m : Memory) (subject : Subject) : Except RunCause String :=
  (match subject with
    | .expression source => Expression.evaluate m source
    | .template source => Template.render m source).map Text.trimmed |>.mapError .templating

/-- The memory in which an evaluated text stands for a variable, if it is to. -/
def aliased (m : Memory) (evaluated : String) : Option String → Except RunCause Memory
  | none => .ok m
  | some target => (m.setAlias evaluated target).mapError .memory

/-- Runs the pipes that a condition may lead to, except those that are running already, each on the
same memory. -/
def exploreEach (run : Runner) (m : Memory) (params : RunParams) (name : Option String) :
    List String → Run (List (String × Memory))
  | [] => return []
  | code :: rest =>
    if params.stack.contains code then exploreEach run m params name rest
    else do
      let explored ← run code m params.nested name
      let more ← exploreEach run m params name rest
      return (code, explored) :: more

/-- Runs the pipes that a condition may lead to, and goes on with the memory that the chosen one
leaves, else with that of the first, else with the memory as it was. -/
def explore (run : Runner) (c : Condition) (chosen : Outcome) (m : Memory) (params : RunParams)
    (name : Option String) : Run Memory := do
  let explored ← exploreEach run m params name c.pipes
  let choice := explored.find? fun (code, _) => chosen.pipe? == some code
  return (choice.or explored.head?).elim m Prod.snd

/-- Goes where an outcome leads. -/
def follow (run : Runner) (p : Pipe) (text : String) (m : Memory) (params : RunParams)
    (name : Option String) : Outcome → Run Memory
  | .keep => return m
  | .fail => Run.fail (.conditionFailed p.code text)
  | .run code => run code m params.nested name

/-- Runs a condition. -/
def runCondition (run : Runner) (p : Pipe) (c : Condition) (m : Memory) (params : RunParams)
    (name : Option String) : Run Memory := do
  let text ← evaluated m c.subject
  let m ← aliased m text c.aliasTarget
  Run.emit (.conditionStep p.code params.layer c.subject.source text)
  let outcome := c.outcome text
  Run.emit (.choiceStep p.code params.layer text outcome.describe)
  if params.dry then explore run c outcome m params name
  else follow run p text m params name outcome

end Conduit.Engine
