import Conduit.Command.Basic
import Conduit.Json.Parser
import Conduit.Library.Load
import Conduit.Memory.Input
import Conduit.Run.Pipeline

/-!
# Executing commands

`Invocation.execute` does what a command asks for, given the files that it names. It prints texts
and may then fail; what was printed before stays.
-/

namespace Conduit

/-- What is found under the name of a file. -/
inductive FileContent where
  | absent
  | unreadable
  | text (text : String)
  deriving DecidableEq

/-- The text of a file that can be read. -/
def FileContent.text? : FileContent → Option String
  | text s => some s
  | absent | unreadable => none

/-- What a file is for. -/
inductive FileUse where
  | bundle
  | inputs
  deriving DecidableEq

/-- A use in words. -/
def FileUse.describe : FileUse → String
  | bundle => "bundle"
  | inputs => "inputs"

/-- Why a command fails. -/
inductive CommandError where
  | config (error : ConfigError)
  | unreadable (use : FileUse) (path : String)
  | malformed (use : FileUse) (path : String)
  | load (path : String) (error : LoadError)
  | missingPipes (error : MissingPipes)
  | needs (error : NeedsError)
  | memory (error : MemoryError)
  | run (error : RunError)
  | failedRuns (count : Nat)
  deriving DecidableEq

/-- An error in words. -/
def CommandError.message : CommandError → String
  | config error => error.message
  | unreadable use path => s!"Failed to read {use.describe} file: {path}"
  | malformed use path => s!"Failed to parse {use.describe} file: {path}"
  | load path _ => s!"Failed to load bundle: {path}"
  | missingPipes error => error.message
  | needs error => error.message
  | memory error => error.message
  | run error => error.message
  | failedRuns count => s!"{count} pipe(s) failed their dry run"

/-- What a command prints, each text on lines of its own, and the error with which it fails. -/
structure Report where
  output : List String
  error : Option CommandError := none

namespace Report

/-- What a command prints that does not fail after it has begun to print. -/
def ofExcept : Except CommandError Report → Report
  | .ok r => r
  | .error e => { output := [], error := some e }

end Report

namespace Command

/-- The text of a file that is needed. -/
def readFile (files : String → FileContent) (use : FileUse) (path : String) :
    Except CommandError String :=
  match (files path).text? with
  | some text => .ok text
  | none => .error (.unreadable use path)

/-- A library with the bundles of files. -/
def loadFiles (files : String → FileContent) (policy : ReactionPolicy) (l : Library) :
    List String → Except CommandError Library
  | [] => .ok l
  | path :: rest => do
    let text ← readFile files .bundle path
    match Bundle.ofText? text with
    | none => throw (.malformed .bundle path)
    | some b => do
      let l ← (l.load b policy).mapError (.load path)
      loadFiles files policy l rest

/-- Prints the latest result of a run. -/
def reportResult (r : Run Memory) : Except CommandError Report := do
  let m ← r.result.mapError .run
  let s ← m.main.mapError .memory
  return { output := [s.content.toJson.pretty] }

/-- The line for the dry run of a pipe. -/
def dryRunLine (code : String) (r : Run Memory) : String :=
  match r.result with
  | .ok _ => s!"ok      {code}"
  | .error e => s!"failed  {code}: {e.message}"

/-- Runs every pipe dry: the pipes that succeed are printed before those that fail. -/
def dryRunAll (e : Engine) : Report :=
  let runs := e.dryRunAll
  let succeeded := runs.filter fun (_, r) => !r.failed
  let failed := runs.filter fun (_, r) => r.failed
  { output := (succeeded ++ failed).map fun (code, r) => dryRunLine code r
    error := if failed.isEmpty then none else some (.failedRuns failed.length) }

/-- The memory that a file of inputs fills. -/
def readInputs (files : String → FileContent) (l : Library) (pipe : String) :
    Option String → Except CommandError Memory
  | none => .ok .empty
  | some path => do
    let text ← readFile files .inputs path
    match Json.parse? text with
    | none => throw (.malformed .inputs path)
    | some v =>
      (l.concepts.memoryOf ((l.pipes.get? pipe).map Pipe.domain) v).mapError .memory

/-- The line for a variable that a pipe needs. -/
def needLine (name : String) (r : Requirement) : String :=
  s!"{name}: {r.concept.name} ({r.multiplicity.describe})"

/-- Does what a command asks for. -/
def execute (files : String → FileContent) (config : EngineConfig) (c : Command) :
    Except CommandError Report := do
  let l ← loadFiles files config.policy .initial c.bundles
  let e : Engine := { library := l, config }
  match c with
  | help => return { output := ["Available subcommands: validate, dry-run, needed-inputs, run"] }
  | validate _ =>
    return { output := [s!"{l.pipes.size} pipe(s) in {l.domains.size} domain(s) are valid"] }
  | dryRun _ none => return dryRunAll e
  | dryRun _ (some pipe) => reportResult (e.dryRun pipe)
  | neededInputs _ pipe =>
    let p ← (l.pipe pipe pipe).mapError .missingPipes
    let needs ← (l.needs p).mapError .needs
    return { output := needs.entries.map fun (name, r) => needLine name r }
  | run _ pipe inputs =>
    let m ← readInputs files l pipe inputs
    reportResult (e.execute pipe m {})

end Command

namespace Invocation

/-- The configuration that a file gives; one that is not there leaves every setting out. -/
def readConfig (files : String → FileContent) (path : String) : Except ConfigError EngineConfig :=
  match files path with
  | .absent => .ok {}
  | .unreadable => .error (.unreadable path)
  | .text text => EngineConfig.load path text

/-- Does what an invocation asks for. `standard` is the place of the configuration file if none is
asked for. -/
def execute (files : String → FileContent) (standard : String) (i : Invocation) : Report :=
  .ofExcept do
    let config ← (readConfig files (i.config.getD standard)).mapError CommandError.config
    i.command.execute files config

end Invocation

end Conduit
