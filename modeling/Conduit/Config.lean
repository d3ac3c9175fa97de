import Conduit.Blueprint.Reaction
import Conduit.Text.Blank
import Conduit.Yaml.Document

/-!
# Configuration

The configuration of runs: how deeply pipes may be nested, how many items the lists of a dry run
have, how long a run may take, and what happens to the findings of the checks. It is read from a
file, in which every setting may be left out.
-/

namespace Conduit

/-- The configuration of runs. The timeout is in seconds. -/
structure EngineConfig where
  maxDepth : Nat := 32
  listSize : Nat := 3
  timeout : Option Nat := none
  policy : ReactionPolicy := {}
  deriving DecidableEq

/-- A setting that is not allowed. -/
inductive ConfigFault where
  | noDepth
  | noTime
  deriving DecidableEq

/-- A fault in words. -/
def ConfigFault.message : ConfigFault → String
  | noDepth => "max_stack_depth must be at least 1"
  | noTime => "run_timeout_secs must be at least 1 when set"

/-- Why a file gives no configuration. -/
inductive ConfigError where
  | unreadable (path : String)
  | malformed (path : String)
  | invalid (fault : ConfigFault)
  deriving DecidableEq

/-- An error in words. -/
def ConfigError.message : ConfigError → String
  | unreadable path => s!"failed to read config file '{path}'"
  | malformed path => s!"failed to parse config file '{path}'"
  | invalid fault => s!"invalid config: {fault.message}"

namespace EngineConfig

/-- The keys of a configuration, in their order. -/
def keys : List String :=
  ["max_stack_depth", "dry_run_list_size", "run_timeout_secs", "validation"]

/-- The configuration that a value writes. -/
def ofJson? (v : Json) : Option EngineConfig := do
  let get ← v.fields? keys
  return { maxDepth := ← Json.defaulted 32 Json.count? (get "max_stack_depth")
           listSize := ← Json.defaulted 3 Json.count? (get "dry_run_list_size")
           timeout := ← Json.optional Json.count? (get "run_timeout_secs")
           policy := ← Json.defaulted {} ReactionPolicy.ofJson? (get "validation") }

/-- The configuration that the value of a file writes. -/
def ofYaml? (v : Yaml) : Option EngineConfig := do
  let get ← v.fields? keys
  return { maxDepth := ← Yaml.defaulted 32 Yaml.count? (get "max_stack_depth")
           listSize := ← Yaml.defaulted 3 Yaml.count? (get "dry_run_list_size")
           timeout := ← Yaml.optional Yaml.count? (get "run_timeout_secs")
           policy := ← Yaml.defaulted {} ReactionPolicy.ofYaml? (get "validation") }

/-- Checks that pipes can run at all. -/
def check (c : EngineConfig) : Except ConfigFault Unit :=
  if c.maxDepth = 0 then .error .noDepth
  else if c.timeout = some 0 then .error .noTime
  else .ok ()

/-- The configuration that the text of a file writes; a blank one leaves every setting out. -/
def ofText? (text : String) : Option EngineConfig :=
  if (Text.trimmed text).isEmpty then some {} else (Yaml.parse? text).bind ofYaml?

/-- The configuration that a file gives. -/
def load (path text : String) : Except ConfigError EngineConfig :=
  match ofText? text with
  | none => .error (.malformed path)
  | some c => (c.check.map fun _ => c).mapError .invalid

/-- The place of the configuration file: the one that is asked for, unless it is blank, else a fixed
one in the directory of configurations. -/
def defaultPath (asked : Option String) (directory : String) : String :=
  match asked with
  | some path => if (Text.trimmed path).isEmpty then standard else path
  | none => standard
where
  /-- The fixed place. -/
  standard : String := directory ++ "/pipewright/config.yaml"

end EngineConfig

end Conduit
