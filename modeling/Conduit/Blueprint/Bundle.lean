import Conduit.Blueprint.Concept
import Conduit.Blueprint.Pipe
import Conduit.Yaml.Document
import Conduit.Yaml.Decode

/-!
# Bundles

A bundle declares one domain with its concepts and pipes, in an order that is kept.
`Bundle.ofJson?` reads a bundle and `Bundle.toJson` writes it with every default written out.
`Bundle.ofText?` reads the text of a file.
-/

namespace Conduit

/-- What a bundle says about its domain. -/
structure Domain where
  code : String
  description : Option String
  systemPrompt : Option String
  deriving DecidableEq

/-- A domain with its concepts and pipes, as they are declared. -/
structure Bundle where
  domain : Domain
  concepts : Dict ConceptBlueprint
  pipes : Dict PipeBlueprint
  mainPipe : Option String
  deriving DecidableEq

namespace Bundle

/-- The keys of a bundle, in their order. -/
def keys : List String :=
  ["domain", "description", "system_prompt", "concept", "pipe", "main_pipe"]

/-- The bundle that a value writes. -/
def ofJson? (v : Json) : Option Bundle := do
  let get ← v.fields? keys
  let domain : Domain := {
    code := ← Json.required Json.text? (get "domain")
    description := ← Json.optional Json.text? (get "description")
    systemPrompt := ← Json.optional Json.text? (get "system_prompt") }
  return { domain
           concepts := ← Json.defaulted .empty (Json.dict? ConceptBlueprint.ofJson?) (get "concept")
           pipes := ← Json.defaulted .empty (Json.dict? PipeBlueprint.ofJson?) (get "pipe")
           mainPipe := ← Json.optional Json.text? (get "main_pipe") }

/-- How many collections of a file may be in one another. -/
def maxNesting : Nat := 128

/-- A concept or a pipe of a file, which two collections surround. -/
def declared? {α : Type} (read : Json → Option α) (v : Yaml) : Option α :=
  (v.toJson? (maxNesting - 2)).bind read

/-- The bundle that the value of a file writes. What it says of the domain may be any scalar. -/
def ofYaml? (v : Yaml) : Option Bundle := do
  let get ← v.fields? keys
  let domain : Domain := {
    code := ← (get "domain").bind Yaml.text?
    description := ← Yaml.optional Yaml.text? (get "description")
    systemPrompt := ← Yaml.optional Yaml.text? (get "system_prompt") }
  let concepts := Yaml.dict? (declared? ConceptBlueprint.ofJson?)
  let pipes := Yaml.dict? (declared? PipeBlueprint.ofJson?)
  return { domain
           concepts := ← Yaml.defaulted .empty concepts (get "concept")
           pipes := ← Yaml.defaulted .empty pipes (get "pipe")
           mainPipe := ← Yaml.optional Yaml.text? (get "main_pipe") }

/-- The bundle that the text of a file writes. -/
def ofText? (text : String) : Option Bundle :=
  (Yaml.parse? text).bind ofYaml?

/-- A bundle with every key written out. -/
def toJson (b : Bundle) : Json :=
  .object [
    ("domain", .string b.domain.code),
    ("description", Json.ofText? b.domain.description),
    ("system_prompt", Json.ofText? b.domain.systemPrompt),
    ("concept", Json.ofDict ConceptBlueprint.toJson b.concepts),
    ("pipe", Json.ofDict PipeBlueprint.toJson b.pipes),
    ("main_pipe", Json.ofText? b.mainPipe)]

end Bundle

end Conduit
