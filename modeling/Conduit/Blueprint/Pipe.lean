import Conduit.Blueprint.Field

/-!
# Declared pipes

Every declared pipe has a signature: a description, its inputs and its output. The rest depends on
the kind of the pipe. A controller runs other pipes: in sequence, side by side, after a condition,
or for each item of a list. An operator makes content: with a language model, an image generator, a
page reader, a registered function or a template.
-/

namespace Conduit

/-- What every pipe declares. -/
structure Signature where
  description : String
  inputs : Dict String
  output : String
  deriving DecidableEq

/-- A pipe that another pipe runs, as it is declared. -/
structure StepBlueprint where
  pipe : String
  result : Option String
  count : Option Nat
  multiple : Option Bool
  batchOver : Option String
  batchAs : Option String
  deriving DecidableEq

/-- A condition as it is declared. -/
structure ConditionBlueprint where
  expression : Option String
  template : Option String
  outcomes : Dict String
  default : String
  aliasTo : Option String
  deriving DecidableEq

/-- What a pipe declares beyond its signature. -/
inductive PipeBody where
  | sequence (steps : List StepBlueprint)
  | parallel (branches : List StepBlueprint) (addEach : Bool) (combined : Option String)
  | condition (condition : ConditionBlueprint)
  | batch (branch list item : String)
  | llm (prompt : String) (system : Option String) (count : Option Nat) (multiple : Option Bool)
  | imgGen (prompt : Option String) (count : Option Nat)
  | extract (pageViews : Bool)
  | func (name : String)
  | compose (template : String)
  deriving DecidableEq

/-- A pipe as a bundle declares it. -/
structure PipeBlueprint where
  signature : Signature
  body : PipeBody
  deriving DecidableEq

/-- The word for a kind of pipe. -/
def PipeBody.typeName : PipeBody → String
  | sequence .. => "PipeSequence"
  | parallel .. => "PipeParallel"
  | condition .. => "PipeCondition"
  | batch .. => "PipeBatch"
  | llm .. => "PipeLLM"
  | imgGen .. => "PipeImgGen"
  | extract .. => "PipeExtract"
  | func .. => "PipeFunc"
  | compose .. => "PipeCompose"

/-! ## Reading -/

/-- The keys of a signature. -/
def Signature.keys : List String := ["description", "inputs", "output"]

/-- The signature among the fields of a pipe. -/
def Signature.ofFields? (get : String → Option Json) : Option Signature := do
  return { description := ← Json.defaulted "" Json.text? (get "description")
           inputs := ← Json.defaulted .empty (Json.dict? Json.text?) (get "inputs")
           output := ← Json.required Json.text? (get "output") }

/-- The step that a value writes. -/
def StepBlueprint.ofJson? (v : Json) : Option StepBlueprint := do
  let get ← v.fields? ["pipe", "result", "nb_output", "multiple_output", "batch_over", "batch_as"]
  return { pipe := ← Json.required Json.text? (get "pipe")
           result := ← Json.optional Json.text? (get "result")
           count := ← Json.optional Json.count? (get "nb_output")
           multiple := ← Json.optional Json.bool? (get "multiple_output")
           batchOver := ← Json.optional Json.text? (get "batch_over")
           batchAs := ← Json.optional Json.text? (get "batch_as") }

/-- The condition among the fields of a pipe. -/
def ConditionBlueprint.ofFields? (get : String → Option Json) : Option ConditionBlueprint := do
  return { expression := ← Json.optional Json.text? (get "expression")
           template := ← Json.optional Json.text? (get "expression_template")
           outcomes := ← Json.defaulted .empty (Json.dict? Json.text?) (get "outcomes")
           default := ← Json.required Json.text? (get "default_outcome")
           aliasTo := ← Json.optional Json.text? (get "add_alias_from_expression_to") }

/-- The steps of a field. -/
def steps? : Option Json → Option (List StepBlueprint) :=
  Json.defaulted [] (Json.list? StepBlueprint.ofJson?)

/-- The keys that a pipe of the given type has beyond those of its signature. -/
def PipeBody.keys : String → List String
  | "PipeSequence" => ["steps"]
  | "PipeParallel" => ["parallels", "add_each_output", "combined_output"]
  | "PipeCondition" =>
    ["expression", "expression_template", "outcomes", "default_outcome",
      "add_alias_from_expression_to"]
  | "PipeBatch" => ["branch_pipe_code", "input_list_name", "input_item_name"]
  | "PipeLLM" => ["prompt_template", "system_prompt", "nb_output", "multiple_output"]
  | "PipeImgGen" => ["prompt_template", "nb_output"]
  | "PipeExtract" => ["page_views"]
  | "PipeFunc" => ["function_name"]
  | "PipeCompose" => ["template"]
  | _ => []

/-- What a pipe of the given type declares among its fields. -/
def PipeBody.ofFields? (type : String) (get : String → Option Json) : Option PipeBody :=
  match type with
  | "PipeSequence" => do return .sequence (← steps? (get "steps"))
  | "PipeParallel" => do
    return .parallel (← steps? (get "parallels"))
      (← Json.defaulted false Json.bool? (get "add_each_output"))
      (← Json.optional Json.text? (get "combined_output"))
  | "PipeCondition" => do return .condition (← ConditionBlueprint.ofFields? get)
  | "PipeBatch" => do
    return .batch (← Json.required Json.text? (get "branch_pipe_code"))
      (← Json.required Json.text? (get "input_list_name"))
      (← Json.required Json.text? (get "input_item_name"))
  | "PipeLLM" => do
    return .llm (← Json.required Json.text? (get "prompt_template"))
      (← Json.optional Json.text? (get "system_prompt"))
      (← Json.optional Json.count? (get "nb_output"))
      (← Json.optional Json.bool? (get "multiple_output"))
  | "PipeImgGen" => do
    return .imgGen (← Json.optional Json.text? (get "prompt_template"))
      (← Json.optional Json.count? (get "nb_output"))
  | "PipeExtract" => do return .extract (← Json.defaulted false Json.bool? (get "page_views"))
  | "PipeFunc" => do return .func (← Json.required Json.text? (get "function_name"))
  | "PipeCompose" => do return .compose (← Json.required Json.text? (get "template"))
  | _ => none

/-- The declared pipe that a value writes. -/
def PipeBlueprint.ofJson? : Json → Option PipeBlueprint
  | .object members => do
    let type ← Json.required Json.text? (Json.member? members "type")
    let get ← Json.objectFields? ("type" :: Signature.keys ++ PipeBody.keys type) members
    let body ← PipeBody.ofFields? type get
    let signature ← Signature.ofFields? get
    return { signature, body }
  | _ => none

/-! ## Writing -/

/-- A count, or null. -/
def Json.ofCount? (n : Option Nat) : Json :=
  n.elim .null .ofNat

/-- A truth value, or null. -/
def Json.ofBool? (b : Option Bool) : Json :=
  b.elim .null .bool

/-- The members of a signature. -/
def Signature.members (s : Signature) : List (String × Json) :=
  [ ("description", .string s.description),
    ("inputs", Json.ofDict .string s.inputs),
    ("output", .string s.output) ]

/-- A step with every key written out. -/
def StepBlueprint.toJson (s : StepBlueprint) : Json :=
  .object [
    ("pipe", .string s.pipe), ("result", Json.ofText? s.result),
    ("nb_output", Json.ofCount? s.count), ("multiple_output", Json.ofBool? s.multiple),
    ("batch_over", Json.ofText? s.batchOver), ("batch_as", Json.ofText? s.batchAs)]

/-- The members that a pipe has beyond its signature. -/
def PipeBody.members : PipeBody → List (String × Json)
  | sequence steps => [("steps", .array (steps.map StepBlueprint.toJson))]
  | parallel branches addEach combined =>
    [ ("parallels", .array (branches.map StepBlueprint.toJson)),
      ("add_each_output", .bool addEach),
      ("combined_output", Json.ofText? combined) ]
  | condition c =>
    [ ("expression", Json.ofText? c.expression),
      ("expression_template", Json.ofText? c.template),
      ("outcomes", Json.ofDict .string c.outcomes),
      ("default_outcome", .string c.default),
      ("add_alias_from_expression_to", Json.ofText? c.aliasTo) ]
  | batch branch list item =>
    [ ("branch_pipe_code", .string branch),
      ("input_list_name", .string list),
      ("input_item_name", .string item) ]
  | llm prompt system count multiple =>
    [ ("prompt_template", .string prompt),
      ("system_prompt", Json.ofText? system),
      ("nb_output", Json.ofCount? count),
      ("multiple_output", Json.ofBool? multiple) ]
  | imgGen prompt count =>
    [("prompt_template", Json.ofText? prompt), ("nb_output", Json.ofCount? count)]
  | extract pageViews => [("page_views", .bool pageViews)]
  | func name => [("function_name", .string name)]
  | compose template => [("template", .string template)]

/-- A declared pipe with every key written out. -/
def PipeBlueprint.toJson (p : PipeBlueprint) : Json :=
  .object (("type", .string p.body.typeName) :: (p.signature.members ++ p.body.members))

end Conduit
