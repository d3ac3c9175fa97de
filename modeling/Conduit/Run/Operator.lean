import Conduit.Run.Engine

/-!
# Running operators

An operator makes content from a memory: it asks the generator, calls a registered function or
renders a template. `Engine.runOperator` stores the content as the latest result. If a fixed number
of values is asked for, a generator must give that many.
-/

namespace Conduit.Engine

/-- The concept of what a pipe puts out: the declared one, or what the caller asks for in place of a
dynamic one. -/
def outputConcept (e : Engine) (p : Pipe) (params : RunParams) : Except RunCause Concept :=
  match params.dynamic, p.output.native? with
  | some reference, some .dynamic =>
    match e.library.concepts.resolve? reference p.domain with
    | some c => .ok c
    | none => .error (.unknownConcept p.code reference)
  | _, _ => .ok p.output

/-- How many values a pipe is to make. -/
def outputMultiplicity (p : Pipe) (params : RunParams) : Multiplicity :=
  params.multiplicity.getD p.multiplicity

/-- The number of values to ask a generator for, unless it is free to choose. -/
def requestedCount : Multiplicity → Option Nat
  | .single => some 1
  | .list => none
  | .fixed n => some n

/-- Checks that a generator gave the number of values that is fixed, if one is. -/
def checkCount (pipe operation : String) (m : Multiplicity) (received : Nat) :
    Except RunCause Unit :=
  match m with
  | .fixed expected =>
    if expected = received then .ok ()
    else .error (.backend pipe (.failed operation s!"expected {expected} results, got {received}"))
  | .single | .list => .ok ()

/-- The text of a template. -/
def rendered (m : Memory) (source : String) : Except RunCause String :=
  (Template.render m source).mapError .templating

/-- The images that the inputs of a pipe carry into a prompt. -/
def promptImages (m : Memory) : List String → Except RunCause (List Image)
  | [] => .ok []
  | name :: rest => do
    let s ← (m.get name).mapError .memory
    let more ← promptImages m rest
    return s.content.images ++ more

/-- The prompt of a pipe. Without a system prompt of its own it takes that of its domain. -/
def prompt (e : Engine) (p : Pipe) (m : Memory) (user : String) (system : Option String) :
    Except RunCause LlmPrompt := do
  let user ← rendered m user
  let system ← match system with
    | some source => (rendered m source).map some
    | none => pure (e.library.systemPrompt? p.domain)
  let images ← promptImages m (e.library.imageInputs p)
  return ⟨system, some user, images⟩

/-- The structure of what a language model makes for a concept: a wildcard gets a text. -/
def generatedShape (c : Concept) : String :=
  if c.isWildcard then Structure.textContent else c.shape

/-- The first of the values that a generator gave. -/
def first {α : Type} (pipe operation reason : String) : List α → Except RunCause α
  | a :: _ => .ok a
  | [] => .error (.backend pipe (.failed operation reason))

/-- Content that a language model makes. -/
def runLlm (e : Engine) (p : Pipe) (m : Memory) (params : RunParams) (c : Concept)
    (user : String) (system : Option String) : Run Content := do
  let prompt ← e.prompt p m user system
  let g := e.generatorFor params.dry
  let r := e.library.registry
  let shape := generatedShape c
  match outputMultiplicity p params with
  | .single =>
    if shape = Structure.textContent then
      let text ← Run.ask p.code params.dry (.text prompt) (g.text prompt)
      return .text text
    else
      let schema := r.schema shape
      let v ← Run.ask p.code params.dry (.object prompt schema) (g.object prompt schema)
      (r.read shape v).mapError RunCause.record
  | multiple =>
    let schema := r.schema shape
    let count := requestedCount multiple
    let vs ← Run.ask p.code params.dry (.objects prompt schema count)
      (g.objects prompt schema count)
    checkCount p.code "structured generation" multiple vs.length
    let items ← (vs.mapM (r.read shape)).mapError RunCause.record
    return .list items

/-- The input of a pipe that has one. -/
def singleInput (p : Pipe) : Except RunCause String :=
  match p.inputs.keys with
  | name :: _ => .ok name
  | [] => .error (.memory (.invalidInput p.code .noInput))

/-- The description of the images that a pipe asks for. -/
def imagePrompt (p : Pipe) (m : Memory) : Option String → Except RunCause String
  | some source => rendered m source
  | none => do
    let name ← singleInput p
    let s ← (m.get name).mapError .memory
    return s.content.rendered

/-- Content that an image generator makes. -/
def runImgGen (e : Engine) (p : Pipe) (m : Memory) (params : RunParams)
    (source : Option String) : Run Content := do
  let prompt ← imagePrompt p m source
  let multiplicity := outputMultiplicity p params
  let count := (requestedCount multiplicity).getD 1
  let images ← Run.ask p.code params.dry (.images prompt count)
    ((e.generatorFor params.dry).images prompt count)
  checkCount p.code "image generation" multiplicity images.length
  match multiplicity with
  | .single => (first p.code "image generation" "no image returned" images).map Content.image
  | _ => return .list (images.map .image)

/-- The document that a variable holds. -/
def documentOf (m : Memory) (name : String) : Except RunCause Document := do
  let s ← (m.get name).mapError .memory
  match s.content with
  | .image i => return .image i.url
  | .pdf url => return .pdf url
  | c => throw (.memory (Memory.mismatch name "image or pdf" c))

/-- Content that a page reader makes. -/
def runExtract (e : Engine) (p : Pipe) (m : Memory) (params : RunParams) (views : Bool) :
    Run Content := do
  let name ← singleInput p
  let document ← documentOf m name
  let pages ← Run.ask p.code params.dry (.pages document views)
    ((e.generatorFor params.dry).pages document views)
  match outputMultiplicity p params with
  | .single =>
    (first p.code "page extraction" s!"no page extracted from '{document.url}'" pages).map
      Content.page
  | _ => return .list (pages.map .page)

/-- Content that a registered function makes. A dry run calls no function and takes placeholders. -/
def runFunc (e : Engine) (p : Pipe) (m : Memory) (params : RunParams) (c : Concept)
    (name : String) : Run Content :=
  if params.dry then
    (e.library.concepts.placeholder e.config.listSize c (outputMultiplicity p params)).mapError
      RunCause.record
  else match e.functions.get? name with
    | none => Run.fail (.functionNotFound p.code name)
    | some f => do
      Run.mark (.call name)
      (f m).mapError (RunCause.function p.code name)

/-- Content that an operator makes. -/
def makeContent (e : Engine) (p : Pipe) (m : Memory) (params : RunParams) (c : Concept) :
    Operator → Run Content
  | .llm user system => e.runLlm p m params c user system
  | .imgGen source => e.runImgGen p m params source
  | .extract views => e.runExtract p m params views
  | .func name => e.runFunc p m params c name
  | .compose source => (rendered m source).map Content.text

/-- Runs an operator and stores its content as the latest result. -/
def runOperator (e : Engine) (p : Pipe) (op : Operator) (m : Memory) (params : RunParams)
    (name : Option String) : Run Memory := do
  let c ← e.outputConcept p params
  let content ← e.makeContent p m params c op
  let (stored, m) ← storeResult m p.code c content name
  Run.emit (.pipeStep p.code params.layer p.inputs.keys stored)
  return m

end Conduit.Engine
