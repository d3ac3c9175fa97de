import Conduit.Blueprint.Pipe
import Conduit.Concept.Library
import Conduit.DefinitionError
import Conduit.Memory.Basic
import Conduit.Pipe.Basic
import Conduit.Text.Name

/-!
# Defining pipes

`ConceptLibrary.makePipe` turns a declared pipe into a pipe. Concepts are resolved and templates are
read once, so that an error in them is found when a bundle is loaded and not when a pipe runs. The
alias `main` is reserved: no input, result, item or alias target may have that name.
-/

namespace Conduit

/-- A refused pipe. -/
def invalid {α : Type} (pipe : String) (fault : PipeFault) : Except DefinitionError α :=
  .error (.invalidPipe pipe fault)

/-- Checks a name that will be stored in memory. -/
def checkName (pipe : String) (use : NameUse) (name : String) : Except DefinitionError Unit :=
  if name = Memory.mainAlias then invalid pipe (.reservedName use name)
  else if !Text.isVariable name then invalid pipe (.badName use name)
  else .ok ()

/-- Checks that a template can be read. -/
def checkTemplate (pipe source : String) : Except DefinitionError Unit :=
  ((Template.freeNames? source).map fun _ => ()).mapError (.templating pipe)

/-- Checks that a bare expression can be read. -/
def checkExpression (pipe source : String) : Except DefinitionError Unit :=
  ((Expression.freeNames? source).map fun _ => ()).mapError (.templating pipe)

/-- How many values are asked for: a count, any number, or what is declared. -/
def requested (pipe : String) (declared : Multiplicity) (count : Option Nat)
    (multiple : Option Bool) : Except DefinitionError Multiplicity :=
  match count, multiple with
  | some 0, _ => invalid pipe .zeroCount
  | some _, some true => invalid pipe .countAndMultiple
  | some n, _ => .ok (.fixed n)
  | none, some true => .ok .list
  | none, _ => .ok declared

/-- The batching of two variables. -/
def Batching.make (pipe list item : String) : Except DefinitionError Batching := do
  checkName pipe .batch list
  checkName pipe .batch item
  if list = item then invalid pipe .sameBatchNames
  return ⟨list, item⟩

/-- The step that a declaration makes. -/
def Step.make (pipe : String) (b : StepBlueprint) : Except DefinitionError Step := do
  let m ← requested pipe .single b.count b.multiple
  let batching ← match b.batchOver, b.batchAs with
    | some list, some item => (Batching.make pipe list item).map some
    | none, none => pure none
    | _, _ => invalid pipe (.halfBatch b.pipe)
  match b.result with
  | some name => checkName pipe .result name
  | none => pure ()
  return { pipe := b.pipe, result := b.result, batching
           multiplicity := if m = .single then none else some m }

namespace Parallel

/-- The results of branches, which must all be named, each with a name of its own. -/
def results (pipe : String) : List String → List Step → Except DefinitionError (List String)
  | names, [] => .ok names
  | names, b :: rest =>
    match b.result with
    | none => invalid pipe (.unnamedBranch b.pipe)
    | some name =>
      if name ∈ names then invalid pipe (.sharedResult name)
      else results pipe (names ++ [name]) rest

/-- Branches that run side by side. A concept that combines their results has a field for each. -/
def make (r : Registry) (pipe : String) (branches : List Step) (addEach : Bool)
    (combined : Option Concept) : Except DefinitionError Parallel := do
  if !addEach && combined.isNone then invalid pipe .noCombination
  if branches.isEmpty then invalid pipe .noBranch
  let names ← results pipe [] branches
  match combined with
  | none => pure ()
  | some c =>
    let fields := r.allFields c.shape
    match names.find? fun name => !fields.contains name with
    | some name => invalid pipe (.noFieldFor c.name name)
    | none => pure ()
  return ⟨branches, addEach, combined⟩

end Parallel

namespace ConceptLibrary

/-- The concept that a pipe names. -/
def conceptOf (l : ConceptLibrary) (domain reference : String) (use : ConceptUse) :
    Except DefinitionError Concept :=
  match l.resolve? reference domain with
  | some c => .ok c
  | none => .error (.unknownConcept reference use)

/-- The requirement that a reference of a pipe makes. -/
def requirementOf (l : ConceptLibrary) (domain reference : String) (use : ConceptUse) :
    Except DefinitionError Requirement :=
  match Reference.parse? reference with
  | none => .error (.unknownConcept reference use)
  | some r => do
    let c ← l.conceptOf domain r.concept use
    return ⟨c, r.multiplicity⟩

/-- The requirements that the inputs of a pipe make. -/
def inputsOf (l : ConceptLibrary) (domain pipe : String) :
    Requirements → List (String × String) → Except DefinitionError Requirements
  | known, [] => .ok known
  | known, (name, reference) :: rest => do
    checkName pipe .input name
    let r ← l.requirementOf domain reference (.input name pipe)
    l.inputsOf domain pipe (known.insertNew name r) rest

/-- Whether the inputs of a pipe are one document: a single image or PDF. -/
def isDocument (l : ConceptLibrary) (inputs : Requirements) : Bool :=
  inputs.size == 1 && inputs.values.all fun r =>
    !r.multiplicity.isMultiple &&
      (l.isCompatible r.concept (l.native .image) false ||
        l.isCompatible r.concept (l.native .pdf) false)

/-- The condition that a declaration makes. -/
def conditionOf (pipe : String) (b : ConditionBlueprint) : Except DefinitionError Condition := do
  let subject ← match b.expression, b.template with
    | some source, none => do
      checkExpression pipe source
      pure (Subject.expression source)
    | none, some source => do
      checkTemplate pipe source
      pure (Subject.template source)
    | _, _ => invalid pipe .notOneExpression
  match b.aliasTo with
  | some name => checkName pipe .aliasTarget name
  | none => pure ()
  return { subject
           outcomes := b.outcomes.mapValues fun _ text => Outcome.parse text
           default := Outcome.parse b.default
           aliasTarget := b.aliasTo }

/-- What a declared pipe does, and how many values it makes. -/
def kindOf (l : ConceptLibrary) (domain pipe : String) (inputs : Requirements)
    (declared : Multiplicity) : PipeBody → Except DefinitionError (PipeKind × Multiplicity)
  | .sequence steps => do
    if steps.isEmpty then invalid pipe .noStep
    let steps ← steps.mapM (Step.make pipe)
    return (.sequence steps, declared)
  | .parallel branches addEach combined => do
    let branches ← branches.mapM (Step.make pipe)
    let combined ← match combined with
      | some reference => (l.conceptOf domain reference (.combinedOutput pipe)).map some
      | none => pure none
    let p ← Parallel.make l.registry pipe branches addEach combined
    return (.parallel p, declared)
  | .condition b => do
    let c ← conditionOf pipe b
    return (.condition c, declared)
  | .batch branch list item => do
    let batching ← Batching.make pipe list item
    return (.batch branch batching, declared)
  | .llm prompt system count multiple => do
    checkTemplate pipe prompt
    match system with
    | some source => checkTemplate pipe source
    | none => pure ()
    let m ← requested pipe declared count multiple
    return (.operator (.llm prompt system), m)
  | .imgGen prompt count => do
    match prompt with
    | some source => checkTemplate pipe source
    | none => if inputs.size != 1 then invalid pipe .noPrompt
    let m ← requested pipe declared count none
    return (.operator (.imgGen prompt), m)
  | .extract pageViews => do
    if !l.isDocument inputs then invalid pipe .noDocument
    return (.operator (.extract pageViews), declared)
  | .func name => do
    if (Text.trimmed name).isEmpty then invalid pipe .noFunction
    return (.operator (.func name), declared)
  | .compose template => do
    checkTemplate pipe template
    return (.operator (.compose template), declared)

/-- The pipe of a domain that a declaration makes. -/
def makePipe (l : ConceptLibrary) (domain code : String) (b : PipeBlueprint) :
    Except DefinitionError Pipe := do
  if !Text.isPipeCode code then throw (.invalidCode code .notSnakeCase)
  let inputs ← l.inputsOf domain code .empty b.signature.inputs.entries
  let output ← l.requirementOf domain b.signature.output (.output code)
  let (kind, multiplicity) ← l.kindOf domain code inputs output.multiplicity b.body
  return { code, domain, inputs, kind, multiplicity
           description := b.signature.description
           output := output.concept }

end ConceptLibrary

end Conduit
