import Conduit.Structure.Source.Compile
import Conduit.Template.Basic

/-!
# Errors of definitions

What can be wrong with the concepts and pipes of a bundle. Each error is a cause; its wording is in
`DefinitionError.message`.
-/

namespace Conduit

/-- A pipe that names pipes which are not registered. -/
structure MissingPipes where
  pipe : String
  missing : List String
  deriving DecidableEq

/-- An error in words. -/
def MissingPipes.message (e : MissingPipes) : String :=
  s!"pipe '{e.pipe}' references unknown pipes: " ++ ", ".intercalate e.missing

/-- Where a concept is named. -/
inductive ConceptUse where
  | refinement (concept : String)
  | input (name pipe : String)
  | output (pipe : String)
  | combinedOutput (pipe : String)
  deriving DecidableEq

/-- A place in words. -/
def ConceptUse.describe : ConceptUse → String
  | refinement concept => s!"refinement of concept '{concept}'"
  | input name pipe => s!"input '{name}' of pipe '{pipe}'"
  | output pipe => s!"output of pipe '{pipe}'"
  | combinedOutput pipe => s!"combined output of pipe '{pipe}'"

/-- What the code of a concept or pipe must be. -/
inductive CodeFault where
  | notPascalCase
  | reserved
  | notSnakeCase
  deriving DecidableEq

/-- What a code belongs to, in words. -/
def CodeFault.kind : CodeFault → String
  | notPascalCase | reserved => "concept"
  | notSnakeCase => "pipe"

/-- A fault in words. -/
def CodeFault.message : CodeFault → String
  | notPascalCase => "concept codes must be PascalCase"
  | reserved => "code is reserved for a native concept"
  | notSnakeCase => "pipe codes must be snake_case"

/-- What a name is for. -/
inductive NameUse where
  | input
  | result
  | batch
  | aliasTarget
  deriving DecidableEq

/-- A use in words. -/
def NameUse.describe : NameUse → String
  | input => "input variable"
  | result => "result"
  | batch => "batch variable"
  | aliasTarget => "alias target"

/-- A batched invocation whose item is no input of its branch. -/
structure UndeclaredItem where
  pipe : String
  branch : String
  item : String
  deriving DecidableEq

/-- An error in words. -/
def UndeclaredItem.message (e : UndeclaredItem) : String :=
  s!"pipe '{e.pipe}' batches '{e.branch}' over item '{e.item}', which '{e.branch}' does not " ++
    "declare as an input"

/-- What is wrong with a pipe. -/
inductive PipeFault where
  | reservedName (use : NameUse) (name : String)
  | badName (use : NameUse) (name : String)
  | noStep
  | noCombination
  | noBranch
  | unnamedBranch (branch : String)
  | sharedResult (name : String)
  | noFieldFor (concept result : String)
  | notOneExpression
  | noPrompt
  | noDocument
  | noFunction
  | zeroCount
  | countAndMultiple
  | sameBatchNames
  | halfBatch (step : String)
  | noMainPipe (domain : String)
  | undeclaredItem (error : UndeclaredItem)
  deriving DecidableEq

/-- A fault in words. -/
def PipeFault.message : PipeFault → String
  | reservedName use name => s!"{use.describe} name '{name}' is reserved"
  | badName use name => s!"invalid {use.describe} name '{name}'"
  | noStep => "a sequence needs at least one step"
  | noCombination => "either add_each_output or combined_output must be set"
  | noBranch => "a parallel pipe needs at least one branch"
  | unnamedBranch branch => s!"branch '{branch}' has no result name"
  | sharedResult name => s!"result name '{name}' is used by more than one branch"
  | noFieldFor concept result =>
    s!"combined output '{concept}' has no field for branch result '{result}'"
  | notOneExpression => "exactly one of expression or expression_template must be set"
  | noPrompt => "without a prompt_template exactly one input must provide the prompt"
  | noDocument => "an extract pipe takes exactly one Image or PDF input"
  | noFunction => "function_name cannot be empty"
  | zeroCount => "nb_output must be at least 1"
  | countAndMultiple => "nb_output and multiple_output are exclusive"
  | sameBatchNames => "batch list and item names must differ"
  | halfBatch step => s!"step '{step}' must set both batch_over and batch_as"
  | noMainPipe domain => s!"main pipe of bundle '{domain}' is not defined"
  | undeclaredItem error => error.message

/-- What is wrong with the definitions of a bundle. -/
inductive DefinitionError where
  | invalidCode (code : String) (fault : CodeFault)
  | duplicateDomain (domain : String)
  | duplicateConcept (concept : String)
  | duplicatePipe (pipe : String)
  | duplicateStructure (name : String)
  | unknownConcept (reference : String) (use : ConceptUse)
  | unknownStructure (concept name : String)
  | structureAndRefinement (concept : String)
  | invalidRefinement (concept refines : String)
  | invalidPipe (pipe : String) (fault : PipeFault)
  | incompatibleOutcome (pipe branch branchOutput output : String)
  | badStructure (error : StructureError)
  | missingPipes (error : MissingPipes)
  | templating (pipe : String) (error : SyntaxError)
  deriving DecidableEq

/-- An error in words. -/
def DefinitionError.message : DefinitionError → String
  | invalidCode code fault => s!"invalid {fault.kind} code '{code}': {fault.message}"
  | duplicateDomain domain => s!"domain '{domain}' is already loaded"
  | duplicateConcept concept => s!"concept '{concept}' is already defined"
  | duplicatePipe pipe => s!"pipe '{pipe}' is already defined"
  | duplicateStructure name => s!"structure '{name}' is already defined"
  | unknownConcept reference use =>
    s!"unknown concept '{reference}' referenced by {use.describe}"
  | unknownStructure concept name =>
    s!"unknown structure '{name}' referenced by concept '{concept}'"
  | structureAndRefinement concept =>
    s!"concept '{concept}' declares both a structure and a refinement"
  | invalidRefinement concept refines =>
    s!"concept '{concept}' can only refine a native concept, not '{refines}'"
  | invalidPipe pipe fault => s!"invalid pipe '{pipe}': {fault.message}"
  | incompatibleOutcome pipe branch branchOutput output =>
    s!"condition pipe '{pipe}' declares output '{output}' but branch '{branch}' produces " ++
      s!"'{branchOutput}'"
  | badStructure error => error.message
  | missingPipes error => error.message
  | templating pipe error => s!"pipe '{pipe}' has an invalid template: {error.message}"

end Conduit
