import Conduit.Structure.Record

/-!
# Errors of memories

What can go wrong when a memory is read, written or filled from a document of inputs.
-/

namespace Conduit

/-- What is wrong with an entry of a document of inputs. -/
inductive InputFault where
  | notAnObject
  | reserved
  | noConcept
  | badReference (reference : String)
  | unknownConcept (concept : String)
  | record (error : RecordError)
  | notAList
  | unsupported (value : Json)
  | noInput
  deriving DecidableEq

/-- A fault in words. -/
def InputFault.message : InputFault → String
  | notAnObject => "inputs must be a JSON object"
  | reserved => "'main' is reserved for the result alias"
  | noConcept => "missing 'concept'"
  | badReference reference => s!"invalid concept reference '{reference}'"
  | unknownConcept concept => s!"unknown concept '{concept}'"
  | record error => error.message
  | notAList => "list concepts need an array content"
  | unsupported value => "unsupported input value " ++ value.compact
  | noInput => "pipe declares no input"

/-- What can go wrong with a memory. -/
inductive MemoryError where
  | notFound (name : String) (available : List String)
  | duplicateCode (code name existing : String)
  | selfAlias (name : String)
  | aliasTargetMissing (name target : String)
  | typeMismatch (name expected actual : String)
  | attributeNotFound (name path : String)
  | noMain
  | invalidInput (name : String) (fault : InputFault)
  deriving DecidableEq

/-- An error in words. -/
def MemoryError.message : MemoryError → String
  | notFound name available =>
    s!"variable '{name}' not found in working memory (available: " ++
      ", ".intercalate available ++ ")"
  | duplicateCode code name existing =>
    s!"stuff code '{code}' is already stored under '{existing}', refusing to add it as '{name}'"
  | selfAlias name => s!"alias '{name}' cannot target itself"
  | aliasTargetMissing name target =>
    s!"alias '{name}' targets '{target}' which is not in working memory"
  | typeMismatch name expected actual =>
    s!"variable '{name}' has content '{actual}', expected '{expected}'"
  | attributeNotFound name path =>
    s!"attribute path '{path}' cannot be resolved on variable '{name}'"
  | noMain => "working memory has no main stuff"
  | invalidInput name fault => s!"invalid input document entry '{name}': {fault.message}"

end Conduit
