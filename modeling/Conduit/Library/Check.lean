import Conduit.Blueprint.Reaction
import Conduit.Library.Needs

/-!
# Checking the signature of a pipe

`Library.findings` compares what a pipe declares with what it uses: an operator with the variables
that it reads, a controller with what the pipes that it runs need and produce. `raise?` drops the
findings that a policy does not let stop the loading of a bundle.
-/

namespace Conduit

/-- What a pipe's declaration gets wrong. -/
inductive Mistake where
  | undeclaredRead (name : String)
  | unusedInput (name : String)
  | undeclaredNeed (name : String)
  | unneededInput (name : String)
  | concept (name : String) (declared needed : Concept)
  | multiplicity (name : String) (declared needed : Multiplicity)
  | output (origin : String) (produced declared : Concept)
  deriving DecidableEq

/-- The kind of a mistake. -/
def Mistake.kind : Mistake → FindingKind
  | undeclaredRead _ | undeclaredNeed _ => .missingInput
  | unusedInput _ | unneededInput _ => .extraneousInput
  | concept .. => .inadequateInputConcept
  | multiplicity .. => .inadequateInputMultiplicity
  | output .. => .inadequateOutputConcept

/-- A mistake in words. -/
def Mistake.message : Mistake → String
  | undeclaredRead name => s!"variable '{name}' is used but not declared as an input"
  | unusedInput name => s!"input '{name}' is declared but never used"
  | undeclaredNeed name => s!"variable '{name}' is needed but not declared as an input"
  | unneededInput name => s!"input '{name}' is declared but not needed by any sub-pipe"
  | concept name declared needed =>
    s!"input '{name}' is declared as '{declared.name}' but '{needed.name}' is needed"
  | multiplicity name declared needed =>
    s!"input '{name}' is declared as {declared.describe} but {needed.describe} is needed"
  | output origin produced declared =>
    s!"{origin} produces '{produced.name}' but the pipe declares '{declared.name}'"

/-- A mistake of a pipe. -/
structure Finding where
  pipe : String
  mistake : Mistake
  deriving DecidableEq

/-- A finding in words, after the word for its kind. -/
def Finding.describe (f : Finding) : String :=
  s!"[{f.mistake.kind.word}] {f.mistake.message}"

/-- Findings that stop the loading of a bundle. -/
structure CheckError where
  pipe : String
  findings : List Finding
  deriving DecidableEq

/-- An error in words. -/
def CheckError.message (e : CheckError) : String :=
  s!"pipe '{e.pipe}' failed static validation: " ++
    "; ".intercalate (e.findings.map Finding.describe)

namespace Library

/-- Mistakes of an operator that reads the given variables. -/
def operatorMistakes (p : Pipe) (read : List String) : List Mistake :=
  (read.filter fun name => !p.inputs.contains name).map .undeclaredRead ++
    (p.inputs.keys.filter fun name => !read.contains name).map .unusedInput

/-- Mistakes in the declaration of one variable that a controller needs. -/
def needMistakes (l : Library) (p : Pipe) (name : String) (needed : Requirement) : List Mistake :=
  match p.inputs.get? name with
  | none => [.undeclaredNeed name]
  | some declared =>
    (if l.concepts.isCompatible declared.concept needed.concept false then []
      else [.concept name declared.concept needed.concept]) ++
    (if declared.multiplicity.isMultiple == needed.multiplicity.isMultiple then []
      else [.multiplicity name declared.multiplicity needed.multiplicity])

/-- What a controller ends up producing, where that is known, and what produces it. -/
def produced? (l : Library) (p : Pipe) : Option (String × Concept) :=
  match p.kind with
  | .sequence steps => do
    let last ← steps.getLast?
    let target ← l.pipes.get? last.pipe
    return (s!"last step '{last.pipe}'", target.output)
  | .batch branch _ => do
    let target ← l.pipes.get? branch
    return (s!"branch '{branch}'", target.output)
  | .parallel q => q.combined.map ("combined output", ·)
  | .condition _ | .operator _ => none

/-- Mistakes in the declared output of a controller. -/
def outputMistakes (l : Library) (p : Pipe) : List Mistake :=
  match l.produced? p with
  | none => []
  | some (origin, c) =>
    if l.concepts.isCompatible c p.output false then [] else [.output origin c p.output]

/-- Mistakes of a controller with the given needs. -/
def controllerMistakes (l : Library) (p : Pipe) (needs : Requirements) : List Mistake :=
  needs.entries.flatMap (fun (name, r) => l.needMistakes p name r) ++
    (p.inputs.keys.filter fun name => !needs.contains name).map .unneededInput ++
    l.outputMistakes p

/-- What the declaration of a pipe gets wrong. -/
def findings (l : Library) (p : Pipe) : Except NeedsError (List Finding) := do
  let mistakes ← match p.kind with
    | .operator _ => do
      let read ← l.required p
      pure (operatorMistakes p read)
    | _ => do
      let needs ← l.needs p
      pure (l.controllerMistakes p needs)
  return mistakes.map (⟨p.code, ·⟩)

end Library

/-- Stops if a policy lets some of the findings stop the loading of a bundle. -/
def ReactionPolicy.raise? (policy : ReactionPolicy) (pipe : String) (findings : List Finding) :
    Except CheckError Unit :=
  let raised := findings.filter fun f => policy.reaction f.mistake.kind == .raise
  if raised.isEmpty then .ok () else .error ⟨pipe, raised⟩

end Conduit
