import Conduit.Concept.Define
import Conduit.Library.Check
import Conduit.Pipe.Define

/-!
# Loading and unloading bundles

`Library.load` adds the domain, the concepts and the pipes of a bundle to a library, or nothing of
it if anything is wrong. Definitions come first; then every pipe that a pipe names must be there and
every outcome of a condition must fit its output; then the signatures are checked. `Library.unload?`
takes a domain out with all that belongs to it.
-/

namespace Conduit

/-- Why a bundle is not loaded. -/
inductive LoadFault where
  | definition (error : DefinitionError)
  | check (error : CheckError)
  deriving DecidableEq

/-- A bundle that is not loaded. -/
structure LoadError where
  domain : String
  fault : LoadFault
  deriving DecidableEq

/-- An error in words. -/
def LoadError.message (e : LoadError) : String :=
  s!"bundle '{e.domain}': " ++ match e.fault with
    | .definition error => error.message
    | .check error => error.message

/-- The error of a definition whose needs cannot be computed. -/
def NeedsError.toDefinition : NeedsError → DefinitionError
  | missingPipes e => .missingPipes e
  | templating e => .templating "" e
  | undeclaredItem e => .invalidPipe e.pipe (.undeclaredItem e)

namespace Library

/-- The library with one more domain. -/
def addDomain (l : Library) (d : Domain) : Except DefinitionError Library :=
  if l.domains.contains d.code then .error (.duplicateDomain d.code)
  else .ok { l with domains := l.domains.insert d.code d }

/-- Defines and adds concepts, in their order. -/
def addConcepts (domain : String) (c : ConceptLibrary) :
    List (String × ConceptBlueprint) → Except DefinitionError ConceptLibrary
  | [] => .ok c
  | (code, b) :: rest => do
    let (concept, c) ← c.make domain code b
    let c ← c.add concept
    addConcepts domain c rest

/-- The library with one more pipe, whose code is new. -/
def addPipe (l : Library) (p : Pipe) : Except DefinitionError Library :=
  if l.pipes.contains p.code then .error (.duplicatePipe p.code)
  else .ok { l with pipes := l.pipes.insert p.code p }

/-- Defines and adds pipes, in their order. -/
def addPipes (domain : String) (l : Library) :
    List (String × PipeBlueprint) → Except DefinitionError Library
  | [] => .ok l
  | (code, b) :: rest => do
    let p ← l.concepts.makePipe domain code b
    let l ← l.addPipe p
    addPipes domain l rest

/-- Checks that the pipes that a pipe may run are there. -/
def checkSubPipes (l : Library) (p : Pipe) : Except DefinitionError Unit :=
  let missing := p.subPipes.filter fun code => !l.pipes.contains code
  if missing.isEmpty then .ok () else .error (.missingPipes ⟨p.code, missing⟩)

/-- Checks that a pipe that a condition may lead to produces what the condition declares. -/
def checkOutcome (l : Library) (p : Pipe) (code : String) : Except DefinitionError Unit := do
  let branch ← (l.pipe code p.code).mapError .missingPipes
  if l.concepts.isCompatible branch.output p.output false then return ()
  else throw (.incompatibleOutcome p.code branch.code branch.output.name p.output.name)

/-- Checks the pipes that a condition may lead to. -/
def checkOutcomes (l : Library) (p : Pipe) : Except DefinitionError Unit :=
  match p.kind with
  | .condition c => c.pipes.forM (l.checkOutcome p)
  | _ => .ok ()

/-- Checks that a bundle's main pipe is there. -/
def checkMain (l : Library) (b : Bundle) : Except DefinitionError Unit :=
  match b.mainPipe with
  | none => .ok ()
  | some code =>
    if l.pipes.contains code then .ok ()
    else .error (.invalidPipe code (.noMainPipe b.domain.code))

/-- The pipes of a bundle that has been added. -/
def pipesOf (l : Library) (b : Bundle) : List Pipe :=
  b.pipes.keys.filterMap l.pipes.get?

/-- The library with the definitions of a bundle, whose signatures are not checked yet. -/
def define (l : Library) (b : Bundle) : Except DefinitionError Library := do
  let l ← l.addDomain b.domain
  let concepts ← addConcepts b.domain.code l.concepts b.concepts.entries
  let l ← addPipes b.domain.code { l with concepts } b.pipes.entries
  (l.pipesOf b).forM fun p => do
    l.checkSubPipes p
    l.checkOutcomes p
  l.checkMain b
  return l

/-- Checks the signature of a pipe against a policy. -/
def checkSignature (l : Library) (policy : ReactionPolicy) (p : Pipe) : Except LoadFault Unit := do
  let findings ← (l.findings p).mapError fun e => LoadFault.definition e.toDefinition
  (policy.raise? p.code findings).mapError .check

/-- The library with a bundle. -/
def load (l : Library) (b : Bundle) (policy : ReactionPolicy) : Except LoadError Library := do
  let fail (fault : LoadFault) : LoadError := ⟨b.domain.code, fault⟩
  let l ← (l.define b).mapError fun e => fail (.definition e)
  ((l.pipesOf b).forM (l.checkSignature policy)).mapError fail
  return l

/-- The library without a domain and all that belongs to it, if the domain is loaded. -/
def unload? (l : Library) (domain : String) : Option Library :=
  if l.domains.contains domain then
    some { domains := l.domains.erase domain
           concepts := l.concepts.removeDomain domain
           pipes := l.pipes.filter fun _ p => p.domain != domain }
  else none

end Library

end Conduit
