import Conduit.Dict
import Conduit.Json.Decode
import Conduit.Yaml.Decode

/-!
# Reactions to findings

The static checks of pipes make findings of five kinds. A policy says for each kind whether its
findings are dropped, noted, or stop the loading of a bundle; what it does not mention has the
reaction of its default, and the default is to stop.
-/

namespace Conduit

/-- The kinds of findings. -/
inductive FindingKind where
  | extraneousInput
  | missingInput
  | inadequateInputConcept
  | inadequateOutputConcept
  | inadequateInputMultiplicity
  deriving DecidableEq, Repr

namespace FindingKind

/-- Every kind of finding. -/
def all : List FindingKind :=
  [extraneousInput, missingInput, inadequateInputConcept, inadequateOutputConcept,
    inadequateInputMultiplicity]

/-- The word for a kind of finding. -/
def word : FindingKind → String
  | extraneousInput => "extraneous_input_variable"
  | missingInput => "missing_input_variable"
  | inadequateInputConcept => "inadequate_input_concept"
  | inadequateOutputConcept => "inadequate_output_concept"
  | inadequateInputMultiplicity => "inadequate_input_multiplicity"

/-- The kind of finding of a word. -/
def ofWord? (word : String) : Option FindingKind :=
  all.find? fun k => k.word == word

end FindingKind

/-- What happens to a finding. -/
inductive Reaction where
  | ignore
  | log
  | raise
  deriving DecidableEq, Repr

namespace Reaction

/-- The word for a reaction. -/
def word : Reaction → String
  | ignore => "ignore"
  | log => "log"
  | raise => "raise"

/-- The reaction of a word. -/
def ofWord? (word : String) : Option Reaction :=
  [ignore, log, raise].find? fun r => r.word == word

/-- The reaction that a value names: by its word, or by an object whose only key is the word and
whose value is null. -/
def ofJson? : Json → Option Reaction
  | .string word | .object [(word, .null)] => ofWord? word
  | _ => none

end Reaction

/-- The reaction to each kind of finding. -/
structure ReactionPolicy where
  default : Reaction := .raise
  reactions : List (FindingKind × Reaction) := []
  deriving DecidableEq

namespace ReactionPolicy

/-- The reaction to a kind of finding. -/
def reaction (p : ReactionPolicy) (kind : FindingKind) : Reaction :=
  ((p.reactions.find? (·.1 == kind)).map (·.2)).getD p.default

/-- Puts a reaction in the place of the one to the same kind, or at the end. -/
def put (kind : FindingKind) (reaction : Reaction) :
    List (FindingKind × Reaction) → List (FindingKind × Reaction)
  | [] => [(kind, reaction)]
  | (k, r) :: rest => if k = kind then (k, reaction) :: rest else (k, r) :: put kind reaction rest

/-- The policy with another reaction to one kind of finding. -/
def withReaction (p : ReactionPolicy) (kind : FindingKind) (reaction : Reaction) :
    ReactionPolicy :=
  { p with reactions := put kind reaction p.reactions }

/-- The reactions to the kinds of findings with the given words. -/
def reactions? (entries : List (String × Reaction)) : Option (List (FindingKind × Reaction)) := do
  let pairs ← entries.mapM fun (word, r) => (FindingKind.ofWord? word).map (·, r)
  return pairs.foldl (fun rs (k, r) => put k r rs) []

/-- The keys of a policy, in their order. -/
def keys : List String := ["default_reaction", "reactions"]

/-- The policy that a value writes. -/
def ofJson? (v : Json) : Option ReactionPolicy := do
  let get ← v.fields? keys
  let reactions (v : Json) := do reactions? (← v.members? Reaction.ofJson?)
  return { default := ← Json.defaulted .raise Reaction.ofJson? (get "default_reaction")
           reactions := ← Json.defaulted [] reactions (get "reactions") }

/-- The policy that a part of a file writes; there a reaction is a word. -/
def ofYaml? (v : Yaml) : Option ReactionPolicy := do
  let get ← v.fields? keys
  let reaction (v : Yaml) := v.text?.bind Reaction.ofWord?
  let reactions (v : Yaml) := do reactions? (← v.dict? reaction).entries
  return { default := ← Yaml.defaulted .raise reaction (get "default_reaction")
           reactions := ← Yaml.defaulted [] reactions (get "reactions") }

end ReactionPolicy

end Conduit
