import Conduit.Concept.Basic
import Conduit.Expression.Basic
import Conduit.Multiplicity
import Conduit.Text.Blank

/-!
# Pipes

A pipe declares its inputs and its output. A controller runs other pipes: in sequence, side by side,
after a condition, or for each item of a list. An operator makes content of its own.
`Pipe.subPipes` lists the pipes that a pipe may run itself.
-/

namespace Conduit

/-- What a variable must hold. -/
structure Requirement where
  concept : Concept
  multiplicity : Multiplicity
  deriving DecidableEq

/-- Requirements on variables, by their names. -/
abbrev Requirements := Dict Requirement

/-- How a list is spread over runs: the variable that holds it and the one that holds each item. -/
structure Batching where
  list : String
  item : String
  deriving DecidableEq

/-- A pipe that another pipe runs: under which name its result is stored, how many values it is
asked for, and whether it runs for each item of a list. -/
structure Step where
  pipe : String
  result : Option String
  multiplicity : Option Multiplicity
  batching : Option Batching
  deriving DecidableEq

/-- Pipes that run side by side. Their results are stored one by one, or combined to a record of a
concept, or both. -/
structure Parallel where
  branches : List Step
  addEach : Bool
  combined : Option Concept
  deriving DecidableEq

/-- Where a condition leads: to a pipe, nowhere, or to a failure. -/
inductive Outcome where
  | run (pipe : String)
  | keep
  | fail
  deriving DecidableEq

namespace Outcome

/-- The word for an outcome that leads nowhere. -/
def keepWord : String := "continue"

/-- The word for a failure. -/
def failWord : String := "fail"

/-- The outcome that a text names. -/
def parse (text : String) : Outcome :=
  let word := Text.trimmed text
  if word = keepWord then keep else if word = failWord then fail else run word

/-- The pipe that an outcome leads to. -/
def pipe? : Outcome → Option String
  | run code => some code
  | keep | fail => none

/-- The word for an outcome. -/
def describe : Outcome → String
  | run code => code
  | keep => keepWord
  | fail => failWord

end Outcome

/-- What a condition evaluates: a bare expression or a template. -/
inductive Subject where
  | expression (source : String)
  | template (source : String)
  deriving DecidableEq

/-- The text of a subject. -/
def Subject.source : Subject → String
  | expression source | template source => source

/-- A choice between outcomes by a text. The text may become an alias of a variable. -/
structure Condition where
  subject : Subject
  outcomes : Dict Outcome
  default : Outcome
  aliasTarget : Option String
  deriving DecidableEq

namespace Condition

/-- The pipes that a condition may lead to, in the order of their outcomes. -/
def pipes (c : Condition) : List String :=
  distinct ((c.outcomes.values ++ [c.default]).filterMap Outcome.pipe?)

/-- The outcome of an evaluated text. -/
def outcome (c : Condition) (evaluated : String) : Outcome :=
  (c.outcomes.get? evaluated).getD c.default

/-- Every text leads to an outcome that is listed, or to the default. -/
theorem outcome_mem (c : Condition) (evaluated : String) :
    c.outcome evaluated ∈ c.outcomes.values ++ [c.default] := by
  unfold outcome
  cases h : c.outcomes.get? evaluated with
  | none => simp
  | some o => exact List.mem_append_left _ (Dict.mem_values_of_get? h)

/-- A pipe that some text leads to is one of those that a condition may lead to. -/
theorem mem_pipes_of_outcome {c : Condition} {evaluated code : String}
    (h : c.outcome evaluated = .run code) : code ∈ c.pipes := by
  unfold pipes
  rw [mem_distinct, List.mem_filterMap]
  exact ⟨.run code, h ▸ c.outcome_mem evaluated, rfl⟩

end Condition

/-- A pipe that makes content: with a language model, an image generator, a page reader, a
registered function or a template. -/
inductive Operator where
  | llm (prompt : String) (system : Option String)
  | imgGen (prompt : Option String)
  | extract (pageViews : Bool)
  | func (name : String)
  | compose (template : String)
  deriving DecidableEq

/-- What a pipe does. -/
inductive PipeKind where
  | sequence (steps : List Step)
  | parallel (parallel : Parallel)
  | condition (condition : Condition)
  | batch (branch : String) (batching : Batching)
  | operator (operator : Operator)
  deriving DecidableEq

/-- A pipe of a domain. -/
structure Pipe where
  code : String
  domain : String
  description : String
  inputs : Requirements
  output : Concept
  multiplicity : Multiplicity
  kind : PipeKind
  deriving DecidableEq

namespace Pipe

/-- Whether a pipe is an operator. -/
def isOperator (p : Pipe) : Bool :=
  match p.kind with
  | .operator _ => true
  | _ => false

/-- The word for the kind of a pipe. -/
def typeName (p : Pipe) : String :=
  match p.kind with
  | .sequence _ => "PipeSequence"
  | .parallel _ => "PipeParallel"
  | .condition _ => "PipeCondition"
  | .batch _ _ => "PipeBatch"
  | .operator (.llm _ _) => "PipeLLM"
  | .operator (.imgGen _) => "PipeImgGen"
  | .operator (.extract _) => "PipeExtract"
  | .operator (.func _) => "PipeFunc"
  | .operator (.compose _) => "PipeCompose"

/-- The pipes that a pipe may run itself, each once. -/
def subPipes (p : Pipe) : List String :=
  match p.kind with
  | .sequence steps => distinct (steps.map Step.pipe)
  | .parallel q => distinct (q.branches.map Step.pipe)
  | .condition c => c.pipes
  | .batch branch _ => [branch]
  | .operator _ => []

/-! The pipes that the parts of a pipe name are pipes that it may run. -/

section

variable {p : Pipe}

theorem mem_subPipes_of_step {steps : List Step} {s : Step} (hkind : p.kind = .sequence steps)
    (hs : s ∈ steps) : s.pipe ∈ p.subPipes := by
  simp only [subPipes, hkind, mem_distinct]
  exact List.mem_map_of_mem hs

theorem mem_subPipes_of_branch {q : Parallel} {s : Step} (hkind : p.kind = .parallel q)
    (hs : s ∈ q.branches) : s.pipe ∈ p.subPipes := by
  simp only [subPipes, hkind, mem_distinct]
  exact List.mem_map_of_mem hs

theorem mem_subPipes_of_outcome {c : Condition} {code : String} (hkind : p.kind = .condition c)
    (hcode : code ∈ c.pipes) : code ∈ p.subPipes := by
  simp only [subPipes, hkind]
  exact hcode

theorem mem_subPipes_of_batch {branch : String} {b : Batching}
    (hkind : p.kind = .batch branch b) : branch ∈ p.subPipes := by
  simp only [subPipes, hkind]
  exact List.mem_cons_self

end

end Pipe

end Conduit
