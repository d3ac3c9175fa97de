import Mathlib.Logic.Relation
import Conduit.Proofs.Library.Wildcards
import Conduit.Run.Operator

/-!
# What pipes leave

`Library.Leaves` is a static account of the latest result that a run of a pipe may leave, by the
structure to which its content is known to conform. A pipe may leave several, for a condition may
lead to several pipes, and it may leave what was the latest result before. `none` stands for a
result of which nothing is known.

`Library.Fits` is what a pipe must declare for its results to conform to their concepts. Operators
that make content of one form, whatever they declare, must declare a concept that takes it. A batch
lists what its branch leaves, under a concept of its own, so the concept must take it.
-/

namespace Conduit

/-- The structure of the content that an operator makes, if it does not depend on the output that
the operator declares. -/
def Operator.form? : Operator → Option String
  | .imgGen _ => some Structure.imageContent
  | .extract _ => some Structure.pageContent
  | .compose _ => some Structure.textContent
  | .llm _ _ | .func _ => none

/-- The structure of the content that an operator makes for a concept. -/
def Operator.formFor (op : Operator) (c : Concept) : String :=
  op.form?.getD (Engine.generatedShape c)

/-- A concept takes content of a structure if it takes any, or has that structure. -/
def Concept.Takes (c : Concept) (shape : String) : Prop :=
  c.shape = Structure.dynamicContent ∨ c.shape = shape

/-- What is known of the latest result when a condition has chosen: an alias that it makes may hide
it. -/
def Condition.known (c : Condition) (latest : Option String) : Option String :=
  if c.aliasTarget.isSome then none else latest

namespace Library

/-- A pipe may run another one itself. -/
def Leads (l : Library) (p q : Pipe) : Prop :=
  ∃ code ∈ p.subPipes, l.pipes.get? code = some q

/-- A pipe may run another one, or is it. -/
abbrev Reaches (l : Library) : Pipe → Pipe → Prop :=
  Relation.ReflTransGen l.Leads

/-- A pipe may be running when another one is run, in a run that starts with the given
parameters. -/
def MayRun (l : Library) (start : RunParams) (code : String) (p : Pipe) : Prop :=
  code ∈ start.stack ∨ ∃ q, l.pipes.get? code = some q ∧ l.Reaches q p

mutual

/-- A pipe may leave a result of the second structure if the latest result before was of the first,
in a run that starts with the given parameters. -/
inductive Leaves (l : Library) (start : RunParams) :
    Pipe → Option String → Option String → Prop where
  | operator {p : Pipe} {op : Operator} {o : Option String} (hp : p.kind = .operator op) :
      Leaves l start p o (some (op.formFor p.output))
  | batch {p : Pipe} {branch : String} {b : Batching} {o : Option String}
      (hp : p.kind = .batch branch b) : Leaves l start p o (some p.output.shape)
  | sequence {p : Pipe} {steps : List Step} {o o' : Option String} (hp : p.kind = .sequence steps)
      (h : StepsLeave l start steps o o') : Leaves l start p o o'
  | combined {p : Pipe} {q : Parallel} {c : Concept} {o : Option String}
      (hp : p.kind = .parallel q) (hq : q.combined = some c) : Leaves l start p o (some c.shape)
  | last {p : Pipe} {q : Parallel} {s : Step} {o o' : Option String} (hp : p.kind = .parallel q)
      (hq : q.combined = none) (hs : q.branches.getLast? = some s) (h : StepLeaves l start s o o') :
      Leaves l start p o o'
  | outcome {p target : Pipe} {c : Condition} {code : String} {o o' : Option String}
      (hp : p.kind = .condition c) (hcode : code ∈ c.pipes) (ht : l.pipes.get? code = some target)
      (h : Leaves l start target (c.known o) o') : Leaves l start p o o'
  | keep {p : Pipe} {c : Condition} {o : Option String} (hp : p.kind = .condition c)
      (hlive : start.dry = false) (hkeep : Outcome.keep ∈ c.outcomes.values ++ [c.default]) :
      Leaves l start p o (c.known o)
  | skip {p : Pipe} {c : Condition} {o : Option String} (hp : p.kind = .condition c)
      (hdry : start.dry = true) (hskip : ∀ code ∈ c.pipes, l.MayRun start code p) :
      Leaves l start p o (c.known o)

/-- What a step may leave. -/
inductive StepLeaves (l : Library) (start : RunParams) :
    Step → Option String → Option String → Prop where
  | once {s : Step} {target : Pipe} {o o' : Option String} (hs : s.batching = none)
      (ht : l.pipes.get? s.pipe = some target) (h : Leaves l start target o o') :
      StepLeaves l start s o o'
  | each {s : Step} {b : Batching} {target : Pipe} {o : Option String} (hs : s.batching = some b)
      (ht : l.pipes.get? s.pipe = some target) : StepLeaves l start s o (some target.output.shape)

/-- What steps may leave that run one after another. -/
inductive StepsLeave (l : Library) (start : RunParams) :
    List Step → Option String → Option String → Prop where
  | nil {o : Option String} : StepsLeave l start [] o o
  | cons {s : Step} {steps : List Step} {o o' o'' : Option String} (hs : StepLeaves l start s o o')
      (h : StepsLeave l start steps o' o'') : StepsLeave l start (s :: steps) o o''

end

/-- A concept takes the list of what a pipe leaves for the items of a list. -/
def Lists (l : Library) (start : RunParams) (branch : Pipe) (c : Concept) : Prop :=
  c.shape = Structure.dynamicContent ∨ ∀ o, l.Leaves start branch none o → o = some c.shape

/-- A step that runs for each item of a list leaves what its pipe declares. -/
def StepFits (l : Library) (start : RunParams) (s : Step) : Prop :=
  s.batching.isSome = true → ∀ target, l.pipes.get? s.pipe = some target →
    l.Lists start target target.output

/-- The results of a pipe conform to their concepts, where `c` is the concept that an operator puts
out. Nothing is known of the content that a function makes. -/
def Fits (l : Library) (start : RunParams) (c : Concept) (p : Pipe) : Prop :=
  match p.kind with
  | .operator (.func _) => False
  | .operator op => ∀ shape ∈ op.form?, c.Takes shape
  | .batch branch _ => ∀ target, l.pipes.get? branch = some target → l.Lists start target p.output
  | .sequence steps => ∀ s ∈ steps, l.StepFits start s
  | .parallel q => ∀ s ∈ q.branches, l.StepFits start s
  | .condition _ => True

variable {l : Library} {start : RunParams} {p q : Pipe} {c : Concept}

/-- An operator that fits makes content of a structure that its concept takes. -/
theorem Fits.takes {op : Operator} (h : l.Fits start c p) (hkind : p.kind = .operator op)
    (hc : c.Canonical) : (∀ name, op ≠ .func name) ∧ c.Takes (op.formFor c) := by
  unfold Fits at h
  rw [hkind] at h
  cases op with
  | func name => exact h.elim
  | llm prompt system =>
    refine ⟨nofun, ?_⟩
    cases hwild : c.isWildcard with
    | true => exact .inl (hc hwild)
    | false => exact .inr (by simp [Operator.formFor, Operator.form?, Engine.generatedShape, hwild])
  | imgGen prompt => exact ⟨nofun, h _ rfl⟩
  | extract views => exact ⟨nofun, h _ rfl⟩
  | compose template => exact ⟨nofun, h _ rfl⟩

/-- The batched steps of a sequence that fits fit. -/
theorem Fits.steps {steps : List Step} (h : l.Fits start c p) (hkind : p.kind = .sequence steps) :
    ∀ s ∈ steps, l.StepFits start s := by
  unfold Fits at h
  rw [hkind] at h
  exact h

/-- The batched branches of a parallel that fits fit. -/
theorem Fits.branches {b : Parallel} (h : l.Fits start c p) (hkind : p.kind = .parallel b) :
    ∀ s ∈ b.branches, l.StepFits start s := by
  unfold Fits at h
  rw [hkind] at h
  exact h

/-- The output of a batch that fits takes what its branch leaves. -/
theorem Fits.lists {branch : String} {b : Batching} {target : Pipe} (h : l.Fits start c p)
    (hkind : p.kind = .batch branch b) (ht : l.pipes.get? branch = some target) :
    l.Lists start target p.output := by
  unfold Fits at h
  rw [hkind] at h
  exact h target ht

/-- The pipes that the parts of a pipe name are pipes to which it leads. -/
theorem leads_of_step {steps : List Step} {s : Step} (hkind : p.kind = .sequence steps)
    (hs : s ∈ steps) (ht : l.pipes.get? s.pipe = some q) : l.Leads p q :=
  ⟨s.pipe, Pipe.mem_subPipes_of_step hkind hs, ht⟩

theorem leads_of_branch {b : Parallel} {s : Step} (hkind : p.kind = .parallel b)
    (hs : s ∈ b.branches) (ht : l.pipes.get? s.pipe = some q) : l.Leads p q :=
  ⟨s.pipe, Pipe.mem_subPipes_of_branch hkind hs, ht⟩

theorem leads_of_outcome {d : Condition} {code : String} (hkind : p.kind = .condition d)
    (hcode : code ∈ d.pipes) (ht : l.pipes.get? code = some q) : l.Leads p q :=
  ⟨code, Pipe.mem_subPipes_of_outcome hkind hcode, ht⟩

theorem leads_of_batch {branch : String} {b : Batching} (hkind : p.kind = .batch branch b)
    (ht : l.pipes.get? branch = some q) : l.Leads p q :=
  ⟨branch, Pipe.mem_subPipes_of_batch hkind, ht⟩

/-- A pipe that leads to one other pipe, which leads nowhere, reaches itself and that one. -/
theorem eq_or_eq_of_reaches {a : Pipe} (hp : ∀ a, l.Leads p a → a = q) (hq : ∀ a, ¬ l.Leads q a)
    (h : l.Reaches p a) : a = p ∨ a = q := by
  induction h with
  | refl => exact .inl rfl
  | tail _ hleads ih =>
    rcases ih with rfl | rfl
    · exact .inr (hp _ hleads)
    · exact absurd hleads (hq _)

end Library

end Conduit
