import Conduit.Proofs.Run.Ends

/-!
# Runs of the same pipes

A pipe runs others only with parameters that come from its own (`Engine.HandedOn`). So two runners
that run all pipes alike with such parameters make no difference to it
(`Engine.dispatch_congr`), which is what remains to be shown of two ways to run pipes when the
levels of a run are compared one by one.
-/

namespace Conduit.Engine

variable {e : Engine} {fits : RunParams → Prop} {run run' : Runner} {p : Pipe} {m : Memory}
  {params : RunParams} {name : Option String}

/-- Parameters of which every pipe hands on the same kind. -/
structure HandedOn (fits : RunParams → Prop) : Prop where
  nested : ∀ params, fits params → fits params.nested
  forStep : ∀ params s, fits params → fits (params.forStep s)

/-- Two runners that run every pipe alike with parameters that fit. -/
def SameOn (fits : RunParams → Prop) (run run' : Runner) : Prop :=
  ∀ code m params name, fits params → run code m params name = run' code m params name

theorem runBatch_congr (h : HandedOn fits) (hrun : SameOn fits run run') (hp : fits params)
    (owner branch : String) (b : Batching) (output : Concept) :
    e.runBatch run owner branch b output m params name =
      e.runBatch run' owner branch b output m params name := by
  have hnested : ∀ code m name, run code m params.nested name = run' code m params.nested name :=
    fun code m name => hrun code m params.nested name (h.nested params hp)
  unfold runBatch
  simp only [hnested]

theorem runStep_congr (h : HandedOn fits) (hrun : SameOn fits run run') (hp : fits params)
    (s : Step) : e.runStep run p s m params = e.runStep run' p s m params := by
  unfold runStep
  cases s.batching with
  | none => exact hrun _ _ _ _ hp
  | some b => simp only [runBatch_congr h hrun hp]

theorem runSteps_congr (h : HandedOn fits) (hrun : SameOn fits run run') (hp : fits params)
    (steps : List Step) (m : Memory) :
    e.runSteps run p params m steps = e.runSteps run' p params m steps := by
  induction steps generalizing m with
  | nil => rfl
  | cons s rest ih => simp only [runSteps, runStep_congr h hrun (h.forStep params s hp), ih]

theorem runParallel_congr (h : HandedOn fits) (hrun : SameOn fits run run') (hp : fits params)
    (q : Parallel) :
    e.runParallel run p q m params name = e.runParallel run' p q m params name := by
  have hstep : ∀ s, e.runStep run p s m (params.forStep s) =
      e.runStep run' p s m (params.forStep s) :=
    fun s => runStep_congr h hrun (h.forStep params s hp) s
  unfold runParallel
  simp only [hstep]

theorem exploreEach_congr (h : HandedOn fits) (hrun : SameOn fits run run') (hp : fits params)
    (codes : List String) :
    exploreEach run m params name codes = exploreEach run' m params name codes := by
  induction codes with
  | nil => rfl
  | cons code rest ih =>
    have hnested : run code m params.nested name = run' code m params.nested name :=
      hrun code m params.nested name (h.nested params hp)
    simp only [exploreEach, hnested, ih]

theorem follow_congr (h : HandedOn fits) (hrun : SameOn fits run run') (hp : fits params)
    (text : String) (outcome : Outcome) :
    follow run p text m params name outcome = follow run' p text m params name outcome := by
  cases outcome with
  | keep | fail => rfl
  | run code => exact hrun _ _ _ _ (h.nested params hp)

theorem runCondition_congr (h : HandedOn fits) (hrun : SameOn fits run run') (hp : fits params)
    (c : Condition) : runCondition run p c m params name = runCondition run' p c m params name := by
  unfold runCondition
  simp only [explore, exploreEach_congr h hrun hp, follow_congr h hrun hp]

/-- What one pipe does depends on the pipes that it runs only with parameters that it hands on. -/
theorem dispatch_congr (h : HandedOn fits) (hrun : SameOn fits run run') (hp : fits params) :
    e.dispatch run p m params name = e.dispatch run' p m params name := by
  unfold dispatch
  cases p.kind with
  | sequence steps => simp only [runSequence, runSteps_congr h hrun hp]
  | parallel q => simp only [runParallel_congr h hrun hp]
  | condition c => simp only [runCondition_congr h hrun hp]
  | batch branch b => simp only [runBatch_congr h hrun hp]
  | operator op => rfl

end Conduit.Engine
