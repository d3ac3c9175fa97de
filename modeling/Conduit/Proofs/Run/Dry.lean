import Conduit.Proofs.Run.Obeys

/-!
# Dry runs

A dry run does not depend on the generator and the functions of its engine, and it reaches neither.
Both hold of all runs whose parameters are dry, because every way to run a pipe from another one
hands the parameter on: `Engine.runWithin_rewired` compares the runs of two engines that differ in
nothing else, level by level, and `Engine.runWithin_stays` looks at the marks of one. The memory on
which a pipe is run dry is made of placeholders, from the library alone, so `Engine.dryRun_rewired`
follows.
-/

namespace Conduit

/-- Whether a mark says that something outside the engine is asked for content: the generator, or a
registered function. -/
def Mark.isOutside : Mark → Bool
  | request _ | call _ => true
  | entered _ _ | event _ => false

namespace Engine

variable {e : Engine} {g : Generator} {fs : Dict Function} {run run' : Runner} {p : Pipe}
  {m : Memory} {params : RunParams} {name : Option String}

/-- The engine with another generator and other functions. -/
def rewired (e : Engine) (g : Generator) (fs : Dict Function) : Engine :=
  { e with generator := g, functions := fs }

/-- The generator of dry runs answers the requests of a dry run. -/
theorem generatorFor_of_dry (hdry : params.dry = true) :
    e.generatorFor params.dry = .dryRun e.library.registry e.config.listSize := by
  unfold generatorFor
  rw [hdry, if_pos rfl]

/-! ## Two engines -/

/-- What an operator makes in a dry run does not depend on the generator and the functions. -/
theorem makeContent_rewired (hdry : params.dry = true) (c : Concept) (op : Operator) :
    (e.rewired g fs).makeContent p m params c op = e.makeContent p m params c op := by
  cases op with
  | llm user system =>
    simp only [makeContent, runLlm, generatorFor, hdry, if_true]
    rfl
  | imgGen source =>
    simp only [makeContent, runImgGen, generatorFor, hdry, if_true]
    rfl
  | extract views =>
    simp only [makeContent, runExtract, generatorFor, hdry, if_true]
    rfl
  | func name =>
    simp only [makeContent, runFunc, hdry, if_true]
    rfl
  | compose source => rfl

theorem runOperator_rewired (hdry : params.dry = true) (op : Operator) :
    (e.rewired g fs).runOperator p op m params name = e.runOperator p op m params name := by
  unfold runOperator
  simp only [makeContent_rewired hdry]
  rfl

theorem runSteps_rewired (steps : List Step) (m : Memory) :
    (e.rewired g fs).runSteps run p params m steps = e.runSteps run p params m steps := by
  induction steps generalizing m with
  | nil => rfl
  | cons s rest ih =>
    simp only [runSteps, ih]
    rfl

/-- What is run by a dry run is run dry. -/
theorem dry_handedOn : HandedOn fun params => params.dry = true where
  nested params hdry := (params.dry_nested).trans hdry
  forStep params s hdry := (params.dry_forStep s).trans hdry

/-- Two runners whose dry runs are the same. -/
abbrev SameDry (run run' : Runner) : Prop :=
  SameOn (fun params => params.dry = true) run run'

/-- What one pipe does in a dry run does not depend on the generator and the functions, if that is
so of the pipes that it runs. -/
theorem dispatch_rewired (hrun : SameDry run run') (hdry : params.dry = true) :
    (e.rewired g fs).dispatch run p m params name = e.dispatch run' p m params name := by
  rw [← dispatch_congr dry_handedOn hrun hdry]
  unfold dispatch
  cases p.kind with
  | sequence steps =>
    simp only [runSequence, runSteps_rewired]
    rfl
  | parallel _ | condition _ | batch _ _ => rfl
  | operator op =>
    simp only [runOperator_rewired hdry]
    rfl

/-- Dry runs do not depend on the generator and the functions. -/
theorem runWithin_rewired (levels : Nat) :
    SameDry ((e.rewired g fs).runWithin levels) (e.runWithin levels) := by
  induction levels with
  | zero =>
    intro code m params name _
    have hlookup : (e.rewired g fs).lookup code params = e.lookup code params := rfl
    unfold runWithin
    rw [hlookup]
    cases e.lookup code params with
    | error cause => rfl
    | ok p => rfl
  | succ levels ih =>
    intro code m params name hdry
    have hlookup : (e.rewired g fs).lookup code params = e.lookup code params := rfl
    unfold runWithin
    rw [hlookup]
    cases e.lookup code params with
    | error cause => rfl
    | ok p =>
      have hdispatch : (e.rewired g fs).dispatch ((e.rewired g fs).runWithin levels) p m
          (onStack params p) name = e.dispatch (e.runWithin levels) p m (onStack params p) name :=
        dispatch_rewired ih ((dry_onStack params p).trans hdry)
      exact congrArg (Run.located _) hdispatch

/-! ## What a dry run leaves -/

/-- The marks of a dry run. -/
def Inside (x : Mark) : Prop :=
  x.isOutside = false

/-- No dry run leaves a mark of something outside. -/
def StaysInside (run : Runner) : Prop :=
  ∀ code m params name, params.dry = true → (run code m params name).Leaves Inside

/-- No pipe leaves a mark of something outside itself when it is run dry. -/
theorem dry_admits : Admits (e.Own p) (fun params => params.dry = true) Inside fun _ => True where
  toHandedOn := dry_handedOn
  entered _ _ _ := rfl
  event _ _ _ _ := rfl
  request params _ hdry hlive := by simp [hdry] at hlive
  call params _ hdry hlive := by simp [hdry] at hlive
  cause _ _ := trivial

/-- No dry run leaves a mark of something outside. -/
theorem runWithin_stays (levels : Nat) : StaysInside (e.runWithin levels) := by
  intro code m params name hdry
  refine (runWithin_induct e (motive := fun _ _ params _ r => params.dry = true →
    r.Obeys Inside fun _ => True) ?missing ?overflow ?step levels code m params name hdry).leaves
  case missing =>
    intro code m params name cause place _ _
    exact (Run.obeys_fail trivial).located fun _ h => h
  case overflow =>
    intro code m params name p place _ _
    exact (Run.obeys_fail trivial).located fun _ h => h
  case step =>
    intro run hrun code m params name p place _ hdry
    have hbelow : Follows (e.library.Runs p) (fun params => params.dry = true) Inside
        (fun _ => True) run := fun code m params name _ => hrun code m params name
    exact (dispatch_obeys dry_admits hbelow ((dry_onStack params p).trans hdry)).located
      fun _ h => h

/-! ## Dry runs of a pipe -/

theorem withTimeout_trace {α : Type} (code : String) (r : Run α) :
    (e.withTimeout code r).trace = r.trace := by
  unfold withTimeout
  split
  · rfl
  · dsimp only
    split <;> rfl

/-- A run that ends within the time it may take ends as it does without a limit. -/
theorem result_of_withTimeout {α : Type} {code : String} {r : Run α} {a : α}
    (h : (e.withTimeout code r).result = .ok a) : r.result = .ok a := by
  unfold withTimeout at h
  split at h
  · exact h
  · dsimp only at h
    split at h
    · exact h
    · cases h

/-- A dry run of a pipe does not depend on the generator and the functions: it ends in the same way,
with the same memory or the same error, leaves the same trace and takes the same time. It asks the
generator for nothing and calls no function. -/
theorem dryRun_rewired (e : Engine) (g : Generator) (fs : Dict Function) (code : String) :
    ({ e with generator := g, functions := fs } : Engine).dryRun code = e.dryRun code ∧
      ∀ x ∈ (e.dryRun code).trace, x.isOutside = false := by
  constructor
  · have hrun : ∀ m, (e.rewired g fs).run code m { dry := true } none =
        e.run code m { dry := true } none := fun m => runWithin_rewired _ code m _ none rfl
    change (e.rewired g fs).dryRun code = e.dryRun code
    unfold dryRun execute
    simp only [hrun]
    rfl
  · have hstays : (e.dryRun code).Leaves Inside := by
      refine .bind Run.leaves_ofExcept fun m => ?_
      unfold execute Run.Leaves
      rw [withTimeout_trace]
      exact runWithin_stays _ code m _ none rfl
    exact hstays

end Engine

end Conduit
