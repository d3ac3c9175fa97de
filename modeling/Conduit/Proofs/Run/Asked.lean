import Conduit.Proofs.Library.Sized
import Conduit.Proofs.Run.Bounded

/-!
# What steps ask of operators

A step may ask its pipe for a number of values other than the pipe's own. The number travels in the
parameters of the pipe: `RunParams.forStep` puts it there, and an operator looks for it before it
takes its own (`Engine.outputMultiplicity`). What becomes of it can be read off the pipes that a run
enters and the parameters with which it enters them (`Run.entries`).

A run of a sequence or a parallel enters what its steps enter, each run with parameters of its own
(`Engine.EntersSteps`). The run of one step whose pipe is an operator enters the operator and
nothing else, once or for each item of a list (`Engine.Serves`). A step that is run once hands its
number on. A step that is run for each item does not: its parameters are replaced by those of a pipe
of which nothing is asked, so the operator makes its own number of values for every item
(`Engine.not_forall_run_served`).
-/

namespace Conduit

/-! ## What is declared -/

/-- How many values a declared step asks for, if it does not leave that to its pipe. -/
def StepBlueprint.asked? (b : StepBlueprint) : Option Multiplicity :=
  match b.count, b.multiple with
  | some n, _ => some (.fixed n)
  | none, some true => some .list
  | none, _ => none

/-- A step asks for what its declaration asks for. -/
theorem Step.make_asked {pipe : String} {b : StepBlueprint} {s : Step}
    (h : Step.make pipe b = .ok s) : s.multiplicity = b.asked? := by
  obtain ⟨m, hm, hs⟩ := Step.make_multiplicity h
  rw [hs]
  obtain ⟨_, _, count, multiple, _, _⟩ := b
  cases count with
  | none =>
    cases multiple with
    | none =>
      cases hm
      rfl
    | some many =>
      cases many <;>
      · cases hm
        rfl
  | some n =>
    -- a count of zero is refused, and so is a count together with any number
    cases n with
    | zero => cases hm
    | succ n =>
      rcases multiple with _ | _ | _ <;> cases hm <;> rfl

/-! ## Pipes that a run enters -/

/-- The pipe that is entered and its parameters, if one is. -/
def Mark.entry? : Mark → Option (String × RunParams)
  | entered pipe params => some (pipe, params)
  | event _ | request _ | call _ => none

namespace Run

variable {α β : Type} {r : Run α} {f : α → Run β}

/-- The pipes that a run enters, one after another, with their parameters. -/
def entries (r : Run α) : List (String × RunParams) :=
  r.trace.filterMap Mark.entry?

/-- A run that enters no pipe. -/
abbrev Silent (r : Run α) : Prop :=
  r.Leaves fun x => x.entry? = none

theorem Silent.entries_eq (h : r.Silent) : r.entries = [] :=
  List.filterMap_eq_nil_iff.2 h

theorem entries_located {place : Place} : (r.located place).entries = r.entries := rfl

/-- A run that goes on after another. -/
theorem entries_bind (r : Run α) (f : α → Run β) : (r >>= f).entries = r.entries ++
    match r.result with
    | .ok a => (f a).entries
    | .error _ => [] := by
  change (Run.bind r f).entries = _
  unfold Run.bind
  cases r.result with
  | ok a => exact List.filterMap_append
  | error e => exact (List.append_nil _).symm

/-- A run that goes on after another and enters nothing more. -/
theorem entries_bind_silent (hf : ∀ a, (f a).Silent) : (r >>= f).entries = r.entries := by
  rw [entries_bind]
  cases r.result with
  | ok a => simp only [(hf a).entries_eq, List.append_nil]
  | error e => exact List.append_nil _

/-- A run that goes on after one that gives nothing but a sign, and enters nothing. -/
theorem entries_silent_bind {r : Run Unit} {f : Unit → Run β} (hr : r.Silent)
    (hok : r.result = .ok ()) : (r >>= f).entries = (f ()).entries := by
  rw [entries_bind, hr.entries_eq, hok]
  rfl

/-- A run that goes on after a result that is known. -/
theorem entries_lift_bind {x : Except RunCause α} : (liftM x >>= f).entries =
    match x with
    | .ok a => (f a).entries
    | .error _ => [] := by
  cases x <;> rfl

/-- The run of a pipe that is entered. -/
theorem entries_entered_bind {pipe : String} {params : RunParams} {f : Unit → Run β} :
    (mark (.entered pipe params) >>= f).entries = (pipe, params) :: (f ()).entries := by
  rw [entries_bind]
  rfl

/-- Branches enter what each of them enters. -/
theorem entries_join {s : Schedule} {pipe : String} {branches : List (Run Memory)} :
    (join s pipe branches).entries = branches.flatMap entries :=
  List.filterMap_flatMap

theorem forM_emit_ok {γ : Type} (es : γ → Event) (is : List γ) :
    (is.forM fun i => emit (es i)).result = .ok () := by
  induction is with
  | nil => rfl
  | cons i is ih => exact ih

theorem silent_emit {event : Event} : (emit event).Silent :=
  leaves_mark rfl

theorem silent_forM_emit {γ : Type} (es : γ → Event) (is : List γ) :
    (is.forM fun i => emit (es i)).Silent := by
  induction is with
  | nil => exact leaves_pure
  | cons i is ih => exact silent_emit.bind fun _ => ih

theorem silent_ask {pipe : String} {dry : Bool} {request : Request} {reply : Reply α} :
    (ask pipe dry request reply).Silent := by
  intro x hx
  cases dry with
  | true => exact absurd hx List.not_mem_nil
  | false =>
    rw [List.mem_singleton.1 hx]
    rfl

end Run

namespace Engine

variable {e : Engine} {p t : Pipe} {op : Operator} {s : Step} {m : Memory} {params : RunParams}
  {name : Option String} {code : String}

/-! ## Operators -/

/-- An operator enters no pipe while it makes content. -/
theorem makeContent_silent (c : Concept) (op : Operator) :
    (e.makeContent p m params c op).Silent := by
  cases op with
  | llm user system =>
    refine .bind Run.leaves_ofExcept fun prompt => ?_
    dsimp only
    split
    · split
      · exact Run.silent_ask.bind fun _ => Run.leaves_pure
      · exact Run.silent_ask.bind fun _ => Run.leaves_ofExcept
    · refine Run.silent_ask.bind fun _ => .bind Run.leaves_ofExcept fun _ => ?_
      exact .bind Run.leaves_ofExcept fun _ => Run.leaves_pure
  | imgGen source =>
    refine .bind Run.leaves_ofExcept fun prompt => Run.silent_ask.bind fun _ => ?_
    refine .bind Run.leaves_ofExcept fun _ => ?_
    split
    · exact Run.leaves_ofExcept
    · exact Run.leaves_pure
  | extract views =>
    refine .bind Run.leaves_ofExcept fun _ => .bind Run.leaves_ofExcept fun _ => ?_
    refine Run.silent_ask.bind fun _ => ?_
    split
    · exact Run.leaves_ofExcept
    · exact Run.leaves_pure
  | func function =>
    simp only [makeContent, runFunc]
    split
    · exact Run.leaves_ofExcept
    · split
      · exact Run.leaves_fail
      · exact .bind (Run.leaves_mark rfl) fun _ => Run.leaves_ofExcept
  | compose source => exact Run.leaves_ofExcept

theorem runOperator_silent : (e.runOperator p op m params name).Silent := by
  refine .bind Run.leaves_ofExcept fun c => .bind (makeContent_silent c op) fun _ => ?_
  exact .bind Run.leaves_ofExcept fun _ => Run.silent_emit.bind fun _ => Run.leaves_pure

/-- An operator of which a number of values is asked makes content as one of which nothing is asked
and whose own number it is. -/
theorem makeContent_asked (e : Engine) (p : Pipe) (m : Memory) (params : RunParams) :
    e.makeContent p m params = e.makeContent
      { p with multiplicity := outputMultiplicity p params } m
        { params with multiplicity := none } := by
  funext c op
  cases op with
  | llm user system =>
    unfold makeContent runLlm
    rfl
  | imgGen source =>
    unfold makeContent runImgGen
    rfl
  | extract views =>
    unfold makeContent runExtract
    rfl
  | func function =>
    unfold makeContent runFunc
    rfl
  | compose source => rfl

/-- An operator of which a number of values is asked runs as one of which nothing is asked and whose
own number it is. -/
theorem runOperator_asked (e : Engine) (p : Pipe) (op : Operator) (m : Memory) (params : RunParams)
    (name : Option String) : e.runOperator p op m params name =
      e.runOperator { p with multiplicity := outputMultiplicity p params } op m
        { params with multiplicity := none } name := by
  have hconcept : e.outputConcept p params = e.outputConcept
      { p with multiplicity := outputMultiplicity p params }
        { params with multiplicity := none } := by
    simp only [outputConcept]
  have hlayer : params.layer = ({ params with multiplicity := none } : RunParams).layer := rfl
  unfold runOperator
  rw [makeContent_asked, hconcept]
  simp only [hlayer]

/-- A pipe that is entered. -/
theorem entries_run (hp : e.library.pipes.get? code = some p) :
    (e.run code m params name).entries = if params.layer < e.config.maxDepth
      then (e.dispatch e.run p m (onStack params p) name).entries else [] := by
  have hlookup : e.lookup code params = .ok p := mapError_eq_ok_iff.2 (Library.pipe_of_get? hp _)
  rw [run_eq_enterPipe]
  unfold enterPipe
  rw [hlookup]
  by_cases hroom : params.layer < e.config.maxDepth
  · simp only [RunParams.enter, hroom, if_true]
    exact Run.entries_located
  · simp only [RunParams.enter, hroom, if_false]
    rfl

/-- The run of an operator enters the operator, if the stack has room for it. -/
theorem entries_run_operator (ht : e.library.pipes.get? code = some t)
    (hkind : t.kind = .operator op) : (e.run code m params name).entries =
      if params.layer < e.config.maxDepth then [(t.code, onStack params t)] else [] := by
  have hdispatch : (e.dispatch e.run t m (onStack params t) name).entries =
      [(t.code, onStack params t)] := by
    unfold dispatch
    rw [Run.entries_entered_bind, Run.entries_lift_bind, hkind]
    cases e.checkInputs t m with
    | ok => simp only [runOperator_silent.entries_eq]
    | error cause => rfl
  rw [entries_run ht, hdispatch]

/-! ## Steps -/

/-- How often a step runs its pipe: once, or for each item of its list. -/
def timesRun (s : Step) (m : Memory) : Nat :=
  match s.batching with
  | none => 1
  | some b =>
    match batchItems m b.list with
    | .ok (_, items) => items.length
    | .error _ => 0

/-- The parameters of a pipe that a step runs, from those of the owner of the step. Of a pipe that
is run for each item of a list nothing is asked. -/
def servedParams (s : Step) (params : RunParams) : RunParams :=
  match s.batching with
  | none => params.forStep s
  | some _ => params.nested

/-- A batch whose pipe enters the same for every item. -/
theorem entries_runBatch {owner : String} {b : Batching} {output : Concept} {run : Runner}
    {entered : List (String × RunParams)}
    (hrun : ∀ m, (run code m params.nested none).entries = entered) :
    (e.runBatch run owner code b output m params name).entries =
      match batchItems m b.list with
      | .ok (_, items) => items.flatMap fun _ => entered
      | .error _ => [] := by
  unfold runBatch
  rw [Run.entries_lift_bind]
  cases batchItems m b.list with
  | error cause => rfl
  | ok found =>
    obtain ⟨c, items⟩ := found
    dsimp only
    rw [Run.entries_silent_bind (Run.silent_forM_emit _ _) (Run.forM_emit_ok _ _),
      Run.entries_bind_silent, Run.entries_join, List.flatMap_map]
    · simp only [hrun]
    · intro memories
      refine .bind Run.leaves_ofExcept fun _ => .bind Run.leaves_ofExcept fun _ => ?_
      exact Run.silent_emit.bind fun _ => Run.leaves_pure

/-- A step whose pipe is an operator enters the operator, and nothing else. -/
theorem entries_runStep (hk : e.library.Keyed) (ht : e.library.pipes.get? s.pipe = some t)
    (hkind : t.kind = .operator op) : (e.runStep e.run p s m (params.forStep s)).entries =
      List.replicate (if params.layer < e.config.maxDepth then timesRun s m else 0)
        (t.code, onStack (servedParams s params) t) := by
  unfold runStep timesRun servedParams
  cases hbatching : s.batching with
  | none =>
    have hrun : (e.run s.pipe m (params.forStep s) s.result).entries =
        if params.layer < e.config.maxDepth then [(t.code, onStack (params.forStep s) t)] else [] :=
      entries_run_operator ht hkind
    dsimp only
    rw [hrun]
    split <;> rfl
  | some b =>
    have htarget : e.batchTarget p s = .ok t := mapError_eq_ok_iff.2 (Library.pipe_of_get? ht _)
    have hrun : ∀ m, (e.run t.code m (params.forStep s).nested none).entries =
        if params.layer < e.config.maxDepth then [(t.code, onStack params.nested t)] else [] :=
      fun m => entries_run_operator (hk.registered ht) hkind
    dsimp only
    rw [Run.entries_lift_bind, htarget]
    dsimp only
    rw [entries_runBatch hrun]
    cases batchItems m b.list with
    | error cause => rw [ite_self, List.replicate_zero]
    | ok found =>
      obtain ⟨c, items⟩ := found
      by_cases hroom : params.layer < e.config.maxDepth
      · simp only [hroom, if_true]
        rw [← List.map_eq_flatMap, List.map_const']
      · simp [hroom]

/-! ## Sequences and parallels -/

/-- Some pipes are those that steps of a pipe enter: the first of its steps, as many as are run,
each on some memory and with the parameters that the pipe makes for it. -/
def EntersSteps (e : Engine) (p : Pipe) (params : RunParams) (steps : List Step)
    (entered : List (String × RunParams)) : Prop :=
  ∃ runs : List (Step × Memory), runs.map Prod.fst <+: steps ∧
    entered = runs.flatMap fun (s, m) => (e.runStep e.run p s m (params.forStep s)).entries

theorem entersSteps_nil {steps : List Step} : e.EntersSteps p params steps [] :=
  ⟨[], List.nil_prefix, rfl⟩

theorem runSteps_entersSteps (steps : List Step) (m : Memory) :
    e.EntersSteps p params steps (e.runSteps e.run p params m steps).entries := by
  induction steps generalizing m with
  | nil => exact entersSteps_nil
  | cons s rest ih =>
    unfold runSteps
    rw [Run.entries_bind]
    cases (e.runStep e.run p s m (params.forStep s)).result with
    | error err =>
      refine ⟨[(s, m)], ⟨rest, rfl⟩, ?_⟩
      simp
    | ok m' =>
      obtain ⟨runs, hprefix, hentered⟩ := ih m'
      refine ⟨(s, m) :: runs, ?_, ?_⟩
      · exact List.cons_prefix_cons.2 ⟨rfl, hprefix⟩
      · exact congrArg (_ ++ ·) hentered

theorem runSequence_entersSteps (steps : List Step) :
    e.EntersSteps p params steps (e.runSequence e.run p steps m params name).entries := by
  unfold runSequence
  rw [Run.entries_bind_silent]
  · exact runSteps_entersSteps steps m
  · exact fun _ => .bind Run.leaves_ofExcept fun _ => Run.leaves_ofExcept

theorem runParallel_entersSteps (q : Parallel) :
    e.EntersSteps p params q.branches (e.runParallel e.run p q m params name).entries := by
  unfold runParallel
  rw [Run.entries_lift_bind]
  cases e.checkTargets p q.branches with
  | error cause => exact entersSteps_nil
  | ok =>
    dsimp only
    rw [Run.entries_bind_silent, Run.entries_join]
    · refine ⟨q.branches.map (·, m), ?_, ?_⟩
      · simp [Function.comp_def]
      · rw [List.flatMap_map, List.flatMap_map]
    · intro memories
      refine .bind Run.leaves_ofExcept fun _ => .bind Run.leaves_ofExcept fun _ => ?_
      split
      · exact Run.leaves_ofExcept
      · refine .bind Run.leaves_ofExcept fun _ => .bind Run.leaves_ofExcept fun _ => ?_
        exact Run.silent_emit.bind fun _ => Run.leaves_pure

/-- A sequence or a parallel enters itself, and then what its steps enter. -/
theorem dispatch_entersSteps (e : Engine) (m : Memory) (params : RunParams) (name : Option String)
    (hsteps : p.kind.steps ≠ []) :
    ∃ entered, e.EntersSteps p params p.kind.steps entered ∧
      (e.dispatch e.run p m params name).entries = (p.code, params) :: entered := by
  unfold dispatch
  rw [Run.entries_entered_bind, Run.entries_lift_bind]
  refine ⟨_, ?_, rfl⟩
  cases e.checkInputs p m with
  | error cause => exact entersSteps_nil
  | ok =>
    cases hkind : p.kind with
    | sequence steps => exact runSequence_entersSteps steps
    | parallel q => exact runParallel_entersSteps q
    | condition _ | batch _ _ | operator _ =>
      rw [hkind] at hsteps
      exact absurd rfl hsteps

/-- What becomes of the number of values that a step asks of an operator. `params` are those of the
pipe whose step it is. -/
structure Serves (e : Engine) (p t : Pipe) (op : Operator) (s : Step) (params : RunParams)
    (m : Memory) : Prop where
  /-- The step enters the operator, once or for each item of its list, and enters nothing else. -/
  entries : (e.runStep e.run p s m (params.forStep s)).entries =
    List.replicate (if params.layer < e.config.maxDepth then timesRun s m else 0)
      (t.code, onStack (servedParams s params) t)
  /-- The operator takes the number that the step asks for if it is run once, and its own number if
  it is run for each item. -/
  multiplicity : outputMultiplicity t (onStack (servedParams s params) t) =
    if s.batching.isSome then t.multiplicity else s.multiplicity.getD t.multiplicity
  /-- It runs as if that were its own number and nothing had been asked. -/
  makes : ∀ m name, e.runOperator t op m (onStack (servedParams s params) t) name =
    e.runOperator
      { t with multiplicity := outputMultiplicity t (onStack (servedParams s params) t) } op m
      { onStack (servedParams s params) t with multiplicity := none } name

theorem serves (hk : e.library.Keyed) (ht : e.library.pipes.get? s.pipe = some t)
    (hkind : t.kind = .operator op) : e.Serves p t op s params m where
  entries := entries_runStep hk ht hkind
  multiplicity := by
    unfold servedParams
    cases s.batching <;> rfl
  makes m name := runOperator_asked e t op m _ name

/-- A run of a sequence or a parallel enters itself and then what its steps enter. A step whose pipe
is an operator asks for what is declared, and enters the operator alone. The operator makes as many
values as are asked for if the step is run once; but if it is run for each item of a list, the
operator makes its own number of values for every item, whatever is asked for. -/
theorem run_served (e : Engine) (p : Pipe) (m : Memory) (params : RunParams) (name : Option String)
    (hk : e.library.Keyed) (hp : e.library.Registered p) (hsteps : p.kind.steps ≠ []) :
    e.EntersSteps p (onStack params p) p.kind.steps (e.run p.code m params name).entries.tail ∧
      ∀ s ∈ p.kind.steps, ∀ b t op m, Step.make p.code b = .ok s →
        e.library.pipes.get? s.pipe = some t → t.kind = .operator op →
          s.multiplicity = b.asked? ∧ e.Serves p t op s (onStack params p) m := by
  refine ⟨?_, fun s _ b t op m hmake ht hkind => ⟨Step.make_asked hmake, serves hk ht hkind⟩⟩
  rw [entries_run hp]
  split
  · obtain ⟨entered, hentered, hdispatch⟩ :=
      dispatch_entersSteps e m (onStack params p) name hsteps
    rw [hdispatch]
    exact hentered
  · exact entersSteps_nil

end Engine

/-! ## Two drafts of a cover -/

namespace Library

/-- A cover for a title. -/
def cover : Pipe where
  code := "cover"
  domain := "covers"
  description := ""
  inputs := .ofList [("title", ⟨NativeConcept.text.concept, .single⟩)]
  output := NativeConcept.image.concept
  multiplicity := .single
  kind := .operator (.imgGen (some "${{ title }}"))

/-- A step that asks for two covers, for one title or for each of some titles. -/
def draftStep (batching : Option Batching) : Step :=
  ⟨"cover", some "drafts", some (.fixed 2), batching⟩

/-- Two covers for a title. -/
def draftCover : Pipe where
  code := "draft_cover"
  domain := "covers"
  description := ""
  inputs := .ofList [("title", ⟨NativeConcept.text.concept, .single⟩)]
  output := NativeConcept.image.concept
  multiplicity := .single
  kind := .sequence [draftStep none]

/-- Two covers for each of some titles. -/
def draftCovers : Pipe where
  code := "draft_covers"
  domain := "covers"
  description := ""
  inputs := .ofList [("titles", ⟨NativeConcept.text.concept, .list⟩)]
  output := NativeConcept.image.concept
  multiplicity := .single
  kind := .sequence [draftStep (some ⟨"titles", "title"⟩)]

/-- A library of covers. -/
def covers : Library where
  domains := .ofList [("covers", ⟨"covers", none, none⟩)]
  concepts := .initial
  pipes := .ofList [("cover", cover), ("draft_cover", draftCover), ("draft_covers", draftCovers)]

/-- The declaration of a step that asks for two covers. -/
def draftDeclaration (list item : Option String) : StepBlueprint :=
  ⟨"cover", some "drafts", some 2, none, list, item⟩

/-- The bundle that makes `covers`. -/
def coversBundle : Bundle where
  domain := ⟨"covers", none, none⟩
  concepts := .empty
  pipes := .ofList [
    ("cover", ⟨⟨"", .ofList [("title", "Text")], "Image"⟩, .imgGen (some "${{ title }}") none⟩),
    ("draft_cover", ⟨⟨"", .ofList [("title", "Text")], "Image"⟩,
      .sequence [draftDeclaration none none]⟩),
    ("draft_covers", ⟨⟨"", .ofList [("titles", "Text[]")], "Image"⟩,
      .sequence [draftDeclaration (some "titles") (some "title")]⟩)]
  mainPipe := none

theorem covers_loaded : covers.Loaded := by
  refine .load .initial (b := coversBundle) (eq_ok_of_toOption ?_)
  decide +kernel

end Library

namespace Engine

open Library

/-- An engine for covers, whose generator gives as many images as it is asked for. -/
def coversEngine : Engine where
  library := covers
  generator := { Generator.unavailable with
    images := fun _ n => { answer := .ok (List.replicate n ⟨"cover.png", none⟩) } }

/-- A memory that holds a title, and a list of it. -/
def coversMemory : Memory :=
  let m := Memory.empty.set "title" (Memory.empty.fresh "title" NativeConcept.text.concept
    (.text "red"))
  m.set "titles" (m.fresh "titles" NativeConcept.text.concept (.list [.text "red"]))

/-- Not every operator makes as many values as a step asks for: a step that asks for two covers, and
is run for each title of a list, has it make one for each. -/
theorem not_forall_run_served : ¬ ∀ (e : Engine) (p t : Pipe) (op : Operator) (s : Step)
      (b : StepBlueprint) (m : Memory) (params : RunParams) (n : Multiplicity), e.library.Loaded →
    e.library.Registered p → s ∈ p.kind.steps → Step.make p.code b = .ok s →
    e.library.pipes.get? s.pipe = some t → t.kind = .operator op → b.asked? = some n →
      ∀ entry ∈ (e.runStep e.run p s m (params.forStep s)).entries,
        outputMultiplicity t entry.2 = n := by
  intro hall
  let s := draftStep (some ⟨"titles", "title"⟩)
  let params : RunParams := { stack := ["draft_covers"] }
  have hentries : (coversEngine.runStep coversEngine.run draftCovers s coversMemory
      (params.forStep s)).entries = [("cover", { stack := ["draft_covers", "cover"] })] := by
    decide +kernel
  have hmade : outputMultiplicity cover { stack := ["draft_covers", "cover"] } = .fixed 2 :=
    hall coversEngine draftCovers cover _ s (draftDeclaration (some "titles") (some "title"))
      coversMemory params (.fixed 2) covers_loaded (by unfold Registered; decide)
      List.mem_cons_self (eq_ok_of_toOption (by decide)) (by decide) rfl rfl _
      (hentries ▸ List.mem_cons_self)
  cases hmade

/-- The step that is run once has the operator make two covers. -/
theorem run_served_draftCover :
    covers.Keyed ∧ covers.Registered draftCover ∧ draftCover.kind.steps ≠ [] ∧
      coversEngine.EntersSteps draftCover { stack := ["draft_cover"] } [draftStep none]
        (coversEngine.run "draft_cover" coversMemory {} none).entries.tail ∧
      coversEngine.Serves draftCover cover (.imgGen (some "${{ title }}")) (draftStep none)
        { stack := ["draft_cover"] } coversMemory ∧
      outputMultiplicity cover
        { stack := ["draft_cover", "cover"], multiplicity := some (.fixed 2) } = .fixed 2 := by
  have hk : covers.Keyed := covers_loaded.settled.linked.keyed
  have hp : covers.Registered draftCover := by
    unfold Registered
    decide
  have hsteps : draftCover.kind.steps ≠ [] := List.cons_ne_nil _ _
  obtain ⟨henters, hserves⟩ := run_served coversEngine draftCover coversMemory {} none hk hp hsteps
  obtain ⟨_, hserved⟩ := hserves (draftStep none) List.mem_cons_self (draftDeclaration none none)
    cover _ coversMemory (eq_ok_of_toOption (by decide)) (by decide) rfl
  exact ⟨hk, hp, hsteps, henters, hserved, hserved.multiplicity⟩

end Engine

end Conduit
