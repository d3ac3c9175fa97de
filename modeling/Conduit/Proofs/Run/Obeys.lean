import Conduit.Proofs.Run.Congruence
import Conduit.Proofs.Run.Finds

/-!
# What runs leave

`Run.Obeys` says of a run what every mark in its trace satisfies and what its error satisfies.
`Engine.dispatch_obeys` is the account of one pipe: a pipe leaves its own marks, made with its own
parameters (`Engine.Admits`), and the marks of the pipes that it runs, and it fails for a cause of
its own (`Engine.Own`) or with the error of one of those. It runs no pipes but those that it names
(`Library.Runs`). The walk over operators and controllers is made here once; a statement about
traces or errors has to say what the marks of one pipe satisfy, and then follows by induction over
the levels of a run.
-/

namespace Conduit

/-- The number of pipes that are running when observers are told something. -/
def Event.layer : Event → Nat
  | pipeStep _ layer _ _ | batchStep _ layer _ _ | aggregateStep _ layer _ _
  | conditionStep _ layer _ _ | choiceStep _ layer _ _ => layer

namespace Run

variable {α β : Type}

/-- Every mark of a run satisfies `mark`, and its error, if it has one, satisfies `error`. -/
structure Obeys (r : Run α) (mark : Mark → Prop) (error : RunError → Prop) : Prop where
  leaves : r.Leaves mark
  fails : ∀ e, r.result = .error e → error e

section

variable {mark : Mark → Prop} {error : RunError → Prop} {r : Run α} {f : α → Run β}

theorem obeys_pure {a : α} : Obeys (Pure.pure a : Run α) mark error :=
  ⟨leaves_pure, fun _ h => by cases h⟩

theorem obeys_fail {c : RunCause} (h : error { cause := c }) :
    Obeys (fail c : Run α) mark error := by
  refine ⟨leaves_fail, ?_⟩
  intro e he
  cases he
  exact h

theorem obeys_mark {m : Mark} (h : mark m) : (Run.mark m).Obeys mark error :=
  ⟨leaves_mark h, fun _ h => by cases h⟩

/-- A run that goes on from a result of another. -/
theorem Obeys.bind_of_ok (hr : r.Obeys mark error)
    (hf : ∀ a, r.result = .ok a → (f a).Obeys mark error) : Obeys (r >>= f) mark error := by
  change Obeys (Run.bind r f) mark error
  unfold Run.bind
  cases h : r.result with
  | error e =>
    refine ⟨hr.leaves, ?_⟩
    intro e' he'
    cases he'
    exact hr.fails e h
  | ok a =>
    refine ⟨?_, (hf a h).fails⟩
    intro x hx
    rcases List.mem_append.1 hx with hx | hx
    · exact hr.leaves x hx
    · exact (hf a h).leaves x hx

/-- A run that goes on after another. -/
theorem Obeys.bind (hr : r.Obeys mark error) (hf : ∀ a, (f a).Obeys mark error) :
    Obeys (r >>= f) mark error :=
  hr.bind_of_ok fun a _ => hf a

/-- What a run obeys it obeys with weaker conditions. -/
theorem Obeys.imp {mark' : Mark → Prop} {error' : RunError → Prop} (h : r.Obeys mark error)
    (hmark : ∀ x, mark x → mark' x) (herror : ∀ e, error e → error' e) : r.Obeys mark' error' :=
  ⟨fun x hx => hmark x (h.leaves x hx), fun e he => herror e (h.fails e he)⟩

/-- A place is added to the error of a run. -/
theorem Obeys.located {place : Place} {error' : RunError → Prop} (h : r.Obeys mark error)
    (herror : ∀ e, error e → error' (e.locate place)) : (r.located place).Obeys mark error' := by
  refine ⟨h.leaves.located, ?_⟩
  intro e he
  change r.result.mapError (·.locate place) = .error e at he
  obtain ⟨e', he', rfl⟩ := mapError_eq_error_iff.1 he
  exact herror e' (h.fails e' he')

/-- The answer of a generator, for whose request a run leaves a mark if it is live. -/
theorem obeys_ask {pipe : String} {dry : Bool} {request : Request} {reply : Reply α}
    (hmark : dry = false → mark (.request request))
    (herror : ∀ err, error { cause := .backend pipe err }) :
    (ask pipe dry request reply).Obeys mark error := by
  refine ⟨?_, ?_⟩
  · intro x hx
    cases dry with
    | true => exact absurd hx List.not_mem_nil
    | false =>
      rw [List.mem_singleton.1 hx]
      exact hmark rfl
  · intro e he
    obtain ⟨e', _, rfl⟩ := mapError_eq_error_iff.1 he
    exact herror _

theorem obeys_forM {γ : Type} {g : γ → Run Unit} {is : List γ}
    (h : ∀ i ∈ is, (g i).Obeys mark error) : Obeys (is.forM g) mark error := by
  induction is with
  | nil => exact obeys_pure
  | cons i is ih =>
    refine .bind (h i List.mem_cons_self) fun _ => ?_
    exact ih fun j hj => h j (List.mem_cons_of_mem i hj)

/-- Branches leave together what each of them leaves, and fail as one of them does. -/
theorem obeys_join {s : Schedule} {pipe : String} {branches : List (Run Memory)}
    (h : ∀ r ∈ branches, r.Obeys mark error) : (join s pipe branches).Obeys mark error := by
  refine ⟨leaves_join fun r hr => (h r hr).leaves, ?_⟩
  intro e he
  obtain ⟨r, hr, hre⟩ := exists_of_join_error he
  exact (h r hr).fails e hre

end

end Run

/-- The codes of the pipes that a pipe may run: those that it names and, for it runs what it finds
under a name for each item of a list, the codes of the pipes that are found under these. -/
def Library.Runs (l : Library) (p : Pipe) (code : String) : Prop :=
  ∃ named ∈ p.subPipes, code = named ∨ ∃ target, l.pipes.get? named = some target ∧
    code = target.code

namespace Engine

variable {e : Engine} {p : Pipe} {m : Memory} {params : RunParams} {name : Option String}

/-- The pipe that a step runs for each item of a list is found under the name in the step. -/
theorem batchTarget_ok {s : Step} {target : Pipe} (h : e.batchTarget p s = .ok target) :
    e.library.pipes.get? s.pipe = some target :=
  Library.pipe_eq_ok_iff.1 (mapError_eq_ok_iff.1 h)

/-- The causes for which a pipe may fail itself. It misses a pipe only if it names one that is not
there. -/
def Own (e : Engine) (p : Pipe) (c : RunCause) : Prop :=
  c.missesPipe = true → ∃ code ∈ p.subPipes, e.library.pipes.get? code = none

/-- What a pipe may do itself when it runs with parameters that fit: leave marks that are made with
them, and fail for a cause of its own that has no place yet. The parameters of the pipes that it
runs fit as well. -/
structure Admits (own : RunCause → Prop) (fits : RunParams → Prop) (mark : Mark → Prop)
    (error : RunError → Prop) : Prop extends HandedOn fits where
  entered : ∀ params pipe, fits params → mark (.entered pipe params)
  event : ∀ params event, fits params → event.layer = params.layer → mark (.event event)
  request : ∀ params request, fits params → params.dry = false → mark (.request request)
  call : ∀ params function, fits params → params.dry = false → mark (.call function)
  cause : ∀ c, own c → error { cause := c }

/-- Every run of some pipes by a runner, with parameters that fit, obeys. -/
def Follows (codes : String → Prop) (fits : RunParams → Prop) (mark : Mark → Prop)
    (error : RunError → Prop) (run : Runner) : Prop :=
  ∀ code m params name, codes code → fits params → (run code m params name).Obeys mark error

variable {fits : RunParams → Prop} {mark : Mark → Prop} {error : RunError → Prop} {run : Runner}
  {α : Type}

theorem Admits.fail (h : Admits (e.Own p) fits mark error) {c : RunCause}
    (hc : c.missesPipe = false) : (Run.fail c : Run α).Obeys mark error :=
  Run.obeys_fail (h.cause c fun hmisses => absurd hmisses (Bool.eq_false_iff.1 hc))

theorem Admits.ofExcept (h : Admits (e.Own p) fits mark error) {x : Except RunCause α}
    (hx : Finds x) : (Run.ofExcept x).Obeys mark error := by
  cases x with
  | ok a => exact Run.obeys_pure
  | error c => exact h.fail (hx c rfl)

theorem Admits.emit (h : Admits (e.Own p) fits mark error) (hp : fits params) {event : Event}
    (hlayer : event.layer = params.layer) : (Run.emit event).Obeys mark error :=
  Run.obeys_mark (h.event params event hp hlayer)

theorem Admits.ask (h : Admits (e.Own p) fits mark error) (hp : fits params) {pipe : String}
    {request : Request} {reply : Reply α} :
    (Run.ask pipe params.dry request reply).Obeys mark error :=
  Run.obeys_ask (h.request params request hp) fun _ => h.cause _ nofun

/-! ## Operators -/

theorem makeContent_obeys (h : Admits (e.Own p) fits mark error) (hp : fits params) (c : Concept)
    (op : Operator) : (e.makeContent p m params c op).Obeys mark error := by
  cases op with
  | llm user system =>
    refine .bind (h.ofExcept prompt_finds) fun prompt => ?_
    dsimp only
    split
    · split
      · exact .bind (h.ask hp) fun _ => Run.obeys_pure
      · exact .bind (h.ask hp) fun _ => h.ofExcept (finds_mapError fun _ => rfl)
    · refine .bind (h.ask hp) fun _ => .bind (h.ofExcept checkCount_finds) fun _ => ?_
      exact .bind (h.ofExcept (finds_mapError fun _ => rfl)) fun _ => Run.obeys_pure
  | imgGen source =>
    refine .bind (h.ofExcept imagePrompt_finds) fun prompt => .bind (h.ask hp) fun _ => ?_
    refine .bind (h.ofExcept checkCount_finds) fun _ => ?_
    split
    · exact h.ofExcept first_finds.map
    · exact Run.obeys_pure
  | extract views =>
    refine .bind (h.ofExcept singleInput_finds) fun _ => ?_
    refine .bind (h.ofExcept documentOf_finds) fun _ => .bind (h.ask hp) fun _ => ?_
    split
    · exact h.ofExcept first_finds.map
    · exact Run.obeys_pure
  | func function =>
    simp only [makeContent, runFunc]
    split
    · exact h.ofExcept (finds_mapError fun _ => rfl)
    · next hlive =>
      split
      · exact h.fail rfl
      · refine .bind (Run.obeys_mark ?_) fun _ => h.ofExcept (finds_mapError fun _ => rfl)
        exact h.call params function hp (Bool.eq_false_iff.2 hlive)
  | compose source => exact h.ofExcept rendered_finds.map

theorem runOperator_obeys (h : Admits (e.Own p) fits mark error) (hp : fits params)
    (op : Operator) : (e.runOperator p op m params name).Obeys mark error := by
  refine .bind (h.ofExcept outputConcept_finds) fun c => ?_
  refine .bind (makeContent_obeys h hp c op) fun _ => ?_
  refine .bind (h.ofExcept stored_finds) fun _ => ?_
  exact .bind (h.emit hp rfl) fun _ => Run.obeys_pure

/-! ## Controllers -/

/-- The pipe that a step runs for each item of a list is missed only if it is not there. -/
theorem own_of_batchTarget {s : Step} {c : RunCause} (hs : s.pipe ∈ p.subPipes)
    (h : e.batchTarget p s = .error c) : e.Own p c := by
  obtain ⟨_, herr, _⟩ := mapError_eq_error_iff.1 h
  exact fun _ => ⟨s.pipe, hs, (Library.pipe_eq_error_iff.1 herr).1⟩

theorem batchTarget_obeys (h : Admits (e.Own p) fits mark error) {s : Step}
    (hs : s.pipe ∈ p.subPipes) : (Run.ofExcept (e.batchTarget p s)).Obeys mark error := by
  cases htarget : e.batchTarget p s with
  | ok target => exact Run.obeys_pure
  | error c => exact Run.obeys_fail (h.cause c (own_of_batchTarget hs htarget))

theorem checkTargets_obeys (h : Admits (e.Own p) fits mark error) {branches : List Step}
    (hbranches : ∀ s ∈ branches, s.pipe ∈ p.subPipes) :
    (Run.ofExcept (e.checkTargets p branches)).Obeys mark error := by
  cases hcheck : e.checkTargets p branches with
  | ok => exact Run.obeys_pure
  | error c =>
    obtain ⟨s, hs, hfails⟩ := exists_of_forM_error hcheck
    split at hfails
    · have hown := own_of_batchTarget (hbranches s hs) (map_eq_error_iff.1 hfails)
      exact Run.obeys_fail (h.cause c hown)
    · cases hfails

section

variable (h : Admits (e.Own p) fits mark error)
  (hrun : Follows (e.library.Runs p) fits mark error run) (hp : fits params)
include h hrun hp

theorem runBatch_obeys (owner branch : String) (hbranch : e.library.Runs p branch) (b : Batching)
    (output : Concept) : (e.runBatch run owner branch b output m params name).Obeys mark error := by
  refine .bind (h.ofExcept batchItems_finds) fun ⟨c, items⟩ => ?_
  refine .bind (Run.obeys_forM fun i _ => h.emit hp rfl) fun _ => ?_
  refine .bind (Run.obeys_join fun r hr => ?_) fun _ => ?_
  · obtain ⟨item, _, rfl⟩ := List.mem_map.1 hr
    exact hrun _ _ _ _ hbranch (h.nested params hp)
  · refine .bind (h.ofExcept (finds_mapError fun _ => rfl)) fun _ => ?_
    refine .bind (h.ofExcept stored_finds) fun _ => ?_
    exact .bind (h.emit hp rfl) fun _ => Run.obeys_pure

theorem runStep_obeys (s : Step) (hs : s.pipe ∈ p.subPipes) :
    (e.runStep run p s m params).Obeys mark error := by
  unfold runStep
  cases s.batching with
  | none => exact hrun _ _ _ _ ⟨s.pipe, hs, .inl rfl⟩ hp
  | some b =>
    refine .bind_of_ok (batchTarget_obeys h hs) fun target htarget => ?_
    have hfound : e.library.Runs p target.code :=
      ⟨s.pipe, hs, .inr ⟨target, batchTarget_ok (Run.eq_ok_of_ofExcept htarget), rfl⟩⟩
    exact runBatch_obeys h hrun hp _ _ hfound _ _

theorem runSteps_obeys (steps : List Step) (hs : ∀ s ∈ steps, s.pipe ∈ p.subPipes) (m : Memory) :
    (e.runSteps run p params m steps).Obeys mark error := by
  induction steps generalizing m with
  | nil => exact Run.obeys_pure
  | cons s rest ih =>
    rw [List.forall_mem_cons] at hs
    exact (runStep_obeys h hrun (h.forStep params s hp) s hs.1).bind (ih hs.2)

theorem runParallel_obeys (q : Parallel) (hq : ∀ s ∈ q.branches, s.pipe ∈ p.subPipes) :
    (e.runParallel run p q m params name).Obeys mark error := by
  refine .bind (checkTargets_obeys h hq) fun _ => .bind (Run.obeys_join fun r hr => ?_) fun _ => ?_
  · obtain ⟨s, hs, rfl⟩ := List.mem_map.1 hr
    exact runStep_obeys h hrun (h.forStep params s hp) s (hq s hs)
  · refine .bind (h.ofExcept (finds_mapError fun _ => rfl)) fun _ => ?_
    refine .bind (h.ofExcept storeResults_finds) fun _ => ?_
    split
    · exact h.ofExcept storeAs_finds
    · refine .bind (h.ofExcept (finds_mapError fun _ => rfl)) fun _ => ?_
      refine .bind (h.ofExcept stored_finds) fun _ => ?_
      exact .bind (h.emit hp rfl) fun _ => Run.obeys_pure

theorem exploreEach_obeys (codes : List String) (hcodes : ∀ code ∈ codes, code ∈ p.subPipes) :
    (exploreEach run m params name codes).Obeys mark error := by
  induction codes with
  | nil => exact Run.obeys_pure
  | cons code rest ih =>
    rw [List.forall_mem_cons] at hcodes
    unfold exploreEach
    split
    · exact ih hcodes.2
    · refine .bind (hrun _ _ _ _ ⟨code, hcodes.1, .inl rfl⟩ (h.nested params hp)) fun _ => ?_
      exact (ih hcodes.2).bind fun _ => Run.obeys_pure

theorem follow_obeys (text : String) (outcome : Outcome)
    (houtcome : ∀ code, outcome = .run code → code ∈ p.subPipes) :
    (follow run p text m params name outcome).Obeys mark error := by
  cases outcome with
  | keep => exact Run.obeys_pure
  | fail => exact h.fail rfl
  | run code => exact hrun _ _ _ _ ⟨code, houtcome code rfl, .inl rfl⟩ (h.nested params hp)

theorem runCondition_obeys (c : Condition) (hc : ∀ code ∈ c.pipes, code ∈ p.subPipes) :
    (runCondition run p c m params name).Obeys mark error := by
  refine .bind (h.ofExcept (finds_mapError fun _ => rfl)) fun _ => ?_
  refine .bind (h.ofExcept aliased_finds) fun _ => ?_
  refine .bind (h.emit hp rfl) fun _ => .bind (h.emit hp rfl) fun _ => ?_
  split
  · exact (exploreEach_obeys h hrun hp _ hc).bind fun _ => Run.obeys_pure
  · refine follow_obeys h hrun hp _ _ ?_
    intro code hcode
    exact hc code (Condition.mem_pipes_of_outcome hcode)

/-- One pipe obeys, if the pipes that it runs do. -/
theorem dispatch_obeys : (e.dispatch run p m params name).Obeys mark error := by
  refine .bind (Run.obeys_mark (h.entered params p.code hp)) fun _ => ?_
  refine .bind (h.ofExcept checkInputs_finds) fun _ => ?_
  cases hkind : p.kind with
  | sequence steps =>
    have hsteps : ∀ s ∈ steps, s.pipe ∈ p.subPipes := fun _ => Pipe.mem_subPipes_of_step hkind
    refine .bind (runSteps_obeys h hrun hp steps hsteps m) fun _ => ?_
    exact .bind (h.ofExcept checkOutput_finds) fun _ => h.ofExcept storeAs_finds
  | parallel q =>
    exact runParallel_obeys h hrun hp q fun _ => Pipe.mem_subPipes_of_branch hkind
  | condition c =>
    exact runCondition_obeys h hrun hp c fun _ => Pipe.mem_subPipes_of_outcome hkind
  | batch branch b =>
    have hbranch := Pipe.mem_subPipes_of_batch hkind
    exact runBatch_obeys h hrun hp _ _ ⟨branch, hbranch, .inl rfl⟩ _ _
  | operator op => exact runOperator_obeys h hp op

end

end Engine

end Conduit
