import Conduit.Proofs.Library.Leaves
import Conduit.Proofs.Run.Ends

/-!
# Dry runs are live runs against placeholders

Apart from conditions and registered functions, a dry run differs from a live one in nothing but the
generator that it asks: `Engine.run_stubbed` compares the dry runs of an engine with the live runs
of the same engine after the generator of dry runs has taken the place of its own
(`Engine.stubbed`). A condition is excluded because a dry run explores where a live one chooses, and
a function because a dry run does not call it.

The two runs leave different traces, since dry requests leave no mark. `Run.dried` takes a trace to
the one of a dry run and leaves the rest of a run as it is. It goes through every way to put runs
together, so the comparison is an equation per controller (`SameDried`). The orders in which
branches end may be different functions in the two engines, for branches with different traces are
different: `Schedule.Matches` says that they end branches alike.
-/

namespace Conduit

variable {α β : Type}

/-- The same parameters for a dry run. -/
def RunParams.asDry (params : RunParams) : RunParams :=
  { params with dry := true }

/-- A mark as a dry run leaves it, if it leaves it at all. -/
def Mark.dried? : Mark → Option Mark
  | entered pipe params => some (entered pipe params.asDry)
  | event e => some (event e)
  | request _ => none
  | call function => some (call function)

/-- A run that leaves its trace as a dry run does; it ends in the same way and takes the same
time. -/
def Run.dried (r : Run α) : Run α :=
  { r with trace := r.trace.filterMap Mark.dried? }

/-- The second schedule ends the branches of dry runs in the order in which the first ends those of
live ones. -/
def Schedule.Matches (s s' : Schedule) : Prop :=
  ∀ branches : List (Run Memory),
    (s.order branches.zipIdx).map Prod.snd =
      (s'.order (branches.map Run.dried).zipIdx).map Prod.snd

namespace Run

/-! ## Runs put together -/

section Dried

variable {r : Run α} {f : α → Run β}

@[simp] theorem result_dried : r.dried.result = r.result := rfl

@[simp] theorem elapsed_dried : r.dried.elapsed = r.elapsed := rfl

theorem dried_pure (a : α) : (Pure.pure a : Run α).dried = Pure.pure a := rfl

/-- A run that goes on after another. -/
theorem dried_bind {r' : Run α} {f' : α → Run β} (hr : r.dried = r')
    (hf : ∀ a, (f a).dried = f' a) : Run.dried (r >>= f) = r' >>= f' := by
  rw [← hr, ← funext hf]
  change (Run.bind r f).dried = Run.bind r.dried fun a => (f a).dried
  unfold Run.bind
  rw [result_dried]
  cases r.result with
  | error e => rfl
  | ok a => simp only [dried, List.filterMap_append]

theorem dried_lift (x : Except RunCause α) : (liftM x : Run α).dried = liftM x := by
  cases x <;> rfl

/-- A run that goes on after a result that is known. -/
theorem dried_lift_bind {x : Except RunCause α} {f' : α → Run β}
    (hf : ∀ a, x = .ok a → (f a).dried = f' a) :
    Run.dried (liftM x >>= f) = liftM x >>= f' := by
  rw [dried_bind (dried_lift x) fun _ => rfl]
  cases x with
  | error cause => rfl
  | ok a =>
    change Run.bind (.pure a) (fun a => (f a).dried) = Run.bind (.pure a) f'
    simp only [Run.bind, Run.pure, hf a rfl]

theorem dried_emit (e : Event) : (emit e).dried = emit e := rfl

theorem dried_ask {pipe : String} {dry : Bool} {request : Request} {reply : Reply α} :
    (ask pipe dry request reply).dried = ask pipe true request reply := by
  cases dry <;> rfl

theorem dried_forM {γ : Type} {g : γ → Run Unit} (hg : ∀ i, (g i).dried = g i) (is : List γ) :
    Run.dried (is.forM g) = is.forM g := by
  induction is with
  | nil => rfl
  | cons i is ih => exact dried_bind (hg i) fun _ => ih

end Dried

/-! ## Runs side by side -/

section Join

variable {s s' : Schedule} {branches : List (Run Memory)}

/-- The indices of the branches that have ended are their places. -/
theorem map_order_zipIdx (s : Schedule) (branches : List (Run Memory)) :
    (s.order branches.zipIdx).map (fun b => (some b.1, b.2)) =
      ((s.order branches.zipIdx).map Prod.snd).map fun i => (branches[i]?, i) := by
  rw [List.map_map]
  refine List.map_congr_left fun ⟨b, i⟩ hb => ?_
  have hget : branches[i]? = some b :=
    List.mem_zipIdx_iff_getElem?.1 ((s.perm _).mem_iff.1 hb)
  simp only [Function.comp_apply, hget]

/-- Matching schedules end the same branches in the same order. -/
theorem order_dried (hs : s.Matches s') :
    s'.order (branches.map dried).zipIdx =
      (s.order branches.zipIdx).map fun b => (b.1.dried, b.2) := by
  have hinj : Function.Injective fun b : Run Memory × Nat => (some b.1, b.2) := by
    rintro ⟨b, i⟩ ⟨c, j⟩ h
    simp only [Prod.mk.injEq, Option.some.injEq] at h
    rw [h.1, h.2]
  refine hinj.list_map ?_
  have horder := map_order_zipIdx s branches
  calc (s'.order (branches.map dried).zipIdx).map (fun b => (some b.1, b.2))
      = ((s.order branches.zipIdx).map Prod.snd).map fun i => ((branches.map dried)[i]?, i) := by
        rw [map_order_zipIdx, ← hs branches]
    _ = (((s.order branches.zipIdx).map Prod.snd).map fun i => (branches[i]?, i)).map
          fun b => (b.1.map dried, b.2) := by
        simp only [List.map_map, List.getElem?_map, Function.comp_def]
    _ = ((s.order branches.zipIdx).map fun b => (b.1.dried, b.2)).map
          fun b => (some b.1, b.2) := by
        rw [← horder]
        simp only [List.map_map, Function.comp_def, Option.map_some]

/-- A pipe waits for its branches for the same time, whatever marks they leave. -/
theorem wait_dried (woken : Option Time) (rs : List (Run α)) :
    wait woken (rs.map dried) = wait woken rs := by
  induction rs generalizing woken with
  | nil => rfl
  | cons r rs ih =>
    have hended : r.dried.ended = r.ended := rfl
    have hfailed : r.dried.failed = r.failed := rfl
    simp only [List.map_cons, wait, hended, hfailed, ih]

/-- Branches that run side by side. -/
theorem dried_join (hs : s.Matches s') {pipe : String} :
    (join s pipe branches).dried = join s' pipe (branches.map dried) := by
  have hresult : (join s' pipe (branches.map dried)).result = (join s pipe branches).result := by
    simp only [join, order_dried hs, List.map_map, List.length_map]
    rfl
  have hwait : wait none ((s'.order (branches.map dried).zipIdx).map Prod.fst) =
      wait none ((s.order branches.zipIdx).map Prod.fst) := by
    rw [← wait_dried none ((s.order branches.zipIdx).map Prod.fst), order_dried hs, List.map_map,
      List.map_map]
    rfl
  have htrace : (branches.map dried).flatMap Run.trace =
      (branches.flatMap Run.trace).filterMap Mark.dried? := by
    rw [List.flatMap_map, List.filterMap_flatMap]
    rfl
  change Run.mk (join s pipe branches).result ((branches.flatMap Run.trace).filterMap Mark.dried?)
      (wait none ((s.order branches.zipIdx).map Prod.fst)) =
    ⟨(join s' pipe (branches.map dried)).result, (branches.map dried).flatMap Run.trace,
      wait none ((s'.order (branches.map dried).zipIdx).map Prod.fst)⟩
  rw [hresult, hwait, htrace]

end Join

end Run

/-- Branches that end in the order of the time that they take do so whatever marks they leave. -/
theorem Schedule.byTime_matches : Schedule.byTime.Matches Schedule.byTime := by
  intro branches
  have hzip : (branches.map Run.dried).zipIdx =
      branches.zipIdx.map fun b => (b.1.dried, b.2) := by
    rw [List.zipIdx_map]
    rfl
  have hsort : Schedule.byTime.order (branches.map Run.dried).zipIdx =
      (Schedule.byTime.order branches.zipIdx).map fun b => (b.1.dried, b.2) := by
    rw [hzip]
    unfold Schedule.byTime
    exact (List.map_mergeSort (f := fun b : Run Memory × Nat => (b.1.dried, b.2))
      fun _ _ _ _ => rfl).symm
  rw [hsort, List.map_map]
  rfl

namespace Library

variable {l : Library} {p q : Pipe}

/-- Neither a condition nor a function can be reached from a pipe. -/
def Plain (l : Library) (p : Pipe) : Prop :=
  ∀ q, l.Reaches p q → (∀ c, q.kind ≠ .condition c) ∧ ∀ function, q.kind ≠ .operator (.func function)

/-- The pipe of a code, if there is one, is plain. -/
def PlainAt (l : Library) (code : String) : Prop :=
  ∀ p, l.pipes.get? code = some p → l.Plain p

/-- What a plain pipe leads to is plain. -/
theorem Plain.leads (h : l.Plain p) (hq : l.Leads p q) : l.Plain q :=
  fun a ha => h a (.head hq ha)

end Library

namespace Engine

variable {e : Engine} {s : Schedule} {run run' : Runner} {p : Pipe} {m : Memory}
  {params : RunParams} {name : Option String}

/-- The engine that asks the generator of dry runs even when it runs live, and whose branches end as
a schedule says. -/
def stubbed (e : Engine) (s : Schedule) : Engine :=
  { e with generator := .dryRun e.library.registry e.config.listSize, schedule := s }

/-! ## Operators -/

/-- All requests of a stubbed engine go to the generator of dry runs. -/
theorem generatorFor_stubbed (dry : Bool) :
    (e.stubbed s).generatorFor dry = e.generatorFor true := by
  cases dry <;> rfl

theorem outputMultiplicity_asDry : outputMultiplicity p params.asDry = outputMultiplicity p params :=
  rfl

/-- What an operator that calls no function makes. -/
theorem makeContent_stubbed {op : Operator} (hop : ∀ function, op ≠ .func function) (c : Concept) :
    ((e.stubbed s).makeContent p m params c op).dried =
      e.makeContent p m params.asDry c op := by
  cases op with
  | llm user system =>
    simp only [makeContent, runLlm, generatorFor_stubbed, outputMultiplicity_asDry]
    refine Run.dried_bind (Run.dried_lift _) fun prompt => ?_
    split
    · split
      · exact Run.dried_bind Run.dried_ask fun _ => Run.dried_pure _
      · exact Run.dried_bind Run.dried_ask fun _ => Run.dried_lift _
    · refine Run.dried_bind Run.dried_ask fun vs => ?_
      exact Run.dried_bind (Run.dried_lift _) fun _ =>
        Run.dried_bind (Run.dried_lift _) fun _ => Run.dried_pure _
  | imgGen source =>
    simp only [makeContent, runImgGen, generatorFor_stubbed, outputMultiplicity_asDry]
    refine Run.dried_bind (Run.dried_lift _) fun prompt => ?_
    refine Run.dried_bind Run.dried_ask fun images => ?_
    refine Run.dried_bind (Run.dried_lift _) fun _ => ?_
    split
    · exact Run.dried_lift _
    · exact Run.dried_pure _
  | extract views =>
    simp only [makeContent, runExtract, generatorFor_stubbed, outputMultiplicity_asDry]
    refine Run.dried_bind (Run.dried_lift _) fun input => ?_
    refine Run.dried_bind (Run.dried_lift _) fun document => ?_
    refine Run.dried_bind Run.dried_ask fun pages => ?_
    split
    · exact Run.dried_lift _
    · exact Run.dried_pure _
  | func function => exact absurd rfl (hop function)
  | compose source => exact Run.dried_lift _

theorem outputConcept_stubbed :
    (e.stubbed s).outputConcept p params = e.outputConcept p params.asDry := by
  have hlibrary : (e.stubbed s).library = e.library := rfl
  have hdynamic : params.asDry.dynamic = params.dynamic := rfl
  simp only [outputConcept, hlibrary, hdynamic]

theorem runOperator_stubbed {op : Operator} (hop : ∀ function, op ≠ .func function) :
    ((e.stubbed s).runOperator p op m params name).dried =
      e.runOperator p op m params.asDry name := by
  unfold runOperator
  rw [outputConcept_stubbed]
  refine Run.dried_bind (Run.dried_lift _) fun c => ?_
  refine Run.dried_bind (makeContent_stubbed hop c) fun content => ?_
  refine Run.dried_bind (Run.dried_lift _) fun stored => ?_
  exact Run.dried_bind (Run.dried_emit _) fun _ => Run.dried_pure _

/-! ## Controllers -/

/-- The runs of plain pipes by the first runner are the dry runs by the second. -/
def SameDried (l : Library) (run run' : Runner) : Prop :=
  ∀ code m params name, l.PlainAt code →
    (run code m params name).dried = run' code m params.asDry name

theorem runBatch_stubbed (hs : s.Matches e.schedule) (hrun : SameDried e.library run run')
    {branch : String} (hbranch : e.library.PlainAt branch) (owner : String) (b : Batching)
    (output : Concept) : ((e.stubbed s).runBatch run owner branch b output m params name).dried =
      e.runBatch run' owner branch b output m params.asDry name := by
  have hitem : ∀ m, (run branch m params.nested none).dried =
      run' branch m params.asDry.nested none := fun m => hrun branch m params.nested none hbranch
  refine Run.dried_bind (Run.dried_lift _) fun ⟨c, items⟩ => ?_
  refine Run.dried_bind (Run.dried_forM (fun _ => Run.dried_emit _) _) fun _ => ?_
  refine Run.dried_bind ((Run.dried_join hs).trans ?_) fun memories => ?_
  · simp only [List.map_map, Function.comp_def, hitem]
  refine Run.dried_bind (Run.dried_lift _) fun contents => ?_
  refine Run.dried_bind (Run.dried_lift _) fun stored => ?_
  exact Run.dried_bind (Run.dried_emit _) fun _ => Run.dried_pure _

theorem runStep_stubbed (hk : e.library.Keyed) (hs : s.Matches e.schedule)
    (hrun : SameDried e.library run run') {step : Step} (hstep : e.library.PlainAt step.pipe) :
    ((e.stubbed s).runStep run p step m params).dried =
      e.runStep run' p step m params.asDry := by
  unfold runStep
  cases step.batching with
  | none => exact hrun _ _ _ _ hstep
  | some b =>
    refine Run.dried_lift_bind fun target htarget => ?_
    have hcode : target.code = step.pipe :=
      hk _ _ (Library.pipe_eq_ok_iff.1 (mapError_eq_ok_iff.1 htarget))
    exact runBatch_stubbed hs hrun (by rw [hcode]; exact hstep) _ _ _

theorem runSteps_stubbed (hk : e.library.Keyed) (hs : s.Matches e.schedule)
    (hrun : SameDried e.library run run') {steps : List Step}
    (hsteps : ∀ step ∈ steps, e.library.PlainAt step.pipe) (m : Memory) :
    ((e.stubbed s).runSteps run p params m steps).dried =
      e.runSteps run' p params.asDry m steps := by
  induction steps generalizing m with
  | nil => rfl
  | cons step rest ih =>
    rw [List.forall_mem_cons] at hsteps
    have hstep : ((e.stubbed s).runStep run p step m (params.forStep step)).dried =
        e.runStep run' p step m (params.asDry.forStep step) := runStep_stubbed hk hs hrun hsteps.1
    exact Run.dried_bind hstep (ih hsteps.2)

theorem runSequence_stubbed (hk : e.library.Keyed) (hs : s.Matches e.schedule)
    (hrun : SameDried e.library run run') {steps : List Step}
    (hsteps : ∀ step ∈ steps, e.library.PlainAt step.pipe) :
    ((e.stubbed s).runSequence run p steps m params name).dried =
      e.runSequence run' p steps m params.asDry name := by
  refine Run.dried_bind (runSteps_stubbed hk hs hrun hsteps m) fun m => ?_
  exact Run.dried_bind (Run.dried_lift _) fun _ => Run.dried_lift _

theorem runParallel_stubbed (hk : e.library.Keyed) (hs : s.Matches e.schedule)
    (hrun : SameDried e.library run run') {q : Parallel}
    (hbranches : ∀ step ∈ q.branches, e.library.PlainAt step.pipe) :
    ((e.stubbed s).runParallel run p q m params name).dried =
      e.runParallel run' p q m params.asDry name := by
  have hbranch : ∀ step ∈ q.branches,
      ((e.stubbed s).runStep run p step m (params.forStep step)).dried =
        e.runStep run' p step m (params.asDry.forStep step) :=
    fun step hstep => runStep_stubbed hk hs hrun (hbranches step hstep)
  refine Run.dried_bind (Run.dried_lift _) fun _ => ?_
  refine Run.dried_bind ((Run.dried_join hs).trans ?_) fun memories => ?_
  · rw [List.map_map]
    exact congrArg _ (List.map_congr_left hbranch)
  refine Run.dried_bind (Run.dried_lift _) fun results => ?_
  refine Run.dried_bind (Run.dried_lift _) fun m' => ?_
  split
  · exact Run.dried_lift _
  · refine Run.dried_bind (Run.dried_lift _) fun content => ?_
    refine Run.dried_bind (Run.dried_lift _) fun stored => ?_
    exact Run.dried_bind (Run.dried_emit _) fun _ => Run.dried_pure _

/-! ## All runs -/

/-- A plain pipe runs live as it runs dry, if that is so of the plain pipes that it runs. -/
theorem dispatch_stubbed (hk : e.library.Keyed) (hs : s.Matches e.schedule)
    (hrun : SameDried e.library run run') (hp : e.library.Plain p) :
    ((e.stubbed s).dispatch run p m params name).dried =
      e.dispatch run' p m params.asDry name := by
  obtain ⟨hcondition, hfunction⟩ := hp p .refl
  refine Run.dried_bind rfl fun _ => Run.dried_bind (Run.dried_lift _) fun _ => ?_
  cases hkind : p.kind with
  | sequence steps =>
    exact runSequence_stubbed hk hs hrun fun step hstep q hq =>
      hp.leads (Library.leads_of_step hkind hstep hq)
  | parallel b =>
    exact runParallel_stubbed hk hs hrun fun step hstep q hq =>
      hp.leads (Library.leads_of_branch hkind hstep hq)
  | condition c => exact absurd hkind (hcondition c)
  | batch branch b =>
    exact runBatch_stubbed hs hrun (fun q hq => hp.leads (Library.leads_of_batch hkind hq)) _ _ _
  | operator op =>
    exact runOperator_stubbed fun function hop => hfunction function (hkind.trans (by rw [hop]))

/-- Plain pipes run live as they run dry, at every depth. -/
theorem runWithin_stubbed (hk : e.library.Keyed) (hs : s.Matches e.schedule) (levels : Nat) :
    SameDried e.library ((e.stubbed s).runWithin levels) (e.runWithin levels) := by
  induction levels with
  | zero =>
    intro code m params name _
    have hlookup : (e.stubbed s).lookup code params = e.lookup code params.asDry := rfl
    unfold runWithin
    rw [hlookup]
    cases e.lookup code params.asDry <;> rfl
  | succ levels ih =>
    intro code m params name hplain
    have hlookup : (e.stubbed s).lookup code params = e.lookup code params.asDry := rfl
    unfold runWithin
    rw [hlookup]
    cases hfound : e.lookup code params.asDry with
    | error cause => rfl
    | ok p =>
      have hp : e.library.Plain p :=
        hplain p (Library.pipe_eq_ok_iff.1 (mapError_eq_ok_iff.1 hfound))
      have hdispatch : ((e.stubbed s).dispatch ((e.stubbed s).runWithin levels) p m
          (onStack params p) name).dried =
          e.dispatch (e.runWithin levels) p m (onStack params p).asDry name :=
        dispatch_stubbed hk hs ih hp
      exact congrArg (Run.located _) hdispatch

theorem withTimeout_dried {α : Type} {code : String} {r : Run α} :
    ((e.stubbed s).withTimeout code r).dried = e.withTimeout code r.dried := by
  have hconfig : (e.stubbed s).config = e.config := rfl
  unfold withTimeout
  rw [hconfig]
  cases e.config.timeout with
  | none => rfl
  | some seconds =>
    dsimp only
    rw [Run.elapsed_dried]
    split <;> rfl

/-- A dry run is a live run against the generator of dry runs: for a pipe from which neither a
condition nor a function can be reached, on every memory, both end in the same way, with the same
memory or the same error, and take the same time, and the marks that they leave differ in nothing
but the requests. So they do within the time that a run may take. -/
theorem run_stubbed (e : Engine) (s : Schedule) (hk : e.library.Keyed)
    (hs : s.Matches e.schedule) (p : Pipe) (hp : e.library.Registered p)
    (hplain : e.library.Plain p)
    (m : Memory) (params : RunParams) (name : Option String) :
    ((e.stubbed s).run p.code m { params with dry := false } name).dried =
        e.run p.code m { params with dry := true } name ∧
      ((e.stubbed s).execute p.code m { params with dry := false }).dried =
        e.execute p.code m { params with dry := true } := by
  have hat : e.library.PlainAt p.code := by
    intro q hq
    rw [hp] at hq
    exact Option.some.inj hq ▸ hplain
  have hrun : ∀ name, ((e.stubbed s).run p.code m { params with dry := false } name).dried =
      e.run p.code m { params with dry := true } name :=
    fun name => runWithin_stubbed hk hs _ p.code m { params with dry := false } name hat
  refine ⟨hrun name, ?_⟩
  unfold execute
  rw [withTimeout_dried, hrun none]

end Engine

/-! ## Sketches -/

namespace Library

/-- A text that a language model makes about a topic. -/
def sketch : Pipe where
  code := "sketch"
  domain := "studio"
  description := ""
  inputs := .ofList [("topic", ⟨NativeConcept.text.concept, .single⟩)]
  output := NativeConcept.text.concept
  multiplicity := .single
  kind := .operator (.llm "About ${{ topic }}" none)

/-- Texts about several topics. -/
def sketches : Pipe where
  code := "sketches"
  domain := "studio"
  description := ""
  inputs := .ofList [("topics", ⟨NativeConcept.text.concept, .list⟩)]
  output := NativeConcept.text.concept
  multiplicity := .list
  kind := .batch "sketch" ⟨"topics", "topic"⟩

/-- A library whose pipes ask a language model. -/
def studio : Library where
  domains := .ofList [("studio", ⟨"studio", none, none⟩)]
  concepts := .initial
  pipes := .ofList [("sketch", sketch), ("sketches", sketches)]

theorem studio_keyed : studio.Keyed := by
  intro code p hp
  have hmem := Dict.mem_entries_of_get? hp
  have hentries : studio.pipes.entries = [("sketch", sketch), ("sketches", sketches)] := by decide
  rw [hentries] at hmem
  simp only [List.mem_cons, Prod.mk.injEq, List.not_mem_nil, or_false] at hmem
  rcases hmem with ⟨rfl, rfl⟩ | ⟨rfl, rfl⟩ <;> rfl

/-- The sketches run a sketch and nothing else. -/
theorem reaches_sketches {q : Pipe} (h : studio.Reaches sketches q) : q = sketches ∨ q = sketch := by
  have hsketch : studio.pipes.get? "sketch" = some sketch := by decide
  refine eq_or_eq_of_reaches ?_ ?_ h
  · rintro a ⟨code, hcode, hget⟩
    rw [List.mem_singleton.1 hcode, hsketch] at hget
    exact (Option.some.inj hget).symm
  · rintro a ⟨code, hcode, _⟩
    exact absurd hcode List.not_mem_nil

theorem sketches_plain : studio.Plain sketches := by
  intro q hq
  rcases reaches_sketches hq with rfl | rfl
  · exact ⟨nofun, nofun⟩
  · exact ⟨nofun, nofun⟩

end Library

namespace Engine

/-- A memory that holds a list of topics. -/
def topics : Memory :=
  Memory.empty.set "topics" (Memory.empty.fresh "topics" NativeConcept.text.concept
    (.list [.text "red", .text "blue"]))

/-- The sketches of two topics, live against placeholders and dry. -/
theorem run_stubbed_sketches :
    Library.studio.Keyed ∧ Schedule.byTime.Matches Schedule.byTime ∧
    Library.studio.Registered Library.sketches ∧ Library.studio.Plain Library.sketches ∧
    ((({ library := Library.studio } : Engine).stubbed .byTime).run "sketches" topics
        { dry := false } none).dried =
      ({ library := Library.studio } : Engine).run "sketches" topics { dry := true } none ∧
    ((({ library := Library.studio } : Engine).stubbed .byTime).execute "sketches" topics
        { dry := false }).dried =
      ({ library := Library.studio } : Engine).execute "sketches" topics { dry := true } := by
  have hp : Library.studio.Registered Library.sketches := by
    unfold Library.Registered
    decide
  exact ⟨Library.studio_keyed, Schedule.byTime_matches, hp, Library.sketches_plain,
    run_stubbed { library := Library.studio } .byTime Library.studio_keyed Schedule.byTime_matches
      Library.sketches hp Library.sketches_plain topics {} none⟩

end Engine

end Conduit
