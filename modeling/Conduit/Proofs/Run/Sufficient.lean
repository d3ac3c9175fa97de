import Conduit.Proofs.Library.Loaded
import Conduit.Proofs.Memory.Growth
import Conduit.Proofs.Run.Ends

/-!
# Needs suffice

A live run of a pipe of a loaded library on a memory in which every name has a value that the pipe
needs does not fail because a name has no value (`Engine.run_not_missesName`). It is assumed that
every pipe leaves in memory the names that the needs of other pipes count on
(`Library.LeavesNames`).

The invariant of the induction over runs is `Engine.Suffices`: what a pipe declares has a value when
the pipe is run, and the names that it leaves have values after it. Inputs stand in it, not needs,
because the declared inputs of a loaded library are closed under the rules of its pipes, also where
pipes run each other in a circle. Every controller then has a lemma of its own, in which `run`
stands for the runs below.
-/

namespace Conduit

/-- Whether a run fails because a name has no value: an input that a pipe declares, a variable that
it reads, or a variable of a template or an expression. -/
def RunCause.missesName : RunCause → Bool
  | missingInputs _ _ => true
  | memory e => e.isNotFound
  | templating (.undefined _ u) => u.cause.isNotFound
  | _ => false

/-- Every pipe leaves in memory the names that the needs of other pipes count on: a condition never
leaves the memory as it is, and no sequence runs a parallel that stores each of its results for each
item of a list. -/
structure Library.LeavesNames (l : Library) : Prop where
  conditions : ∀ p c, l.Registered p → p.kind = .condition c →
    Outcome.keep ∉ c.outcomes.values ++ [c.default]
  batches : ∀ p steps, l.Registered p → p.kind = .sequence steps → ∀ s ∈ steps,
    s.batching.isSome = true → ∀ target, l.pipes.get? s.pipe = some target →
      ∀ q, target.kind = .parallel q → q.addEach = false

namespace Engine

variable {e : Engine} {p target : Pipe} {m m' : Memory}

/-- A cause other than that a name has no value. -/
def Other (c : RunCause) : Prop :=
  c.missesName = false

/-! ## Operators -/

/-- Every input that a pipe declares has a value. -/
def Supplied (p : Pipe) (m : Memory) : Prop :=
  ∀ name, p.inputs.contains name = true → m.contains name = true

/-- A template whose free names have values. -/
def Readable (m : Memory) (source : String) : Prop :=
  ∃ names, Template.freeNames? source = .ok names ∧ ∀ name ∈ names, m.contains name = true

theorem get_ok {name : String} {c : RunCause} (h : m.contains name = true)
    (hc : (m.get name).mapError .memory = .error c) : Other c := by
  obtain ⟨s, hs⟩ := Memory.exists_get h
  rw [hs] at hc
  cases hc

/-- A template fails for another cause if the variables that it reads have values. -/
theorem templating_error (m : Memory) {err : TemplateError}
    (h : ∀ s u, err = .undefined s u →
      (u.cause.isNotFound = true ↔ m.contains u.name = false) ∧ m.contains u.name = true) :
    Other (.templating err) := by
  cases err with
  | unreadable _ => rfl
  | undefined s u =>
    obtain ⟨hiff, hcontains⟩ := h s u rfl
    unfold Other RunCause.missesName
    by_contra hne
    rw [Bool.not_eq_false, hiff, hcontains] at hne
    cases hne

theorem rendered_error {source : String} {c : RunCause} (hr : Readable m source)
    (h : rendered m source = .error c) : Other c := by
  obtain ⟨names, hnames, hin⟩ := hr
  obtain ⟨err, herr, rfl⟩ := mapError_eq_error_iff.1 h
  refine templating_error m ?_
  intro s u hu
  rw [hu] at herr
  obtain ⟨hiff, hmem⟩ := Template.render_undefined herr
  exact ⟨hiff, hin _ (hmem names hnames)⟩

theorem promptImages_error {names : List String} {c : RunCause}
    (hin : ∀ name ∈ names, m.contains name = true) (h : promptImages m names = .error c) :
    Other c := by
  induction names with
  | nil => cases h
  | cons name rest ih =>
    simp only [promptImages, bind_eq_error_iff] at h
    rcases h with h | ⟨s, _, h | ⟨more, _, h⟩⟩
    · exact get_ok (hin name List.mem_cons_self) h
    · exact ih (fun n hn => hin n (List.mem_cons_of_mem name hn)) h
    · cases h

theorem prompt_error {user : String} {system : Option String} {c : RunCause}
    (hm : Supplied p m) (hs : ∀ source ∈ user :: system.toList, Readable m source)
    (h : e.prompt p m user system = .error c) : Other c := by
  have himages : ∀ c, promptImages m (e.library.imageInputs p) = .error c → Other c :=
    fun c hc => promptImages_error (fun name hn => hm name (Library.contains_of_mem_imageInputs hn)) hc
  simp only [prompt, bind_eq_error_iff] at h
  rcases h with h | ⟨text, _, h⟩
  · exact rendered_error (hs user List.mem_cons_self) h
  · cases system with
    | none =>
      simp only [bind_eq_error_iff] at h
      rcases h with h | ⟨_, _, h | ⟨_, _, h⟩⟩
      · cases h
      · exact himages c h
      · cases h
    | some source =>
      simp only [bind_eq_error_iff, map_eq_error_iff] at h
      rcases h with h | ⟨_, _, h | ⟨_, _, h⟩⟩
      · exact rendered_error (hs source (List.mem_cons_of_mem _ List.mem_cons_self)) h
      · exact himages c h
      · cases h

theorem record_error {α : Type} {x : Except RecordError α} {c : RunCause}
    (h : x.mapError RunCause.record = .error c) : Other c := by
  obtain ⟨_, _, rfl⟩ := mapError_eq_error_iff.1 h
  rfl

theorem checkCount_error {pipe operation : String} {multiplicity : Multiplicity} {received : Nat}
    {c : RunCause} (h : checkCount pipe operation multiplicity received = .error c) : Other c := by
  unfold checkCount at h
  split at h
  · split at h
    · cases h
    · cases h
      rfl
  · cases h
  · cases h

theorem first_error {α : Type} {pipe operation reason : String} {as : List α} {c : RunCause}
    (h : first pipe operation reason as = .error c) : Other c := by
  cases as with
  | nil =>
    cases h
    rfl
  | cons a as => cases h

/-- The only input of a pipe is one of its inputs. -/
theorem contains_of_singleInput {name : String} (h : singleInput p = .ok name) :
    p.inputs.contains name = true := by
  unfold singleInput at h
  split at h
  · next k rest hkeys =>
    cases h
    rw [← Dict.mem_keys_iff, hkeys]
    exact List.mem_cons_self
  · cases h

theorem singleInput_error {c : RunCause} (h : singleInput p = .error c) : Other c := by
  unfold singleInput at h
  split at h
  · cases h
  · cases h
    rfl

theorem imagePrompt_error {prompt : Option String} {c : RunCause} (hm : Supplied p m)
    (hs : ∀ source ∈ prompt, Readable m source) (h : imagePrompt p m prompt = .error c) :
    Other c := by
  cases prompt with
  | some source => exact rendered_error (hs source rfl) h
  | none =>
    simp only [imagePrompt, bind_eq_error_iff] at h
    rcases h with h | ⟨name, hname, h | ⟨_, _, h⟩⟩
    · exact singleInput_error h
    · exact get_ok (hm name (contains_of_singleInput hname)) h
    · cases h

theorem documentOf_error {name : String} {c : RunCause} (hm : m.contains name = true)
    (h : documentOf m name = .error c) : Other c := by
  simp only [documentOf, bind_eq_error_iff] at h
  rcases h with h | ⟨s, _, h⟩
  · exact get_ok hm h
  · split at h
    · cases h
    · cases h
    · cases h
      rfl

theorem runLlm_ends {params : RunParams} {c : Concept} {user : String} {system : Option String}
    (hm : Supplied p m) (hs : ∀ source ∈ user :: system.toList, Readable m source) :
    (e.runLlm p m params c user system).Ends (fun _ => True) Other := by
  refine Run.ends_lift_bind (fun _ h => prompt_error hm hs h) fun prompt _ => ?_
  dsimp only
  split
  · split
    · exact Run.ends_ask_bind (fun _ => rfl) fun _ _ => trivial
    · refine Run.ends_ask_bind (fun _ => rfl) fun v _ => ?_
      exact Run.ends_lift (fun _ _ => trivial) fun c h => record_error h
  · refine Run.ends_ask_bind (fun _ => rfl) fun vs _ => ?_
    refine Run.ends_lift_bind (fun _ h => checkCount_error h) fun _ _ => ?_
    exact Run.ends_lift_bind (fun _ h => record_error h) fun _ _ => trivial

theorem runImgGen_ends {params : RunParams} {source : Option String} (hm : Supplied p m)
    (hs : ∀ s ∈ source, Readable m s) :
    (e.runImgGen p m params source).Ends (fun _ => True) Other := by
  refine Run.ends_lift_bind (fun _ h => imagePrompt_error hm hs h) fun prompt _ => ?_
  refine Run.ends_ask_bind (fun _ => rfl) fun images _ => ?_
  refine Run.ends_lift_bind (fun _ h => checkCount_error h) fun _ _ => ?_
  split
  · refine Run.ends_lift (fun _ _ => trivial) fun c h => ?_
    exact first_error (map_eq_error_iff.1 h)
  · trivial

theorem runExtract_ends {params : RunParams} {views : Bool} (hm : Supplied p m) :
    (e.runExtract p m params views).Ends (fun _ => True) Other := by
  refine Run.ends_lift_bind (fun _ h => singleInput_error h) fun name hname => ?_
  have hin := hm name (contains_of_singleInput hname)
  refine Run.ends_lift_bind (fun _ h => documentOf_error hin h) fun document _ => ?_
  refine Run.ends_ask_bind (fun _ => rfl) fun pages _ => ?_
  split
  · refine Run.ends_lift (fun _ _ => trivial) fun c h => ?_
    exact first_error (map_eq_error_iff.1 h)
  · trivial

theorem runFunc_ends {params : RunParams} {c : Concept} {name : String} :
    (e.runFunc p m params c name).Ends (fun _ => True) Other := by
  unfold runFunc
  split
  · exact Run.ends_lift (fun _ _ => trivial) fun c h => record_error h
  · split
    · exact rfl
    · refine Run.ends_mark_bind (Run.ends_lift (fun _ _ => trivial) fun c h => ?_)
      obtain ⟨_, _, rfl⟩ := mapError_eq_error_iff.1 h
      rfl

/-- An operator does not fail because a name has no value, if its inputs have values and among them
is what its templates read. -/
theorem makeContent_ends {params : RunParams} {c : Concept} {op : Operator} (hm : Supplied p m)
    (hs : ∀ source ∈ op.sources, Readable m source) :
    (e.makeContent p m params c op).Ends (fun _ => True) Other := by
  cases op with
  | llm user system => exact runLlm_ends hm hs
  | imgGen source => exact runImgGen_ends hm fun s h => hs s (Option.mem_toList.2 h)
  | extract views => exact runExtract_ends hm
  | func name => exact runFunc_ends
  | compose source =>
    refine Run.ends_lift (fun _ _ => trivial) fun c h => ?_
    exact rendered_error (hs source List.mem_cons_self) (map_eq_error_iff.1 h)

theorem outputConcept_error {params : RunParams} {c : RunCause}
    (h : e.outputConcept p params = .error c) : Other c := by
  unfold outputConcept at h
  split at h
  · split at h
    · cases h
    · cases h
      rfl
  · cases h

theorem storeResult_error {pipe : String} {concept : Concept} {content : Content}
    {name : Option String} {c : RunCause} (h : storeResult m pipe concept content name = .error c) :
    Other c := by
  obtain ⟨err, herr, rfl⟩ := stored_error h
  exact Memory.setMain_error herr

/-- An operator stores its content. -/
theorem runOperator_ends {params : RunParams} {op : Operator} {name : Option String}
    (hm : Supplied p m) (hs : ∀ source ∈ op.sources, Readable m source) :
    (e.runOperator p op m params name).Ends (fun m' => m.Grows m' name.toList) Other := by
  refine Run.ends_lift_bind (fun _ h => outputConcept_error h) fun c _ => ?_
  refine (makeContent_ends hm hs).bind fun content _ => ?_
  refine Run.ends_lift_bind (fun _ h => storeResult_error h) fun ⟨stored, m'⟩ h => ?_
  exact Run.ends_mark_bind
    ((storeResult_grows h).imp (fun _ hn => hn) fun _ hn => .inl (List.mem_cons_of_mem _ hn))

theorem checkInput_error {name : String} {r : Requirement} {c : RunCause}
    (hm : m.contains name = true) (h : e.checkInput p m name r = .error c) : Other c := by
  simp only [checkInput, bind_eq_error_iff] at h
  rcases h with h | ⟨s, _, h⟩
  · exact get_ok hm h
  · split at h
    · cases h
      rfl
    · split at h
      · cases h
        rfl
      · cases h

theorem checkInputs_error {c : RunCause} (hm : Supplied p m) (h : e.checkInputs p m = .error c) :
    Other c := by
  simp only [checkInputs] at h
  split at h
  · obtain ⟨⟨name, r⟩, hentry, h⟩ := exists_of_forM_error h
    have hname : p.inputs.contains name = true := by
      rw [← Dict.mem_keys_iff]
      exact List.mem_map_of_mem hentry
    exact checkInput_error (hm name hname) h
  · next hmissing =>
    refine absurd (List.isEmpty_iff.2 (List.filter_eq_nil_iff.2 ?_)) hmissing
    intro name hname
    simp [hm name (Dict.mem_keys_iff.1 hname)]

/-! ## Controllers

A controller is run with a runner whose runs are known to end well: `run` may stand for the runs at
any depth of the stack.
-/

/-- The names that a pipe leaves in memory when its result is stored under a name. -/
def leftNames (p : Pipe) (name : Option String) : List String :=
  Library.writtenNames p ⟨p.code, name, none, none⟩

theorem mem_leftNames {name : Option String} {n : String} (h : n ∈ name.toList) :
    n ∈ leftNames p name :=
  List.mem_append_left _ h

/-- Every live run of a pipe whose inputs have values leaves its names in memory, or fails for
another cause than that a name has no value. -/
def Suffices (l : Library) (run : Runner) : Prop :=
  ∀ code p m params name, l.pipes.get? code = some p → params.dry = false → Supplied p m →
    (run code m params name).Ends (fun m' => m.Grows m' (leftNames p name)) Other

section Controllers

variable {run : Runner} {params : RunParams} {name : Option String}

theorem batchItems_error {list : String} {c : RunCause} (hm : m.contains list = true)
    (h : batchItems m list = .error c) : Other c := by
  simp only [batchItems, bind_eq_error_iff] at h
  rcases h with h | ⟨s, _, h⟩
  · exact get_ok hm h
  · split at h
    · cases h
    · cases h
      rfl

theorem mainContents_error {memories : List Memory} {c : RunCause}
    (h : mainContents memories = .error c) : Other c := by
  simp only [mainContents, mapError_eq_error_iff] at h
  obtain ⟨err, herr, rfl⟩ := h
  obtain ⟨m, _, hm⟩ := exists_of_mapM_error herr
  exact Memory.main_error (map_eq_error_iff.1 hm)

/-- A batch needs its list, and what its branch needs besides the item. -/
theorem runBatch_ends (hrun : Suffices e.library run) {owner branch : String} {b : Batching}
    {output : Concept} (ht : e.library.pipes.get? branch = some target) (hdry : params.dry = false)
    (hlist : m.contains b.list = true)
    (hin : ∀ n, target.inputs.contains n = true → n ≠ b.item → m.contains n = true) :
    (e.runBatch run owner branch b output m params name).Ends
      (fun m' => m.Grows m' name.toList) Other := by
  refine Run.ends_lift_bind (fun _ h => batchItems_error hlist h) fun ⟨c, items⟩ _ => ?_
  refine Run.Ends.bind (Run.ends_forM_emit _ _) fun _ _ => ?_
  have hjoin : (Run.join e.schedule owner (items.map fun item =>
      run branch (itemMemory m b.item c item) params.nested none)).Ends (fun _ => True) Other := by
    refine (Run.ends_join fun r hr => ?_).imp fun _ _ => trivial
    obtain ⟨item, _, rfl⟩ := List.mem_map.1 hr
    refine (hrun branch target _ params.nested none ht hdry fun n hn => ?_).imp fun _ _ => trivial
    by_cases hitem : n = b.item
    · rw [hitem]
      exact Memory.contains_set_self _ _ _
    · exact Memory.contains_set (hin n hn hitem) _ _
  refine hjoin.bind fun memories _ => ?_
  refine Run.ends_lift_bind (fun _ h => mainContents_error h) fun contents _ => ?_
  refine Run.ends_lift_bind (fun _ h => storeResult_error h) fun ⟨stored, m'⟩ h => ?_
  exact Run.ends_mark_bind
    ((storeResult_grows h).imp (fun _ hn => hn) fun _ hn => .inl (List.mem_cons_of_mem _ hn))

/-- The names that a step leaves in memory: those of its pipe, or only that of its result if it runs
for each item of a list. -/
def stepNames (target : Pipe) (s : Step) : List String :=
  if s.batching.isSome then s.result.toList else leftNames target s.result

/-- A step needs what its pipe needs, or its list and what its pipe needs besides the item. -/
theorem runStep_ends (hk : e.library.Keyed) (hrun : Suffices e.library run) {s : Step}
    (ht : e.library.pipes.get? s.pipe = some target) (hdry : params.dry = false)
    (hin : ∀ n, Library.StepRule n s (target.inputs.contains n = true) → m.contains n = true) :
    (e.runStep run p s m params).Ends (fun m' => m.Grows m' (stepNames target s)) Other := by
  unfold runStep stepNames
  cases hb : s.batching with
  | none =>
    refine hrun _ _ _ _ _ ht hdry fun n hn => hin n ?_
    simp only [Library.StepRule, hb]
    exact hn
  | some b =>
    simp only [Library.StepRule, hb, Library.BatchRule] at hin
    refine Run.ends_lift_bind (fun c hc => ?_) fun found hfound => ?_
    · rw [batchTarget, Library.pipe_of_get? ht] at hc
      cases hc
    · rw [batchTarget, Library.pipe_of_get? ht] at hfound
      cases hfound
      exact runBatch_ends hrun (hk.registered ht) hdry (hin b.list (.inl rfl))
        fun n hn hitem => hin n (.inr ⟨hn, hitem⟩)

/-- The analysis counts on a step for no other names than it leaves, if no parallel that stores each
of its results runs for each item of a list. -/
theorem mem_stepNames {s : Step}
    (hbatch : s.batching.isSome = true → ∀ q, target.kind = .parallel q → q.addEach = false)
    {n : String} (h : n ∈ Library.writtenNames target s) : n ∈ stepNames target s := by
  unfold stepNames
  split
  · next hs =>
    unfold Library.writtenNames at h
    cases hkind : target.kind with
    | parallel q => simpa [hkind, hbatch hs q hkind] using h
    | _ => simpa [hkind] using h
  · exact h

/-- Steps that run one after another need what is not produced by the steps before. `produced` are
the names that the steps that have run leave in memory. -/
theorem runSteps_ends (hk : e.library.Keyed) (hrun : Suffices e.library run)
    (hdry : params.dry = false) {steps : List Step} (hne : steps ≠ [])
    (hl : ∀ s ∈ steps, e.library.StepLinked s)
    (hbatch : ∀ s ∈ steps, s.batching.isSome = true → ∀ target,
      e.library.pipes.get? s.pipe = some target → ∀ q, target.kind = .parallel q →
        q.addEach = false)
    (produced : List String) (hproduced : ∀ n ∈ produced, m.contains n = true)
    (hin : ∀ n, e.library.StepsRule n (fun q => q.inputs.contains n = true) produced steps →
      m.contains n = true) :
    (e.runSteps run p params m steps).Ends (fun m' => m.Grows m' []) Other := by
  induction steps generalizing m produced with
  | nil => exact absurd rfl hne
  | cons s rest ih =>
    obtain ⟨target, ht, _⟩ := hl s List.mem_cons_self
    have hstep : ∀ n, Library.StepRule n s (target.inputs.contains n = true) →
        m.contains n = true := by
      intro n hn
      by_cases hp : n ∈ produced
      · exact hproduced n hp
      · exact hin n ⟨target, ht, .inl ⟨hp, hn⟩⟩
    have hrunStep : (e.runStep run p s m (params.forStep s)).Ends
        (fun m' => m.Grows m' (stepNames target s)) Other := runStep_ends hk hrun ht hdry hstep
    refine hrunStep.bind fun m₁ hm₁ => ?_
    cases rest with
    | nil => exact hm₁.imp (fun _ hn => hn) fun _ hn => absurd hn List.not_mem_nil
    | cons s' rest =>
      refine (ih (by simp) (fun t h => hl t (List.mem_cons_of_mem s h))
        (fun t h => hbatch t (List.mem_cons_of_mem s h))
        (produced ++ Library.writtenNames target s) (fun n hn => ?_)
        fun n hn => ?_).imp fun m' hm' => hm'.imp hm₁.keeps fun _ hn => absurd hn List.not_mem_nil
      · rcases List.mem_append.1 hn with hn | hn
        · exact hm₁.keeps n (hproduced n hn)
        · exact hm₁.written n
            (mem_stepNames (fun h => hbatch s List.mem_cons_self h target ht) hn)
      · exact hm₁.keeps n (hin n ⟨target, ht, .inr hn⟩)

theorem checkOutput_error {c : RunCause} (h : e.checkOutput p m = .error c) : Other c := by
  simp only [checkOutput, bind_eq_error_iff, mapError_eq_error_iff] at h
  rcases h with ⟨err, herr, rfl⟩ | ⟨s, _, h⟩
  · exact Memory.main_error herr
  · split at h
    · cases h
      rfl
    · cases h

theorem storeAs_error {c : RunCause} (h : storeAs m name = .error c) : Other c := by
  cases name with
  | none => cases h
  | some name =>
    obtain ⟨err, herr, rfl⟩ := stored_error (map_eq_error_iff.1 h)
    exact Memory.storeMain_error herr

/-- A sequence stores the result of its last step under its name. -/
theorem runSequence_ends (hk : e.library.Keyed) (hrun : Suffices e.library run)
    (hdry : params.dry = false) {steps : List Step} (hne : steps ≠ [])
    (hl : ∀ s ∈ steps, e.library.StepLinked s)
    (hbatch : ∀ s ∈ steps, s.batching.isSome = true → ∀ target,
      e.library.pipes.get? s.pipe = some target → ∀ q, target.kind = .parallel q →
        q.addEach = false)
    (hin : ∀ n, e.library.StepsRule n (fun q => q.inputs.contains n = true) [] steps →
      m.contains n = true) :
    (e.runSequence run p steps m params name).Ends (fun m' => m.Grows m' name.toList) Other := by
  refine (runSteps_ends hk hrun hdry hne hl hbatch [] (fun _ h => absurd h List.not_mem_nil)
    hin).bind fun m₁ hm₁ => ?_
  refine Run.ends_lift_bind (fun _ h => checkOutput_error h) fun _ _ => ?_
  refine Run.ends_lift (fun m' h => ?_) fun _ h => storeAs_error h
  exact (storeAs_grows hm₁.main h).imp hm₁.keeps fun _ hn => .inl hn

theorem checkTargets_error {branches : List Step} {c : RunCause}
    (h : e.checkTargets p branches = .error c) : Other c := by
  obtain ⟨s, _, h⟩ := exists_of_forM_error h
  split at h
  · obtain ⟨_, _, rfl⟩ := mapError_eq_error_iff.1 (map_eq_error_iff.1 h)
    rfl
  · cases h

theorem branchResults_error {branches : List Step} {memories : List Memory} {c : RunCause}
    (h : branchResults branches memories = .error c) : Other c := by
  obtain ⟨err, herr, rfl⟩ := mapError_eq_error_iff.1 h
  obtain ⟨⟨s, m⟩, _, hm⟩ := exists_of_mapM_error herr
  exact Memory.main_error (map_eq_error_iff.1 hm)

/-- Each branch has a result under its name. -/
theorem map_fst_branchResults {branches : List Step} {memories : List Memory}
    {results : List (String × Stuff)} (hlen : branches.length = memories.length)
    (h : branchResults branches memories = .ok results) :
    results.map Prod.fst = branches.map resultName := by
  have hall := forall₂_of_mapM (mapError_eq_ok_iff.1 h)
  have hzip : results.map Prod.fst = (branches.zip memories).map (resultName ∘ Prod.fst) := by
    refine List.forall₂_eq_eq_eq ▸ List.forall₂_map_left_iff.2 (List.forall₂_map_right_iff.2 ?_)
    refine hall.flip.imp fun r sm hr => ?_
    obtain ⟨s, _, rfl⟩ := map_eq_ok_iff.1 hr
    rfl
  rw [hzip, ← List.map_map, List.map_fst_zip hlen.le]

/-- Storing results keeps the names that have values and adds those of the results. -/
theorem storeEach_contains (results : List (String × Stuff)) (m : Memory) :
    (∀ n, m.contains n = true → (storeEach m results).contains n = true) ∧
      ∀ n ∈ results.map Prod.fst, (storeEach m results).contains n = true := by
  induction results generalizing m with
  | nil => exact ⟨fun _ hn => hn, fun _ hn => absurd hn List.not_mem_nil⟩
  | cons r results ih =>
    obtain ⟨hkeeps, hadds⟩ := ih (m.set r.1 r.2)
    refine ⟨fun n hn => hkeeps n (Memory.contains_set hn _ _), ?_⟩
    intro n hn
    rcases List.mem_cons.1 hn with rfl | hn
    · exact hkeeps _ (Memory.contains_set_self _ _ _)
    · exact hadds n hn

/-- The results of branches are stored under their names, the last as the latest result. -/
theorem storeResults_grows {results : List (String × Stuff)} (hne : results ≠ [])
    (h : storeResults m results = .ok m') : m.Grows m' (results.map Prod.fst) := by
  unfold storeResults at h
  split at h
  · next hlast => exact absurd (List.getLast?_eq_none_iff.1 hlast) hne
  · next last s hlast =>
    obtain ⟨hkeeps, hadds⟩ := storeEach_contains results m
    obtain ⟨_, hmain, halias⟩ := Memory.contains_setAlias (mapError_eq_ok_iff.1 h)
    refine ⟨fun n hn => halias n (hkeeps n hn), fun n hn => halias n (hadds n hn), ?_⟩
    intro n hn
    rw [hmain, if_pos rfl, Option.some.injEq] at hn
    rw [← hn]
    exact halias last (hadds last (List.mem_map_of_mem (List.mem_of_getLast? hlast)))

theorem storeResults_error {results : List (String × Stuff)} {c : RunCause}
    (h : storeResults m results = .error c) : Other c := by
  unfold storeResults at h
  split at h
  · cases h
  · obtain ⟨err, herr, rfl⟩ := mapError_eq_error_iff.1 h
    exact Memory.setAlias_error herr

/-- There is a result if there is a branch. -/
theorem results_ne {branches : List Step} {results : List (String × Stuff)}
    (hnames : results.map Prod.fst = branches.map resultName) (hne : branches ≠ []) :
    results ≠ [] := by
  rintro rfl
  exact hne (List.map_eq_nil_iff.1 hnames.symm)

/-- A parallel needs what its branches need, and stores each of their results, or their combination
under its name, or both. -/
theorem runParallel_ends (hk : e.library.Keyed) (hrun : Suffices e.library run)
    (hdry : params.dry = false) {q : Parallel} (hkind : p.kind = .parallel q)
    (hproper : p.kind.Proper) (hl : ∀ s ∈ q.branches, e.library.StepLinked s)
    (hin : ∀ s ∈ q.branches, ∀ target, e.library.pipes.get? s.pipe = some target →
      ∀ n, Library.StepRule n s (target.inputs.contains n = true) → m.contains n = true) :
    (e.runParallel run p q m params name).Ends (fun m' => m.Grows m' (leftNames p name)) Other := by
  simp only [hkind, PipeKind.Proper] at hproper
  refine Run.ends_lift_bind (fun _ h => checkTargets_error h) fun _ _ => ?_
  have hjoin : (Run.join e.schedule p.code (q.branches.map fun s =>
      e.runStep run p s m (params.forStep s))).Ends
      (List.Forall₂ (fun r m => r.result = .ok m) (q.branches.map fun s =>
        e.runStep run p s m (params.forStep s))) Other := by
    refine Run.ends_join fun r hr => ?_
    obtain ⟨s, hs, rfl⟩ := List.mem_map.1 hr
    obtain ⟨target, ht, _⟩ := hl s hs
    have hrunStep : (e.runStep run p s m (params.forStep s)).Ends
        (fun m' => m.Grows m' (stepNames target s)) Other :=
      runStep_ends hk hrun ht hdry (hin s hs target ht)
    exact hrunStep.imp fun _ _ => trivial
  refine hjoin.bind fun memories hmemories => ?_
  refine Run.ends_lift_bind (fun _ h => branchResults_error h) fun results hresults => ?_
  have hlen : q.branches.length = memories.length := by simpa using hmemories.length_eq
  have hnames := map_fst_branchResults hlen hresults
  refine Run.ends_lift_bind (fun _ h => storeResults_error h) fun m₁ hm₁ => ?_
  have hgrows : ∀ n, m.contains n = true → m₁.contains n = true := by
    cases heach : q.addEach with
    | false =>
      rw [heach] at hm₁
      cases hm₁
      exact fun _ hn => hn
    | true =>
      rw [heach, if_pos rfl] at hm₁
      exact (storeResults_grows (results_ne hnames hproper.1) hm₁).keeps
  have heach : q.addEach = true →
      m.Grows m₁ (q.branches.map fun b => b.result.getD b.pipe) := by
    intro heach
    rw [heach, if_pos rfl] at hm₁
    have hg := storeResults_grows (results_ne hnames hproper.1) hm₁
    rw [hnames] at hg
    exact hg
  have hleft : ∀ n ∈ leftNames p name, n ∈ name.toList ∨ m₁.contains n = true := by
    intro n hn
    simp only [leftNames, Library.writtenNames, hkind, List.mem_append] at hn
    refine hn.imp_right ?_
    intro hn
    split at hn
    · next he => exact (heach he).written n hn
    · exact absurd hn List.not_mem_nil
  split
  · next hnone =>
    have he : q.addEach = true := hproper.2.resolve_right (by simp [hnone])
    refine Run.ends_lift (fun m' h => ?_) fun _ h => storeAs_error h
    exact (storeAs_grows (heach he).main h).imp hgrows hleft
  · next c _ =>
    refine Run.ends_lift_bind (fun _ h => record_error h) fun content _ => ?_
    refine Run.ends_lift_bind (fun _ h => storeResult_error h) fun ⟨stored, m'⟩ h => ?_
    exact Run.ends_mark_bind ((storeResult_grows h).imp hgrows
      fun n hn => (hleft n hn).imp_left (List.mem_cons_of_mem stored))

theorem evaluated_error {c : Condition} {names : List String} {cause : RunCause}
    (hnames : Library.conditionVariables c = .ok names) (hin : ∀ n ∈ names, m.contains n = true)
    (h : evaluated m c.subject = .error cause) : Other cause := by
  simp only [Library.conditionVariables] at hnames
  simp only [evaluated] at h
  cases hsubject : c.subject with
  | expression source =>
    simp only [hsubject, bind_eq_ok_iff, mapError_eq_ok_iff] at hnames
    simp only [hsubject, mapError_eq_error_iff, map_eq_error_iff] at h
    obtain ⟨read, hread, hnames⟩ := hnames
    cases hnames
    obtain ⟨err, herr, rfl⟩ := h
    refine templating_error m ?_
    intro s u hu
    rw [hu] at herr
    obtain ⟨hiff, hmem⟩ := Expression.evaluate_undefined herr
    exact ⟨hiff, hin _ (mem_distinct.2 (List.mem_append_left _ (hmem read hread)))⟩
  | template source =>
    simp only [hsubject, bind_eq_ok_iff, mapError_eq_ok_iff] at hnames
    simp only [hsubject, mapError_eq_error_iff, map_eq_error_iff] at h
    obtain ⟨read, hread, hnames⟩ := hnames
    cases hnames
    obtain ⟨err, herr, rfl⟩ := h
    refine templating_error m ?_
    intro s u hu
    rw [hu] at herr
    obtain ⟨hiff, hmem⟩ := Template.render_undefined herr
    exact ⟨hiff, hin _ (mem_distinct.2 (List.mem_append_left _ (hmem read hread)))⟩

theorem aliased_error {text : String} {asked : Option String} {c : RunCause}
    (h : aliased m text asked = .error c) : Other c := by
  cases asked with
  | none => cases h
  | some target =>
    obtain ⟨err, herr, rfl⟩ := mapError_eq_error_iff.1 h
    exact Memory.setAlias_error herr

theorem aliased_contains {text : String} {asked : Option String}
    (h : aliased m text asked = .ok m') : ∀ n, m.contains n = true → m'.contains n = true := by
  cases asked with
  | none =>
    cases h
    exact fun _ hn => hn
  | some target => exact (Memory.contains_setAlias (mapError_eq_ok_iff.1 h)).2.2

/-- A condition needs its variables and what the pipes need to which it may lead. -/
theorem runCondition_ends {l : Library} (hrun : Suffices l run) (hdry : params.dry = false)
    {c : Condition} {names : List String} (hnames : Library.conditionVariables c = .ok names)
    (hkeep : ∀ text, c.outcome text ≠ .keep)
    (hvariables : ∀ n ∈ names, m.contains n = true)
    (hl : ∀ code ∈ c.pipes, l.pipes.contains code = true)
    (hin : ∀ code ∈ c.pipes, ∀ target, l.pipes.get? code = some target →
      ∀ n, target.inputs.contains n = true → m.contains n = true) :
    (runCondition run p c m params name).Ends (fun m' => m.Grows m' name.toList) Other := by
  refine Run.ends_lift_bind (fun _ h => evaluated_error hnames hvariables h) fun text _ => ?_
  refine Run.ends_lift_bind (fun _ h => aliased_error h) fun m₁ hm₁ => ?_
  have hgrows := aliased_contains hm₁
  refine Run.ends_mark_bind (Run.ends_mark_bind ?_)
  rw [if_neg (by simp [hdry])]
  cases hout : c.outcome text with
  | keep => exact absurd hout (hkeep text)
  | fail => exact Run.ends_fail rfl
  | run code =>
    have hcode := Condition.mem_pipes_of_outcome hout
    obtain ⟨target, ht⟩ := Dict.exists_of_contains (hl code hcode)
    refine (hrun code target m₁ params.nested name ht hdry
      fun n hn => hgrows n (hin code hcode target ht n hn)).imp fun m' hm' => ?_
    exact hm'.imp hgrows fun n hn => .inl (mem_leftNames hn)

end Controllers

/-! ## All runs -/

theorem leftNames_of_kind {name : Option String} (h : ∀ q, p.kind ≠ .parallel q) :
    leftNames p name = name.toList := by
  unfold leftNames Library.writtenNames
  cases hkind : p.kind with
  | parallel q => exact absurd hkind (h q)
  | _ => simp

/-- What one pipe does: a live run of a pipe whose inputs have values does not fail because a name
has no value, if that is so of the pipes that it runs. -/
theorem dispatch_ends (hl : e.library.Settled) (hleaves : e.library.LeavesNames) {run : Runner}
    (hrun : Suffices e.library run) (hp : e.library.Registered p) {params : RunParams}
    {name : Option String} (hdry : params.dry = false) (hm : Supplied p m) :
    (e.dispatch run p m params name).Ends (fun m' => m.Grows m' (leftNames p name)) Other := by
  have hk := hl.linked.keyed
  have hlinked := hl.linked.pipes p hp
  have hproper := (hl.declared p hp).proper
  have hrule : ∀ n, e.library.Rule n (fun q => q.inputs.contains n = true) p →
      m.contains n = true := fun n hn => hm n ((hl.contains_iff_rule hp).2 hn)
  refine Run.ends_mark_bind ?_
  refine Run.ends_lift_bind (fun _ h => checkInputs_error hm h) fun _ _ => ?_
  unfold Library.Rule at hrule
  unfold Library.PipeLinked at hlinked
  cases hkind : p.kind with
  | sequence steps =>
    simp only [hkind] at hrule hlinked hproper ⊢
    rw [leftNames_of_kind (by simp [hkind])]
    exact runSequence_ends hk hrun hdry hproper hlinked (hleaves.batches p steps hp hkind) hrule
  | parallel q =>
    simp only [hkind] at hrule hlinked ⊢
    exact runParallel_ends hk hrun hdry hkind hproper hlinked
      fun s hs target ht n hn => hrule n ⟨s, hs, target, ht, hn⟩
  | condition c =>
    simp only [hkind] at hrule hlinked ⊢
    obtain ⟨⟨names, hnames⟩, hcodes⟩ := hlinked
    rw [leftNames_of_kind (by simp [hkind])]
    refine runCondition_ends hrun hdry hnames ?_
      (fun n hn => hrule n (.inl ⟨names, hnames, hn⟩)) hcodes
      fun code hc target ht n hn => hrule n (.inr ⟨code, hc, target, ht, hn⟩)
    intro text hkeep
    exact hleaves.conditions p c hp hkind (hkeep ▸ c.outcome_mem text)
  | batch branch b =>
    simp only [hkind] at hrule hlinked ⊢
    obtain ⟨target, ht, _⟩ := hlinked
    rw [leftNames_of_kind (by simp [hkind])]
    exact runBatch_ends hrun ht hdry (hrule b.list ⟨target, ht, .inl rfl⟩)
      fun n hn hitem => hrule n ⟨target, ht, .inr ⟨hn, hitem⟩⟩
  | operator op =>
    rw [leftNames_of_kind (by simp [hkind])]
    refine runOperator_ends hm ?_
    intro source hs
    obtain ⟨names, hnames, hin⟩ := (hl.declared p hp).sources op hkind source hs
    exact ⟨names, hnames, fun n hn => hm n (hin n hn)⟩

/-- What all runs do. -/
theorem runWithin_suffices (hl : e.library.Settled) (hleaves : e.library.LeavesNames)
    (levels : Nat) : Suffices e.library (e.runWithin levels) := by
  intro code p m params name hp hdry hm
  refine runWithin_induct e (motive := fun code m params name r =>
    ∀ p, e.library.pipes.get? code = some p → params.dry = false → Supplied p m →
      r.Ends (fun m' => m.Grows m' (leftNames p name)) Other)
    ?missing ?overflow ?step levels code m params name p hp hdry hm
  case missing =>
    intro code m params name cause place hlookup p hp
    simp only [lookup, Library.pipe_of_get? hp] at hlookup
    cases hlookup
  case overflow =>
    intro code m params name p place _ p' _ _ _
    exact Run.Ends.located rfl
  case step =>
    intro run hrun code m params name p place hlookup p' hp' hdry hm
    simp only [lookup, Library.pipe_of_get? hp'] at hlookup
    cases hlookup
    have hdry' : (onStack params p).dry = false := hdry
    exact (dispatch_ends hl hleaves (fun code p m params name => hrun code m params name p)
      (hl.linked.keyed.registered hp') hdry' hm).located

/-- Needs suffice: a live run of a pipe of a loaded library on a memory in which all that the pipe
needs has a value never fails because a name has no value. For a template or an expression that
means that the variable for which it fails has a value in the memory where it is evaluated. -/
theorem run_not_missesName (hl : e.library.Loaded) (hleaves : e.library.LeavesNames)
    (hp : e.library.Registered p) :
    (∃ needs, e.library.needs p = .ok needs ∧
      ∀ m params name err, params.dry = false →
        (∀ n, needs.contains n = true → m.contains n = true) →
        (e.run p.code m params name).result = .error err → err.cause.missesName = false) ∧
    ∀ m source s u, (Template.render m source = .error (.undefined s u) ∨
        Expression.evaluate m source = .error (.undefined s u)) →
      (RunCause.templating (.undefined s u)).missesName = !m.contains u.name := by
  refine ⟨?_, fun m source s u h => ?_⟩
  · obtain ⟨needs, hneeds, _⟩ := Library.needs_yields hl.settled.linked hp
    refine ⟨needs, hneeds, ?_⟩
    intro m params name err hdry hm herr
    have hsupplied : Supplied p m := fun n hn =>
      hm n (by
        obtain ⟨needs', hneeds', hn'⟩ := ((hl.settled.declared p hp).inputs n).1 hn
        rw [hneeds] at hneeds'
        cases hneeds'
        exact hn')
    have hends := runWithin_suffices hl.settled hleaves (e.config.maxDepth - params.layer)
      p.code p m params name hp hdry hsupplied
    unfold Run.Ends at hends
    unfold run at herr
    rw [herr] at hends
    exact hends
  · have hiff : u.cause.isNotFound = true ↔ m.contains u.name = false := by
      rcases h with h | h
      · exact (Template.render_undefined h).1
      · exact (Expression.evaluate_undefined h).1
    rw [Bool.eq_iff_iff, Bool.not_eq_true']
    exact hiff

/-! ## Two pipes that run each other -/

/-- The pipes of `relay` leave what is counted on. -/
theorem relay_leavesNames : Library.relay.LeavesNames where
  conditions p c hp hkind := by
    rcases Library.relay_registered hp with rfl | rfl | rfl
    · cases hkind
    · cases hkind
    · cases hkind
      decide
  batches p steps hp hkind s hs hbatch := by
    rcases Library.relay_registered hp with rfl | rfl | rfl
    · cases hkind
    · cases hkind
      simp only [List.mem_cons, List.not_mem_nil, or_false] at hs
      rcases hs with rfl | rfl <;> cases hbatch
    · cases hkind

/-- A memory that holds a topic and a wanted text. -/
def wantedMemory : Memory :=
  let hold (m : Memory) (name text : String) :=
    m.set name (m.fresh name NativeConcept.text.concept (.text text))
  hold (hold .empty "topic" "rain") "wanted" "snow"

/-- An attempt that never ends well does not fail because a name has no value. -/
theorem run_attempt_not_missesName :
    Library.relay.Loaded ∧ Library.relay.LeavesNames ∧
      Library.relay.Registered Library.attempt ∧
      ∀ err, (run { library := Library.relay } "attempt" wantedMemory {} none).result = .error err →
        err.cause.missesName = false := by
  have hp : Library.relay.Registered Library.attempt := by unfold Library.Registered; decide
  refine ⟨Library.relay_loaded, relay_leavesNames, hp, ?_⟩
  intro err herr
  obtain ⟨⟨needs, hneeds, hall⟩, _⟩ := run_not_missesName (e := { library := Library.relay })
    Library.relay_loaded relay_leavesNames hp
  refine hall wantedMemory {} none err rfl ?_ herr
  intro n hn
  have hnames : (Library.relay.needs Library.attempt).toOption.map Dict.keys =
      some ["topic", "wanted"] := by decide +kernel
  have hneeds' : Library.relay.needs Library.attempt = .ok needs := hneeds
  rw [hneeds'] at hnames
  have hkeys : needs.keys = ["topic", "wanted"] := Option.some.inj hnames
  have hmem := Dict.mem_keys_iff.2 hn
  rw [hkeys] at hmem
  have hheld : ∀ n ∈ ["topic", "wanted"], wantedMemory.contains n = true := by decide +kernel
  exact hheld n hmem

end Engine

end Conduit
