import Conduit.Proofs.Library.Leaves
import Conduit.Proofs.Memory.Typed
import Conduit.Proofs.Run.Ends

/-!
# Runs keep memories typed

A run of a pipe of a loaded library leaves a typed memory in place of a typed one, if the pipes that
it comes to fit (`Engine.run_typed`). Without the condition this is false (`gallery_untyped`,
`not_forall_run_typed`): no check compares the content that an operator makes, or the results that a
batch lists, with the output that is declared for them.

The invariant of the induction over runs is `Engine.Left`. Besides the memory being typed it says
that the latest result is one that the pipe may leave (`Library.Leaves`), for that is what a batch
takes from its branches. `Engine.Ready` is what a run may count on when it comes to a pipe; in
particular the pipes on the stack are pipes that may be running, so a dry condition skips only such
pipes.
-/

namespace Conduit

namespace Engine

variable {e : Engine} {start params : RunParams} {p : Pipe} {m m' : Memory} {c : Concept}
  {name : Option String} {o : Option String}

/-! ## Operators -/

/-- What a language model makes for a concept conforms to the structure that is asked for. -/
theorem runLlm_conforms {user : String} {system : Option String} :
    (e.runLlm p m params c user system).Gives fun content =>
      content.Conforms e.library.registry (generatedShape c) := by
  refine Run.gives_lift_bind fun prompt _ => ?_
  dsimp only
  split
  · split
    · next htext =>
      refine Run.gives_ask_bind fun text => Run.ends_pure ?_
      exact .form (congrArg some htext.symm)
    · refine Run.gives_ask_bind fun v => ?_
      exact Run.gives_lift fun content h => Registry.read_conforms (mapError_eq_ok_iff.1 h)
  · refine Run.gives_ask_bind fun vs => ?_
    refine Run.gives_lift_bind fun _ _ => ?_
    refine Run.gives_lift_bind fun items hitems => Run.ends_pure ?_
    refine .list ?_
    intro content hcontent
    obtain ⟨v, _, hv⟩ := exists_of_forall₂ (forall₂_of_mapM (mapError_eq_ok_iff.1 hitems)) hcontent
    exact Registry.read_conforms hv

/-- What an image generator makes conforms to the structure of images. -/
theorem runImgGen_conforms {source : Option String} :
    (e.runImgGen p m params source).Gives fun content =>
      content.Conforms e.library.registry Structure.imageContent := by
  refine Run.gives_lift_bind fun prompt _ => ?_
  refine Run.gives_ask_bind fun images => ?_
  refine Run.gives_lift_bind fun _ _ => ?_
  split
  · refine Run.gives_lift fun content h => ?_
    obtain ⟨image, _, rfl⟩ := map_eq_ok_iff.1 h
    exact .form rfl
  · refine Run.ends_pure (.list fun content hcontent => ?_)
    obtain ⟨image, _, rfl⟩ := List.mem_map.1 hcontent
    exact .form rfl

/-- What a page reader makes conforms to the structure of pages. -/
theorem runExtract_conforms {views : Bool} :
    (e.runExtract p m params views).Gives fun content =>
      content.Conforms e.library.registry Structure.pageContent := by
  refine Run.gives_lift_bind fun input _ => ?_
  refine Run.gives_lift_bind fun document _ => ?_
  refine Run.gives_ask_bind fun pages => ?_
  split
  · refine Run.gives_lift fun content h => ?_
    obtain ⟨page, _, rfl⟩ := map_eq_ok_iff.1 h
    exact .form rfl
  · refine Run.ends_pure (.list fun content hcontent => ?_)
    obtain ⟨page, _, rfl⟩ := List.mem_map.1 hcontent
    exact .form rfl

/-- What an operator makes conforms to the structure of what it makes. -/
theorem makeContent_conforms {op : Operator} (hop : ∀ name, op ≠ .func name) :
    (e.makeContent p m params c op).Gives fun content =>
      content.Conforms e.library.registry (op.formFor c) := by
  cases op with
  | llm user system => exact runLlm_conforms
  | imgGen source => exact runImgGen_conforms
  | extract views => exact runExtract_conforms
  | func name => exact absurd rfl (hop name)
  | compose source =>
    refine Run.gives_lift fun content h => ?_
    obtain ⟨text, _, rfl⟩ := map_eq_ok_iff.1 h
    exact .form rfl

/-- Content of a structure that a concept takes conforms to the structure of the concept. -/
theorem conforms_of_takes {r : Registry} {shape : String} {content : Content} (h : c.Takes shape)
    (hcontent : content.Conforms r shape) : content.Conforms r c.shape := by
  rcases h with h | h
  · rw [h]
    exact .any
  · rw [h]
    exact hcontent

/-- The concept of what a pipe of a loaded library puts out is canonical, and it is the declared one
unless another is asked for. -/
theorem outputConcept_canonical (hl : e.library.Loaded) (hp : e.library.Registered p)
    (h : e.outputConcept p params = .ok c) :
    c.Canonical ∧ (params.dynamic = none → c = p.output) := by
  unfold outputConcept at h
  split at h
  · next reference hreference _ =>
    split at h
    · next hresolve =>
      cases h
      refine ⟨hl.canonical.1.resolve hresolve, ?_⟩
      intro hnone
      rw [hnone] at hreference
      cases hreference
    · cases h
  · cases h
    exact ⟨hl.canonical.2 p hp, fun _ => rfl⟩

/-! ## Runs that fit -/

/-- A pipe that a run may come to: every pipe that it reaches fits, itself also with the concept
that is asked of it, and what is running may be running. -/
structure Ready (e : Engine) (start : RunParams) (p : Pipe) (params : RunParams) : Prop where
  registered : e.library.Registered p
  fits : ∀ q, e.library.Reaches p q → e.library.Fits start q.output q
  asked : ∀ c, e.outputConcept p params = .ok c → e.library.Fits start c p
  dry : params.dry = start.dry
  stack : ∀ code ∈ params.stack, e.library.MayRun start code p

/-- A pipe that fits by itself. -/
theorem Ready.fits_self (h : e.Ready start p params) : e.library.Fits start p.output p :=
  h.fits p .refl

/-- A pipe may be running when it runs. -/
theorem Ready.onStack (h : e.Ready start p params) : e.Ready start p (onStack params p) where
  registered := h.registered
  fits := h.fits
  asked := h.asked
  dry := h.dry
  stack code hcode := by
    rcases List.mem_append.1 hcode with hcode | hcode
    · exact h.stack code hcode
    · rw [List.mem_singleton.1 hcode]
      exact .inr ⟨p, h.registered, .refl⟩

/-- A run may come to the pipes that a pipe runs, of which no concept is asked. -/
theorem Ready.leads {q : Pipe} {params' : RunParams} (hk : e.library.Keyed)
    (h : e.Ready start p params) (hq : e.library.Leads p q) (hdry : params'.dry = params.dry)
    (hstack : params'.stack = params.stack) (hdynamic : params'.dynamic = none) :
    e.Ready start q params' where
  registered := by
    obtain ⟨code, _, hget⟩ := hq
    exact hk.registered hget
  fits a ha := h.fits a (.head hq ha)
  asked c hc := by
    have hc : c = q.output := by
      unfold outputConcept at hc
      rw [hdynamic] at hc
      cases hc
      rfl
    rw [hc]
    exact h.fits q (.single hq)
  dry := hdry.trans h.dry
  stack code hcode := by
    rw [hstack] at hcode
    rcases h.stack code hcode with hcode | ⟨a, ha, hreach⟩
    · exact .inl hcode
    · exact .inr ⟨a, ha, hreach.tail hq⟩

/-- What a run leaves: a typed memory, whose latest result is one that the pipe may leave, if no
concept is asked of it. -/
def Left (e : Engine) (start : RunParams) (p : Pipe) (params : RunParams) (o : Option String)
    (m : Memory) : Prop :=
  m.Typed e.library.registry ∧ (params.dynamic = none →
    ∃ o', e.library.Leaves start p o o' ∧ m.Latest e.library.registry o')

/-- Every run of a pipe that a run may come to leaves a typed memory in place of one. -/
def Preserves (e : Engine) (start : RunParams) (run : Runner) : Prop :=
  ∀ code p m params name o, e.library.pipes.get? code = some p → e.Ready start p params →
    m.Typed e.library.registry → m.Latest e.library.registry o →
      (run code m params name).Gives (e.Left start p params o)

/-- An operator stores content that conforms to the structure of its concept. -/
theorem runOperator_left {op : Operator} (hl : e.library.Loaded) (h : e.Ready start p params)
    (hkind : p.kind = .operator op) (hm : m.Typed e.library.registry) :
    (e.runOperator p op m params name).Gives (e.Left start p params o) := by
  refine Run.gives_lift_bind fun c hc => ?_
  obtain ⟨hcanonical, hdeclared⟩ := outputConcept_canonical hl h.registered hc
  obtain ⟨hop, htakes⟩ := (h.asked c hc).takes hkind hcanonical
  refine (makeContent_conforms hop).bind fun content hcontent => ?_
  refine Run.gives_lift_bind fun ⟨stored, m'⟩ hm' => ?_
  obtain ⟨htyped, hlatest⟩ := storeResult_typed hm (conforms_of_takes htakes hcontent) hm'
  refine Run.ends_mark_bind (Run.ends_pure ⟨htyped, fun hdynamic => ?_⟩)
  rw [hdeclared hdynamic] at hcontent
  exact ⟨_, .operator hkind, hlatest _ hcontent⟩

/-! ## Controllers -/

section Controllers

variable {run : Runner} {target : Pipe} {r : Registry}

/-- The items of a list conform to the structure of its concept. -/
theorem batchItems_conforms {list : String} {items : List Content} (hm : m.Typed r)
    (h : batchItems m list = .ok (c, items)) : ∀ item ∈ items, item.Conforms r c.shape := by
  obtain ⟨s, hs, rfl, hlist⟩ := batchItems_ok h
  have hconforms := hm.conforms (Memory.find?_of_get hs)
  rw [hlist] at hconforms
  exact fun item hitem => hconforms.item hitem

/-- A batch stores a list that conforms to the structure of its concept, if the concept takes what
its branch leaves. -/
theorem runBatch_left {owner branch : String} {b : Batching} {output : Concept}
    (hrun : e.Preserves start run) (ht : e.library.pipes.get? branch = some target)
    (hready : e.Ready start target params.nested) (hlists : e.library.Lists start target output)
    (hm : m.Typed e.library.registry) :
    (e.runBatch run owner branch b output m params name).Gives fun m' =>
      m'.Typed e.library.registry ∧ m'.Latest e.library.registry (some output.shape) := by
  refine runBatch_gives.imp fun m' ⟨c, items, contents, stored, hitems, hmapped, hstored⟩ => ?_
  have hconforms := batchItems_conforms hm hitems
  have hlist : (Content.list contents).Conforms e.library.registry output.shape := by
    rcases hlists with hdynamic | hlists
    · rw [hdynamic]
      exact .any
    · refine .list fun content hcontent => ?_
      obtain ⟨item, hitem, left, latest, hleft, hmain, rfl⟩ := exists_of_forall₂ hmapped hcontent
      have hitemMemory : (itemMemory m b.item c item).Typed e.library.registry :=
        hm.set (hconforms item hitem) b.item
      have hgives := hrun branch target _ params.nested none none ht hready hitemMemory
        Memory.latest_none
      obtain ⟨o', hleaves, hlatest⟩ := (hgives.post_of_ok hleft).2 rfl
      obtain ⟨s, hs, hcontent'⟩ := hlatest output.shape (hlists o' hleaves)
      rw [Memory.find?_of_main hmain, Option.some.injEq] at hs
      rw [hs]
      exact hcontent'
  obtain ⟨htyped, hlatest⟩ := storeResult_typed hm hlist hstored
  exact ⟨htyped, hlatest _ hlist⟩

/-- A step leaves what it may leave. -/
theorem runStep_left {s : Step} (hk : e.library.Keyed) (hrun : e.Preserves start run)
    (h : e.Ready start p params) (hs : e.library.StepFits start s)
    (hleads : ∀ target, e.library.pipes.get? s.pipe = some target → e.library.Leads p target)
    (hlinked : e.library.StepLinked s) (hm : m.Typed e.library.registry)
    (ho : m.Latest e.library.registry o) :
    (e.runStep run p s m (params.forStep s)).Gives fun m' =>
      m'.Typed e.library.registry ∧
        ∃ o', e.library.StepLeaves start s o o' ∧ m'.Latest e.library.registry o' := by
  obtain ⟨target, ht, _⟩ := hlinked
  have hlead := hleads target ht
  unfold runStep
  cases hb : s.batching with
  | none =>
    have hready : e.Ready start target (params.forStep s) := h.leads hk hlead rfl rfl rfl
    refine (hrun _ _ _ _ _ o ht hready hm ho).imp fun m' ⟨htyped, hleft⟩ => ⟨htyped, ?_⟩
    obtain ⟨o', hleaves, hlatest⟩ := hleft rfl
    exact ⟨o', .once hb ht hleaves, hlatest⟩
  | some b =>
    refine Run.gives_lift_bind fun found hfound => ?_
    rw [batchTarget, Library.pipe_of_get? ht] at hfound
    cases hfound
    have hregistered := hk.registered ht
    have hready : e.Ready start target (params.forStep s).nested := h.leads hk hlead rfl rfl rfl
    refine (runBatch_left hrun hregistered hready
      (hs (by rw [hb]; rfl) target ht) hm).imp fun m' ⟨htyped, hlatest⟩ => ⟨htyped, ?_⟩
    exact ⟨_, .each hb ht, hlatest⟩

/-- Steps that run one after another leave what they may leave. -/
theorem runSteps_left {steps : List Step} (hk : e.library.Keyed) (hrun : e.Preserves start run)
    (h : e.Ready start p params) (hs : ∀ s ∈ steps, e.library.StepFits start s)
    (hleads : ∀ s ∈ steps, ∀ target, e.library.pipes.get? s.pipe = some target →
      e.library.Leads p target)
    (hlinked : ∀ s ∈ steps, e.library.StepLinked s) (hm : m.Typed e.library.registry)
    (ho : m.Latest e.library.registry o) :
    (e.runSteps run p params m steps).Gives fun m' =>
      m'.Typed e.library.registry ∧
        ∃ o', e.library.StepsLeave start steps o o' ∧ m'.Latest e.library.registry o' := by
  induction steps generalizing m o with
  | nil => exact Run.ends_pure ⟨hm, o, .nil, ho⟩
  | cons s rest ih =>
    rw [List.forall_mem_cons] at hs hleads hlinked
    refine (runStep_left hk hrun h hs.1 hleads.1 hlinked.1 hm ho).bind
      fun m₁ ⟨hm₁, o₁, hstep, ho₁⟩ => ?_
    refine (ih hs.2 hleads.2 hlinked.2 hm₁ ho₁).imp fun m' ⟨hm', o', hrest, ho'⟩ => ?_
    exact ⟨hm', o', .cons hstep hrest, ho'⟩

/-- A sequence leaves what its steps leave. -/
theorem runSequence_left {steps : List Step} (hk : e.library.Keyed) (hrun : e.Preserves start run)
    (h : e.Ready start p params) (hkind : p.kind = .sequence steps)
    (hlinked : ∀ s ∈ steps, e.library.StepLinked s) (hm : m.Typed e.library.registry)
    (ho : m.Latest e.library.registry o) :
    (e.runSequence run p steps m params name).Gives (e.Left start p params o) := by
  have hfits := h.fits_self.steps hkind
  refine (runSteps_left hk hrun h hfits (fun s hs _ ht => Library.leads_of_step hkind hs ht) hlinked
    hm ho).bind fun m₁ ⟨hm₁, o', hleaves, ho'⟩ => ?_
  refine Run.gives_lift_bind fun _ _ => ?_
  refine Run.gives_lift fun m' hm' => ?_
  obtain ⟨htyped, hlatest⟩ := storeAs_typed hm₁ ho' hm'
  exact ⟨htyped, fun _ => ⟨o', .sequence hkind hleaves, hlatest⟩⟩

/-- Each branch has the latest result of its memory under its name. -/
theorem branchResults_ok {f : Step → Run Memory} {branches : List Step} {memories : List Memory}
    {results : List (String × Stuff)}
    (hm : List.Forall₂ (fun r m => r.result = .ok m) (branches.map f) memories)
    (h : branchResults branches memories = .ok results) :
    List.Forall₂ (fun s result => ∃ m, (f s).result = .ok m ∧ m.main = .ok result.2 ∧
      result.1 = resultName s) branches results := by
  have hall := forall₂_of_mapM (mapError_eq_ok_iff.1 h)
  clear h
  induction branches generalizing memories results with
  | nil =>
    cases hm
    cases hall
    exact .nil
  | cons s branches ih =>
    cases hm with
    | cons hhead htail =>
      cases hall with
      | cons hresult hrest =>
        obtain ⟨stuff, hstuff, rfl⟩ := map_eq_ok_iff.1 hresult
        exact .cons ⟨_, hhead, hstuff, rfl⟩ (ih htail hrest)

/-- The last of the results of branches is found as the latest result. -/
theorem find?_storeResults {results : List (String × Stuff)} {last : String × Stuff}
    (hlast : results.getLast? = some last) (h : storeResults m results = .ok m') :
    m'.find? Memory.mainAlias = some { last.2 with name := last.1 } := by
  simp only [storeResults, hlast] at h
  obtain ⟨before, rfl⟩ := List.getLast?_eq_some_iff.1 hlast
  refine Memory.find?_set_setAlias (m := storeEach m before) ?_
  simpa [storeEach] using h

/-- Storing the results of branches keeps a memory typed, and the last of them is the latest
result. -/
theorem storeResults_typed {results : List (String × Stuff)} (hm : m.Typed r)
    (h : ∀ result ∈ results, result.2.content.Conforms r result.2.concept.shape)
    (hm' : storeResults m results = .ok m') :
    m'.Typed r ∧ ∀ last, results.getLast? = some last → ∀ shape,
      last.2.content.Conforms r shape → m'.Latest r (some shape) := by
  refine ⟨storeResults_holds (Memory.typed_iff_holds.1 hm) h hm', ?_⟩
  intro last hlast shape hshape shape' hshape'
  cases hshape'
  exact ⟨_, find?_storeResults hlast hm', hshape⟩

/-- A parallel leaves what its last branch leaves, or the record that combines the results. -/
theorem runParallel_left {q : Parallel} (hk : e.library.Keyed) (hrun : e.Preserves start run)
    (h : e.Ready start p params) (hkind : p.kind = .parallel q) (hproper : p.kind.Proper)
    (hlinked : ∀ s ∈ q.branches, e.library.StepLinked s) (hm : m.Typed e.library.registry)
    (ho : m.Latest e.library.registry o) :
    (e.runParallel run p q m params name).Gives (e.Left start p params o) := by
  have hfits := h.fits_self.branches hkind
  have hbranch : ∀ s ∈ q.branches, (e.runStep run p s m (params.forStep s)).Gives fun m' =>
      m'.Typed e.library.registry ∧
        ∃ o', e.library.StepLeaves start s o o' ∧ m'.Latest e.library.registry o' := fun s hs =>
    runStep_left hk hrun h (hfits s hs) (fun _ ht => Library.leads_of_branch hkind hs ht)
      (hlinked s hs) hm ho
  refine Run.gives_lift_bind fun _ _ => ?_
  refine (Run.ends_join fun r hr => ?_).bind fun memories hmemories => ?_
  · obtain ⟨s, hs, rfl⟩ := List.mem_map.1 hr
    exact (hbranch s hs).imp fun _ _ => trivial
  refine Run.gives_lift_bind fun results hresults => ?_
  have hall := branchResults_ok hmemories hresults
  have hconforms : ∀ result ∈ results,
      result.2.content.Conforms e.library.registry result.2.concept.shape := by
    intro result hresult
    obtain ⟨s, hs, m', hm', hmain, _⟩ := exists_of_forall₂ hall hresult
    exact ((hbranch s hs).post_of_ok hm').1.conforms (Memory.find?_of_main hmain)
  refine Run.gives_lift_bind fun m₁ hm₁ => ?_
  have hstored : m₁.Typed e.library.registry := by
    cases heach : q.addEach with
    | false =>
      rw [heach] at hm₁
      cases hm₁
      exact hm
    | true =>
      rw [heach, if_pos rfl] at hm₁
      exact (storeResults_typed hm hconforms hm₁).1
  split
  · next hnone =>
    obtain ⟨heach, s, hs⟩ := hproper.stores hkind hnone
    obtain ⟨result, hresult, m', hm', hmain, _⟩ := exists_of_forall₂_getLast? hall hs
    obtain ⟨o', hleaves, ho'⟩ :=
      ((hbranch s (List.mem_of_getLast? hs)).post_of_ok hm').2
    have hlatest : m₁.Latest e.library.registry o' := by
      intro shape hshape
      obtain ⟨stuff, hstuff, hconforms'⟩ := ho' shape hshape
      rw [Memory.find?_of_main hmain, Option.some.injEq] at hstuff
      rw [← hstuff] at hconforms'
      rw [heach, if_pos rfl] at hm₁
      exact (storeResults_typed hm hconforms hm₁).2 result hresult shape hconforms' shape rfl
    refine Run.gives_lift fun m' h => ?_
    obtain ⟨htyped, hlatest'⟩ := storeAs_typed hstored hlatest h
    exact ⟨htyped, fun _ => ⟨o', .last hkind hnone hs hleaves, hlatest'⟩⟩
  · next c hsome =>
    refine Run.gives_lift_bind fun content hcontent => ?_
    have hread : content.Conforms e.library.registry c.shape :=
      Registry.read_conforms (mapError_eq_ok_iff.1 hcontent)
    refine Run.gives_lift_bind fun ⟨stored, m'⟩ hm' => ?_
    obtain ⟨htyped, hlatest⟩ := storeResult_typed hstored hread hm'
    exact Run.ends_mark_bind (Run.ends_pure
      ⟨htyped, fun _ => ⟨_, .combined hkind hsome, hlatest _ hread⟩⟩)

/-- The text by which a condition chooses may hide the latest result, but changes no value. -/
theorem aliased_typed {d : Condition} {text : String} (hm : m.Typed r) (ho : m.Latest r o)
    (h : aliased m text d.aliasTarget = .ok m') : m'.Typed r ∧ m'.Latest r (d.known o) := by
  refine ⟨aliased_holds (Memory.typed_iff_holds.1 hm) h, ?_⟩
  unfold Condition.known
  cases halias : d.aliasTarget with
  | none =>
    rw [halias] at h
    cases h
    exact ho
  | some target => exact Memory.latest_none

/-- A condition leaves what the pipe leaves to which it leads, or what was the latest result
before. -/
theorem runCondition_left {d : Condition} (hk : e.library.Keyed) (hrun : e.Preserves start run)
    (h : e.Ready start p params) (hkind : p.kind = .condition d)
    (hcodes : ∀ code ∈ d.pipes, e.library.pipes.contains code = true)
    (hm : m.Typed e.library.registry) (ho : m.Latest e.library.registry o) :
    (runCondition run p d m params name).Gives (e.Left start p params o) := by
  refine Run.gives_lift_bind fun text _ => ?_
  refine Run.gives_lift_bind fun m₁ hm₁ => ?_
  obtain ⟨hm₁, ho₁⟩ := aliased_typed hm ho hm₁
  have houtcome : ∀ code ∈ d.pipes,
      (run code m₁ params.nested name).Gives (e.Left start p params o) := by
    intro code hcode
    obtain ⟨target, ht⟩ := Dict.exists_of_contains (hcodes code hcode)
    have hready : e.Ready start target params.nested :=
      h.leads hk (Library.leads_of_outcome hkind hcode ht) rfl rfl rfl
    refine (hrun _ _ _ _ _ _ ht hready hm₁ ho₁).imp fun m' ⟨htyped, hleft⟩ => ⟨htyped, fun _ => ?_⟩
    obtain ⟨o', hleaves, hlatest⟩ := hleft rfl
    exact ⟨o', .outcome hkind hcode ht hleaves, hlatest⟩
  refine Run.ends_mark_bind (Run.ends_mark_bind ?_)
  cases hdry : params.dry with
  | true =>
    rw [if_pos rfl]
    refine explore_gives houtcome fun hall => ⟨hm₁, fun _ => ?_⟩
    exact ⟨_, .skip hkind (h.dry ▸ hdry) fun code hcode => h.stack code (hall code hcode), ho₁⟩
  | false =>
    rw [if_neg (by simp)]
    cases hout : d.outcome text with
    | keep =>
      have hkeep : Outcome.keep ∈ d.outcomes.values ++ [d.default] := hout ▸ d.outcome_mem text
      exact Run.ends_pure ⟨hm₁, fun _ => ⟨_, .keep hkind (h.dry ▸ hdry) hkeep, ho₁⟩⟩
    | fail => exact Run.ends_fail trivial
    | run code => exact houtcome code (Condition.mem_pipes_of_outcome hout)

end Controllers

/-! ## All runs -/

/-- What one pipe does: it leaves a typed memory if the pipes that it runs do. -/
theorem dispatch_left (hl : e.library.Loaded) {run : Runner} (hrun : e.Preserves start run)
    (h : e.Ready start p params) (hm : m.Typed e.library.registry)
    (ho : m.Latest e.library.registry o) :
    (e.dispatch run p m params name).Gives (e.Left start p params o) := by
  have hsettled := hl.settled
  have hk := hsettled.linked.keyed
  have hlinked := hsettled.linked.pipes p h.registered
  have hproper := (hsettled.declared p h.registered).proper
  refine Run.ends_mark_bind (Run.gives_lift_bind fun _ _ => ?_)
  unfold Library.PipeLinked at hlinked
  cases hkind : p.kind with
  | sequence steps =>
    simp only [hkind] at hlinked
    exact runSequence_left hk hrun h hkind hlinked hm ho
  | parallel q =>
    simp only [hkind] at hlinked
    exact runParallel_left hk hrun h hkind hproper hlinked hm ho
  | condition d =>
    simp only [hkind] at hlinked
    exact runCondition_left hk hrun h hkind hlinked.2 hm ho
  | batch branch b =>
    simp only [hkind] at hlinked
    obtain ⟨target, ht, _⟩ := hlinked
    have hready : e.Ready start target params.nested :=
      h.leads hk (Library.leads_of_batch hkind ht) rfl rfl rfl
    have hlists := h.fits_self.lists hkind ht
    exact (runBatch_left hrun ht hready hlists hm).imp fun m' ⟨htyped, hlatest⟩ =>
      ⟨htyped, fun _ => ⟨_, .batch hkind, hlatest⟩⟩
  | operator op => exact runOperator_left hl h hkind hm

/-- What all runs do. -/
theorem runWithin_preserves (hl : e.library.Loaded) (start : RunParams) (levels : Nat) :
    e.Preserves start (e.runWithin levels) := by
  intro code p m params name o hp h hm ho
  refine runWithin_induct e (motive := fun code m params name r =>
    ∀ p o, e.library.pipes.get? code = some p → e.Ready start p params →
      m.Typed e.library.registry → m.Latest e.library.registry o →
        r.Gives (e.Left start p params o))
    ?missing ?overflow ?step levels code m params name p o hp h hm ho
  case missing =>
    intro code m params name cause place _ p o _ _ _ _
    exact Run.Ends.located trivial
  case overflow =>
    intro code m params name p place _ p' o _ _ _ _
    exact Run.Ends.located trivial
  case step =>
    intro run hrun code m params name p place hlookup p' o hp' h hm ho
    simp only [lookup, Library.pipe_of_get? hp'] at hlookup
    cases hlookup
    have hpreserves : e.Preserves start run := fun code p m params name o =>
      hrun code m params name p o
    exact (dispatch_left hl hpreserves h.onStack hm ho).located

/-- Runs keep memories typed: a run of a pipe of a loaded library that leaves a memory leaves a
typed one in place of a typed one, if the pipe and every pipe that it reaches fit. -/
theorem run_typed (hl : e.library.Loaded) (hp : e.library.Registered p)
    (hfits : ∀ q, e.library.Reaches p q → e.library.Fits params q.output q)
    (hasked : ∀ c, e.outputConcept p params = .ok c → e.library.Fits params c p)
    (hm : m.Typed e.library.registry)
    (h : (e.run p.code m params name).result = .ok m') : m'.Typed e.library.registry := by
  have hready : e.Ready params p params := ⟨hp, hfits, hasked, rfl, fun _ hcode => .inl hcode⟩
  have hrun := runWithin_preserves hl params (e.config.maxDepth - params.layer) p.code p m params
    name none hp hready hm Memory.latest_none
  exact (hrun.post_of_ok h).1

end Engine

/-! ## Titles and posters -/

namespace Library

/-- A pipe that makes a text of a word, whatever it declares. -/
def wordPipe (code : String) (output : NativeConcept) : Pipe where
  code
  domain := "gallery"
  description := ""
  inputs := .ofList [("word", ⟨NativeConcept.text.concept, .single⟩)]
  output := output.concept
  multiplicity := .single
  kind := .operator (.compose "${{ word }}")

/-- A pipe that runs another one for each of several words. -/
def wordsPipe (code branch : String) (output : NativeConcept) : Pipe where
  code
  domain := "gallery"
  description := ""
  inputs := .ofList [("words", ⟨NativeConcept.text.concept, .list⟩)]
  output := output.concept
  multiplicity := .list
  kind := .batch branch ⟨"words", "word"⟩

/-- A text that is declared as a text. -/
def title : Pipe := wordPipe "title" .text

/-- Titles that are declared as texts. -/
def titles : Pipe := wordsPipe "titles" "title" .text

/-- A text that is declared as an image. -/
def poster : Pipe := wordPipe "poster" .image

/-- A library whose titles fit, and whose posters and listed remarks do not. -/
def gallery : Library where
  domains := .ofList [("gallery", ⟨"gallery", none, none⟩)]
  concepts := .initial
  pipes := .ofList [
    ("title", title),
    ("titles", titles),
    ("poster", poster),
    ("remark", wordPipe "remark" .dynamic),
    ("remarks", wordsPipe "remarks" "remark" .image)]

/-- The bundle that makes `gallery`. -/
def galleryBundle : Bundle where
  domain := ⟨"gallery", none, none⟩
  concepts := .empty
  pipes := .ofList [
    ("title", ⟨⟨"", .ofList [("word", "Text")], "Text"⟩, .compose "${{ word }}"⟩),
    ("titles", ⟨⟨"", .ofList [("words", "Text[]")], "Text[]"⟩, .batch "title" "words" "word"⟩),
    ("poster", ⟨⟨"", .ofList [("word", "Text")], "Image"⟩, .compose "${{ word }}"⟩),
    ("remark", ⟨⟨"", .ofList [("word", "Text")], "Dynamic"⟩, .compose "${{ word }}"⟩),
    ("remarks", ⟨⟨"", .ofList [("words", "Text[]")], "Image[]"⟩, .batch "remark" "words" "word"⟩)]
  mainPipe := none

theorem gallery_loaded : gallery.Loaded := by
  refine .load .initial (b := galleryBundle) (eq_ok_of_toOption ?_)
  decide +kernel

/-- The titles run a title and nothing else. -/
theorem reaches_titles {q : Pipe} (h : gallery.Reaches titles q) : q = titles ∨ q = title := by
  have htitle : gallery.pipes.get? "title" = some title := by decide
  refine eq_or_eq_of_reaches ?_ ?_ h
  · rintro a ⟨code, hcode, hget⟩
    rw [List.mem_singleton.1 hcode, htitle] at hget
    exact (Option.some.inj hget).symm
  · rintro a ⟨code, hcode, _⟩
    exact absurd hcode List.not_mem_nil

/-- The titles fit, and so does a title. -/
theorem titles_fits {start : RunParams} {q : Pipe} (h : gallery.Reaches titles q) :
    gallery.Fits start q.output q := by
  have htitle : gallery.pipes.get? "title" = some title := by decide
  rcases reaches_titles h with rfl | rfl
  · intro target ht
    rw [htitle] at ht
    cases ht
    right
    intro o ho
    cases ho with
    | operator hp =>
      cases hp
      rfl
    | batch hp | sequence hp | combined hp | last hp | outcome hp | keep hp | skip hp => cases hp
  · intro shape hshape
    cases hshape
    exact .inr rfl

end Library

namespace Engine

/-- A memory that holds a word and a list of words. -/
def words : Memory :=
  let hold (m : Memory) (name : String) (c : Content) :=
    m.set name (m.fresh name NativeConcept.text.concept c)
  hold (hold .empty "word" (.text "red")) "words" (.list [.text "red", .text "blue"])

theorem words_typed {r : Registry} : words.Typed r := by
  refine (Memory.typed_empty.set (.form rfl) _).set (.list ?_) _
  intro c hc
  simp only [List.mem_cons, List.not_mem_nil, or_false] at hc
  rcases hc with rfl | rfl
  · exact .form rfl
  · exact .form rfl

/-- The structure of the concept of a variable, and those that call for the forms of its content or,
if it is a list, of its items. -/
def heldForms (m : Memory) (name : String) : Option (String × List (Option String)) :=
  (m.entries.get? name).map fun s => (s.concept.shape, match s.content with
    | .list items => items.map Content.form?
    | c => [c.form?])

/-- A memory in which a variable has a form that the structure of its concept does not call for. -/
theorem not_typed_of_heldForms {name shape form : String} {forms : List (Option String)}
    {r : Registry} (h : heldForms m name = some (shape, forms))
    (hdynamic : shape ≠ Structure.dynamicContent) (hform : some form ∈ forms)
    (hne : form ≠ shape) : ¬ m.Typed r := by
  intro hm
  obtain ⟨s, hs, hforms⟩ := Option.map_eq_some_iff.1 h
  obtain ⟨rfl, rfl⟩ := Prod.mk.inj hforms
  have hconforms := hm name s hs
  split at hform
  · next items hitems =>
    rw [hitems] at hconforms
    obtain ⟨c, hc, hcform⟩ := List.mem_map.1 hform
    exact hne ((hconforms.item hc).form?_eq hdynamic hcform)
  · exact hne (hconforms.form?_eq hdynamic (List.mem_singleton.1 hform).symm)

/-- An engine for the gallery, in which branches end in their order. -/
def galleryEngine : Engine where
  library := Library.gallery
  schedule := ⟨id, fun _ => .refl _⟩

/-- What does not fit leaves untyped memories: an operator that makes a text and declares an image,
a batch that lists texts as images, and an operator of which an image is asked. -/
theorem gallery_untyped : ∀ asked ∈ [("poster", ({} : RunParams)), ("remarks", {}),
      ("remark", { dynamic := some "Image" })],
    ∃ m', (galleryEngine.run asked.1 words asked.2 none).result = .ok m' ∧
      ¬ m'.Typed Library.gallery.registry := by
  have hforms : ∀ asked ∈ [("poster", ({} : RunParams)), ("remarks", {}),
        ("remark", { dynamic := some "Image" })],
      ((galleryEngine.run asked.1 words asked.2 none).result.toOption.bind
        (heldForms · asked.1)).any (fun held => held.1 == Structure.imageContent &&
          held.2.contains (some Structure.textContent)) = true := by
    decide +kernel
  intro asked hasked
  have h := hforms asked hasked
  simp only [Option.any_eq_true, Option.bind_eq_some_iff, Bool.and_eq_true, beq_iff_eq,
    List.contains_iff_mem] at h
  obtain ⟨⟨shape, forms⟩, ⟨m', hm', hheld⟩, hshape, hform⟩ := h
  obtain rfl : shape = Structure.imageContent := hshape
  exact ⟨m', eq_ok_of_toOption hm', not_typed_of_heldForms hheld (by decide) hform (by decide)⟩

/-- Not every run of a loaded library without functions keeps a memory typed. -/
theorem not_forall_run_typed : ¬ ∀ (e : Engine) (p : Pipe) (m m' : Memory) (params : RunParams)
      (name : Option String), e.library.Loaded → e.library.Registered p →
    (∀ q function, e.library.Reaches p q → q.kind ≠ .operator (.func function)) →
    m.Typed e.library.registry → (e.run p.code m params name).result = .ok m' →
      m'.Typed e.library.registry := by
  intro hall
  obtain ⟨m', hm', huntyped⟩ := gallery_untyped ("poster", {}) List.mem_cons_self
  have hp : Library.gallery.Registered Library.poster := by
    unfold Library.Registered
    decide
  refine huntyped (hall galleryEngine Library.poster words m' {} none Library.gallery_loaded hp
    (fun q function hq => ?_) words_typed hm')
  rcases Relation.ReflTransGen.cases_head hq with rfl | ⟨_, hleads, _⟩
  · nofun
  · obtain ⟨code, hcode, _⟩ := hleads
    exact absurd hcode List.not_mem_nil

/-- The titles of words keep a memory typed. -/
theorem run_titles_typed : Library.gallery.Loaded ∧ Library.gallery.Registered Library.titles ∧
    words.Typed Library.gallery.registry ∧
    ∃ m', (galleryEngine.run "titles" words {} none).result = .ok m' ∧
      m'.Typed Library.gallery.registry := by
  have hp : Library.gallery.Registered Library.titles := by
    unfold Library.Registered
    decide
  have hruns : (galleryEngine.run "titles" words {} none).result.toOption.isSome = true := by
    decide +kernel
  obtain ⟨m', hm'⟩ := Option.isSome_iff_exists.1 hruns
  refine ⟨Library.gallery_loaded, hp, words_typed, m', eq_ok_of_toOption hm', ?_⟩
  refine run_typed (e := galleryEngine) (p := Library.titles) Library.gallery_loaded hp
    (fun q hq => Library.titles_fits hq) (fun c hc => ?_) words_typed (eq_ok_of_toOption hm')
  cases hc
  exact Library.titles_fits .refl

end Engine

end Conduit
