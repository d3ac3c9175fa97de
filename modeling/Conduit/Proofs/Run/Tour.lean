import Conduit.Proofs.Memory.Populated
import Conduit.Proofs.Run.Dry
import Conduit.Proofs.Run.Route

/-!
# Dry runs come to every pipe

A dry run of a pipe of a loaded library that succeeds has entered every pipe that can be reached
from it, however often the pipes call each other (`Engine.dryRun_enters_reachable`). A condition
explores every pipe that it may lead to but for those that are running already. A batch runs its
branch at least once, for the memories of dry runs are populated: whatever operator or batch has
made a list, it is not without items.

What a condition leaves out is on the stack, so the invariant of the induction is relative to the
stack below a run (`Library.Toured`): the pipes that are asked for, and all pipes that entered pipes
call, have been entered or are on it. A pipe that is entered may be taken off the stack
(`Library.Toured.enter`), and what has been entered on the empty stack is closed under calls.
-/

namespace Conduit

/-! ## Traces that are closed under calls -/

/-- A pipe is entered somewhere in a trace. -/
def Entered (t : List Mark) (code : String) : Prop :=
  ∃ params, .entered code params ∈ t

/-- A pipe is on a stack, or it is entered somewhere in a trace. -/
def Seen (stack : List String) (t : List Mark) (code : String) : Prop :=
  code ∈ stack ∨ Entered t code

/-- The given pipes, and the pipes that entered pipes call, have been entered or are on the
stack. -/
structure Library.Toured (l : Library) (stack codes : List String) (t : List Mark) : Prop where
  named : ∀ code ∈ codes, Seen stack t code
  closed : ∀ caller code, Entered t caller → l.Calls caller code → Seen stack t code

section Traces

variable {l : Library} {stack codes codes' : List String} {t t' : List Mark} {code : String}

theorem not_entered_nil : ¬ Entered [] code := nofun

theorem entered_append : Entered (t ++ t') code ↔ Entered t code ∨ Entered t' code := by
  simp only [Entered, List.mem_append, exists_or]

theorem Seen.append_left (h : Seen stack t code) : Seen stack (t ++ t') code :=
  h.imp_right fun h => entered_append.2 (.inl h)

theorem Seen.append_right (h : Seen stack t' code) : Seen stack (t ++ t') code :=
  h.imp_right fun h => entered_append.2 (.inr h)

namespace Library

/-- Nothing is asked for, and nothing is entered. -/
theorem toured_silent (h : ∀ code, ¬ Entered t code) : l.Toured stack [] t :=
  ⟨nofun, fun caller _ hcaller => absurd hcaller (h caller)⟩

theorem Toured.append (h : l.Toured stack codes t) (h' : l.Toured stack codes' t') :
    l.Toured stack (codes ++ codes') (t ++ t') where
  named code hcode := by
    rcases List.mem_append.1 hcode with hcode | hcode
    · exact (h.named code hcode).append_left
    · exact (h'.named code hcode).append_right
  closed caller code hcaller hcalls := by
    rcases entered_append.1 hcaller with hcaller | hcaller
    · exact (h.closed caller code hcaller hcalls).append_left
    · exact (h'.closed caller code hcaller hcalls).append_right

theorem toured_flatMap {ι : Type} {is : List ι} {g : ι → String} {f : ι → List Mark}
    (h : ∀ i ∈ is, l.Toured stack [g i] (f i)) : l.Toured stack (is.map g) (is.flatMap f) := by
  induction is with
  | nil => exact toured_silent fun _ => not_entered_nil
  | cons i is ih =>
    rw [List.forall_mem_cons] at h
    exact h.1.append (ih h.2)

/-- What is on the stack may be asked for or not. -/
theorem Toured.of_seen (h : l.Toured stack codes t) (hcodes : ∀ code ∈ codes', Seen stack t code) :
    l.Toured stack codes' t :=
  ⟨hcodes, h.closed⟩

/-- A pipe that is entered need not be on the stack. -/
theorem Toured.enter {p : Pipe} {params : RunParams} (hp : l.Registered p)
    (h : l.Toured (stack ++ [p.code]) p.subPipes t) :
    l.Toured stack [p.code] (.entered p.code params :: t) := by
  have hself : Seen stack (.entered p.code params :: t) p.code :=
    .inr ⟨params, List.mem_cons_self⟩
  have hseen : ∀ {code}, Seen (stack ++ [p.code]) t code →
      Seen stack (.entered p.code params :: t) code := by
    rintro code (hstack | ⟨params', ht⟩)
    · rcases List.mem_append.1 hstack with hstack | hcode
      · exact .inl hstack
      · rw [List.mem_singleton.1 hcode]
        exact hself
    · exact .inr ⟨params', List.mem_cons_of_mem _ ht⟩
  refine ⟨?_, ?_⟩
  · intro code hcode
    rw [List.mem_singleton.1 hcode]
    exact hself
  · rintro caller code ⟨params', hcaller⟩ hcalls
    rcases List.mem_cons.1 hcaller with hcaller | hcaller
    · cases hcaller
      obtain ⟨q, hq, hcode⟩ := hcalls
      obtain rfl : p = q := Option.some.inj (hp.symm.trans hq)
      exact hseen (h.named code hcode)
    · exact hseen (h.closed caller code ⟨params', hcaller⟩ hcalls)

/-- On the empty stack every pipe has been entered that can be reached from those asked for. -/
theorem Toured.entered_of_reaches {start : String} (h : l.Toured [] codes t)
    (hstart : start ∈ codes) (hreach : Relation.ReflTransGen l.Calls start code) :
    Entered t code := by
  have hentered : ∀ {code}, Seen [] t code → Entered t code := fun hseen =>
    hseen.resolve_left List.not_mem_nil
  induction hreach with
  | refl => exact hentered (h.named start hstart)
  | tail _ hcalls ih => exact hentered (h.closed _ _ ih hcalls)

end Library

end Traces

/-! ## Runs that tour -/

namespace Run

variable {α β : Type} {l : Library} {stack codes codes' : List String} {post : α → Prop}
  {post' : β → Prop} {r : Run α} {f : α → Run β}

/-- A run that succeeds gives what satisfies `post`, and its trace tours some pipes. -/
def Tours (r : Run α) (l : Library) (stack codes : List String) (post : α → Prop) : Prop :=
  ∀ a, r.result = .ok a → post a ∧ l.Toured stack codes r.trace

theorem tours_pure {a : α} (h : post a) : (Pure.pure a : Run α).Tours l stack [] post := by
  rintro _ ⟨⟩
  exact ⟨h, Library.toured_silent fun _ => not_entered_nil⟩

theorem tours_fail {c : RunCause} : (fail c : Run α).Tours l stack codes post := nofun

/-- A run that goes on after another. -/
theorem Tours.bind (hr : r.Tours l stack codes post)
    (hf : ∀ a, post a → (f a).Tours l stack codes' post') :
    (r >>= f).Tours l stack (codes ++ codes') post' := by
  intro b hb
  change (Run.bind r f).result = .ok b at hb
  change post' b ∧ l.Toured stack (codes ++ codes') (Run.bind r f).trace
  unfold Run.bind at hb ⊢
  cases h : r.result with
  | error e =>
    rw [h] at hb
    cases hb
  | ok a =>
    rw [h] at hb
    obtain ⟨hpost, htrace⟩ := hr a h
    obtain ⟨hpost', htrace'⟩ := hf a hpost b hb
    exact ⟨hpost', htrace.append htrace'⟩

/-- A run that goes on after another and enters no more pipes. -/
theorem Tours.bind_silent (hr : r.Tours l stack codes post)
    (hf : ∀ a, post a → (f a).Tours l stack [] post') : (r >>= f).Tours l stack codes post' := by
  have h := hr.bind hf
  rwa [List.append_nil] at h

/-- What a run tours contains what is asked for less. -/
theorem Tours.imp {post' : α → Prop} (h : r.Tours l stack codes post)
    (hcodes : ∀ code ∈ codes', code ∈ codes) (hpost : ∀ a, post a → post' a) :
    r.Tours l stack codes' post' := by
  intro a ha
  obtain ⟨hpa, htrace⟩ := h a ha
  exact ⟨hpost a hpa, htrace.of_seen fun code hcode => htrace.named code (hcodes code hcode)⟩

/-- A result that is known, on its own. -/
theorem tours_lift {x : Except RunCause α} (h : ∀ a, x = .ok a → post a) :
    (liftM x : Run α).Tours l stack [] post := by
  cases x with
  | ok a => exact tours_pure (h a rfl)
  | error c => exact tours_fail

/-- A run that goes on after a result that is known. -/
theorem tours_lift_bind {x : Except RunCause α}
    (h : ∀ a, x = .ok a → (f a).Tours l stack codes post') :
    (liftM x >>= f).Tours l stack codes post' := by
  have hx : (liftM x : Run α).Tours l stack [] fun a => x = .ok a := tours_lift fun _ ha => ha
  exact hx.bind h

theorem tours_emit {event : Event} : (emit event).Tours l stack [] fun _ => True := by
  refine fun _ _ => ⟨trivial, Library.toured_silent ?_⟩
  rintro code ⟨params, hmem⟩
  cases List.mem_singleton.1 hmem

/-- A run that goes on after observers have been told something. -/
theorem tours_emit_bind {event : Event} {f : Unit → Run β} (h : (f ()).Tours l stack codes post') :
    (emit event >>= f).Tours l stack codes post' :=
  tours_emit.bind fun _ _ => h

theorem tours_forM_emit {ι : Type} {es : ι → Event} {is : List ι} :
    (is.forM fun i => emit (es i)).Tours l stack [] fun _ => True := by
  induction is with
  | nil => exact tours_pure trivial
  | cons i is ih => exact tours_emit_bind ih

/-- A run that goes on after the answer of a generator. -/
theorem tours_ask_bind {pipe : String} {dry : Bool} {request : Request} {reply : Reply α}
    (h : ∀ a, reply.answer = .ok a → (f a).Tours l stack codes post') :
    (ask pipe dry request reply >>= f).Tours l stack codes post' := by
  have hask : (ask pipe dry request reply).Tours l stack [] fun a => reply.answer = .ok a := by
    intro a ha
    refine ⟨mapError_eq_ok_iff.1 ha, Library.toured_silent ?_⟩
    rintro code ⟨params, hmem⟩
    cases dry with
    | true => exact absurd hmem List.not_mem_nil
    | false => cases List.mem_singleton.1 hmem
  exact hask.bind h

/-- A place does not change what a run tours. -/
theorem Tours.located {place : Place} (h : r.Tours l stack codes post) :
    (r.located place).Tours l stack codes post := by
  intro a ha
  change r.result.mapError (·.locate place) = .ok a at ha
  exact h a (mapError_eq_ok_iff.1 ha)

/-- A run of a pipe that is put on the stack, and tours the pipes that it calls there. -/
theorem tours_enter {p : Pipe} {params : RunParams} {f : Unit → Run β} (hp : l.Registered p)
    (h : (f ()).Tours l (stack ++ [p.code]) p.subPipes post') :
    (mark (.entered p.code params) >>= f).Tours l stack [p.code] post' := by
  intro b hb
  obtain ⟨hpost, htrace⟩ := h b hb
  exact ⟨hpost, htrace.enter hp⟩

/-- Branches tour together what each of them tours. They all succeed if they succeed together. -/
theorem tours_join {ι : Type} {s : Schedule} {pipe : String} {is : List ι} {branch : ι → Run Memory}
    {g : ι → String} {post : Memory → Prop}
    (h : ∀ i ∈ is, (branch i).Tours l stack [g i] post) :
    (join s pipe (is.map branch)).Tours l stack (is.map g)
      (List.Forall₂ (fun _ m => post m) is) := by
  intro memories hmemories
  have hall := forall₂_of_join hmemories
  rw [List.forall₂_map_left_iff] at hall
  constructor
  · refine List.forall₂_iff_get.2 ⟨hall.length_eq, fun i hi hi' => ?_⟩
    exact (h _ (List.get_mem is ⟨i, hi⟩) _ ((List.forall₂_iff_get.1 hall).2 i hi hi')).1
  · change l.Toured stack (is.map g) ((is.map branch).flatMap trace)
    rw [List.flatMap_map]
    refine Library.toured_flatMap fun i hi => ?_
    obtain ⟨m, _, hresult⟩ := exists_of_forall₂ hall.flip hi
    exact (h i hi m hresult).2

end Run

namespace Engine

variable {e : Engine} {stack : List String} {run : Runner} {p : Pipe} {m : Memory}
  {params : RunParams} {name : Option String}

/-! ## What runs count on -/

/-- Parameters of a dry run, with the given pipes on the stack, that ask for no list without
items. -/
structure DryOn (stack : List String) (params : RunParams) : Prop where
  dry : params.dry = true
  stack : params.stack = stack
  multiplicity : ∀ asked ∈ params.multiplicity, asked.Positive

theorem DryOn.nested (h : DryOn stack params) : DryOn stack params.nested :=
  ⟨h.dry, h.stack, nofun⟩

theorem DryOn.forStep {s : Step} (h : DryOn stack params)
    (hs : ∀ asked ∈ s.multiplicity, asked.Positive) : DryOn stack (params.forStep s) :=
  ⟨h.dry, h.stack, hs⟩

theorem DryOn.onStack (h : DryOn stack params) (p : Pipe) :
    DryOn (stack ++ [p.code]) (onStack params p) :=
  ⟨h.dry, congrArg (· ++ [p.code]) h.stack, h.multiplicity⟩

/-- No pipe is to make a list without items. -/
theorem DryOn.outputMultiplicity (h : DryOn stack params) (hp : p.Sized) :
    (outputMultiplicity p params).Positive := by
  unfold Engine.outputMultiplicity
  cases hasked : params.multiplicity with
  | none => exact hp.output
  | some asked => exact h.multiplicity asked hasked

/-- Every dry run of a pipe on a stack, by a runner and on a populated memory, tours the pipe and
leaves a populated memory. -/
def ToursOn (e : Engine) (stack : List String) (run : Runner) : Prop :=
  ∀ code m params name, DryOn stack params → m.Populated →
    (run code m params name).Tours e.library stack [code] Memory.Populated

/-! ## Operators -/

section Operators

variable {c : Concept}

/-- The generator of dry runs gives at least one value, unless it is asked for none. -/
theorem requestedCount_ne_zero {multiplicity : Multiplicity} {size : Nat}
    (h : multiplicity.Positive) (hsize : 1 ≤ size) :
    (requestedCount multiplicity).getD size ≠ 0 := by
  cases multiplicity with
  | single => exact Nat.one_ne_zero
  | list => exact Nat.ne_of_gt hsize
  | fixed n => exact fun hn => h (congrArg _ hn)

/-- What a language model makes in a dry run is populated. -/
theorem runLlm_tours {user : String} {system : Option String} (h : DryOn stack params)
    (hp : p.Sized) (hsize : 1 ≤ e.config.listSize) :
    (e.runLlm p m params c user system).Tours e.library stack [] Content.Populated := by
  refine Run.tours_lift_bind fun prompt _ => ?_
  dsimp only
  split
  · split
    · exact Run.tours_ask_bind fun text _ => Run.tours_pure (.item rfl)
    · refine Run.tours_ask_bind fun v _ => Run.tours_lift fun content hcontent => ?_
      exact Registry.read_populated (mapError_eq_ok_iff.1 hcontent)
  · refine Run.tours_ask_bind fun vs hvs => ?_
    refine Run.tours_lift_bind fun _ _ => Run.tours_lift_bind fun items hitems => ?_
    have hall := forall₂_of_mapM (mapError_eq_ok_iff.1 hitems)
    rw [generatorFor_of_dry h.dry] at hvs
    cases hvs
    refine Run.tours_pure (Content.populated_of_length ?_ fun content hcontent => ?_)
    · rw [← hall.length_eq, List.length_replicate]
      exact requestedCount_ne_zero (h.outputMultiplicity hp) hsize
    · obtain ⟨v, _, hv⟩ := exists_of_forall₂ hall hcontent
      exact Registry.read_populated hv

/-- What an image generator makes in a dry run is populated. -/
theorem runImgGen_tours {source : Option String} (h : DryOn stack params) (hp : p.Sized) :
    (e.runImgGen p m params source).Tours e.library stack [] Content.Populated := by
  refine Run.tours_lift_bind fun prompt _ => Run.tours_ask_bind fun images himages => ?_
  refine Run.tours_lift_bind fun _ _ => ?_
  split
  · refine Run.tours_lift fun content hcontent => ?_
    obtain ⟨image, _, rfl⟩ := map_eq_ok_iff.1 hcontent
    exact .item rfl
  · rw [generatorFor_of_dry h.dry] at himages
    cases himages
    refine Run.tours_pure (Content.populated_of_length ?_ fun content hcontent => ?_)
    · rw [List.length_map, List.length_map, List.length_range]
      exact requestedCount_ne_zero (h.outputMultiplicity hp) le_rfl
    · obtain ⟨image, _, rfl⟩ := List.mem_map.1 hcontent
      exact .item rfl

/-- What a page reader makes in a dry run is populated. -/
theorem runExtract_tours {views : Bool} (h : DryOn stack params) (hsize : 1 ≤ e.config.listSize) :
    (e.runExtract p m params views).Tours e.library stack [] Content.Populated := by
  refine Run.tours_lift_bind fun input _ => Run.tours_lift_bind fun document _ => ?_
  refine Run.tours_ask_bind fun pages hpages => ?_
  split
  · refine Run.tours_lift fun content hcontent => ?_
    obtain ⟨page, _, rfl⟩ := map_eq_ok_iff.1 hcontent
    exact .item rfl
  · rw [generatorFor_of_dry h.dry] at hpages
    cases hpages
    refine Run.tours_pure (Content.populated_of_length ?_ fun content hcontent => ?_)
    · rw [List.length_map, List.length_map, List.length_range]
      omega
    · obtain ⟨page, _, rfl⟩ := List.mem_map.1 hcontent
      exact .item rfl

/-- What an operator makes in a dry run is populated, and it runs no pipe. -/
theorem makeContent_tours (h : DryOn stack params) (hp : p.Sized) (hsize : 1 ≤ e.config.listSize)
    (op : Operator) :
    (e.makeContent p m params c op).Tours e.library stack [] Content.Populated := by
  cases op with
  | llm user system => exact runLlm_tours h hp hsize
  | imgGen source => exact runImgGen_tours h hp
  | extract views => exact runExtract_tours h hsize
  | func function =>
    change (e.runFunc p m params c function).Tours e.library stack [] Content.Populated
    unfold runFunc
    rw [if_pos h.dry]
    refine Run.tours_lift fun content hcontent => ?_
    exact ConceptLibrary.placeholder_populated hsize (h.outputMultiplicity hp)
      (mapError_eq_ok_iff.1 hcontent)
  | compose source =>
    refine Run.tours_lift fun content hcontent => ?_
    obtain ⟨text, _, rfl⟩ := map_eq_ok_iff.1 hcontent
    exact .item rfl

theorem runOperator_tours (h : DryOn stack params) (hp : p.Sized) (hsize : 1 ≤ e.config.listSize)
    (hm : m.Populated) (op : Operator) :
    (e.runOperator p op m params name).Tours e.library stack [] Memory.Populated := by
  refine Run.tours_lift_bind fun c _ => ?_
  refine (makeContent_tours h hp hsize op).bind_silent fun content hcontent => ?_
  refine Run.tours_lift_bind fun ⟨stored, m'⟩ hm' => Run.tours_emit_bind (Run.tours_pure ?_)
  exact storeResult_holds hm hcontent hm'

end Operators

/-! ## Controllers -/

section Controllers

/-- The items of a list in a populated memory. -/
theorem batchItems_populated {list : String} {c : Concept} {items : List Content}
    (hm : m.Populated) (h : batchItems m list = .ok (c, items)) :
    items ≠ [] ∧ ∀ item ∈ items, item.Populated := by
  obtain ⟨s, hs, _, hlist⟩ := batchItems_ok h
  have hpopulated := hm.find (Memory.find?_of_get hs)
  rw [hlist] at hpopulated
  exact Content.populated_list_iff.1 hpopulated

/-- A batch runs its branch for some item, and stores a list that has a result for each. -/
theorem runBatch_tours {owner branch : String} {b : Batching} {output : Concept}
    (hrun : e.ToursOn stack run) (h : DryOn stack params) (hm : m.Populated) :
    (e.runBatch run owner branch b output m params name).Tours e.library stack [branch]
      Memory.Populated := by
  refine Run.tours_lift_bind fun ⟨c, items⟩ hitems => ?_
  obtain ⟨hne, hpopulated⟩ := batchItems_populated hm hitems
  refine Run.tours_forM_emit.bind fun _ _ => ?_
  have hbranches : ∀ item ∈ items,
      (run branch (itemMemory m b.item c item) params.nested none).Tours e.library stack [branch]
        Memory.Populated := fun item hitem =>
    hrun _ _ _ _ h.nested (hm.set (hpopulated item hitem) b.item)
  have hsome : ∀ code ∈ [branch], code ∈ items.map fun _ => branch := by
    obtain ⟨item, hitem⟩ := List.exists_mem_of_ne_nil items hne
    intro code hcode
    rw [List.mem_singleton.1 hcode]
    exact List.mem_map.2 ⟨item, hitem, rfl⟩
  refine ((Run.tours_join hbranches).imp hsome fun _ h => h).bind_silent
    fun memories hmemories => Run.tours_lift_bind fun contents hcontents => ?_
  refine Run.tours_lift_bind fun ⟨stored, m'⟩ hm' => Run.tours_emit_bind (Run.tours_pure ?_)
  have hall := mainContents_ok hcontents
  refine storeResult_holds hm (Content.populated_of_length ?_ fun content hcontent => ?_) hm'
  · rw [← hall.length_eq, ← hmemories.length_eq]
    exact fun hlength => hne (List.length_eq_zero_iff.1 hlength)
  · obtain ⟨left, hleft, s, hs, rfl⟩ := exists_of_forall₂ hall hcontent
    obtain ⟨_, _, hpopulated⟩ := exists_of_forall₂ hmemories hleft
    exact hpopulated.find (Memory.find?_of_main hs)

/-- A step runs its pipe, once or for some item. -/
theorem runStep_tours (hk : e.library.Keyed) (hrun : e.ToursOn stack run) (h : DryOn stack params)
    (hm : m.Populated) (s : Step) :
    (e.runStep run p s m params).Tours e.library stack [s.pipe] Memory.Populated := by
  unfold runStep
  cases s.batching with
  | none => exact hrun _ _ _ _ h hm
  | some b =>
    refine Run.tours_lift_bind fun target htarget => ?_
    rw [hk s.pipe target (batchTarget_ok htarget)]
    exact runBatch_tours hrun h hm

theorem runSteps_tours (hk : e.library.Keyed) (hrun : e.ToursOn stack run) (h : DryOn stack params)
    (hm : m.Populated) {steps : List Step}
    (hsteps : ∀ s ∈ steps, ∀ asked ∈ s.multiplicity, asked.Positive) :
    (e.runSteps run p params m steps).Tours e.library stack (steps.map Step.pipe)
      Memory.Populated := by
  induction steps generalizing m with
  | nil => exact Run.tours_pure hm
  | cons s steps ih =>
    rw [List.forall_mem_cons] at hsteps
    exact (runStep_tours hk hrun (h.forStep hsteps.1) hm s).bind fun m₁ hm₁ => ih hm₁ hsteps.2

theorem runSequence_tours (hk : e.library.Keyed) (hrun : e.ToursOn stack run)
    (h : DryOn stack params) (hm : m.Populated) {steps : List Step}
    (hsteps : ∀ s ∈ steps, ∀ asked ∈ s.multiplicity, asked.Positive) :
    (e.runSequence run p steps m params name).Tours e.library stack (steps.map Step.pipe)
      Memory.Populated := by
  refine (runSteps_tours hk hrun h hm hsteps).bind_silent fun m₁ hm₁ => ?_
  refine Run.tours_lift_bind fun _ _ => Run.tours_lift fun m' hm' => ?_
  exact storeAs_holds hm₁ hm'

/-- The results of branches are their latest results. -/
theorem main_of_branchResults {branches : List Step} {memories : List Memory}
    {results : List (String × Stuff)} (h : branchResults branches memories = .ok results) :
    ∀ result ∈ results, ∃ left ∈ memories, left.main = .ok result.2 := by
  intro result hresult
  obtain ⟨⟨s, left⟩, hmem, hmain⟩ :=
    exists_of_forall₂ (forall₂_of_mapM (mapError_eq_ok_iff.1 h)) hresult
  obtain ⟨latest, hlatest, rfl⟩ := map_eq_ok_iff.1 hmain
  exact ⟨left, (List.of_mem_zip hmem).2, hlatest⟩

/-- A parallel runs the pipes of all its branches. -/
theorem runParallel_tours (hk : e.library.Keyed) (hrun : e.ToursOn stack run)
    (h : DryOn stack params) (hm : m.Populated) {q : Parallel}
    (hbranches : ∀ s ∈ q.branches, ∀ asked ∈ s.multiplicity, asked.Positive) :
    (e.runParallel run p q m params name).Tours e.library stack (q.branches.map Step.pipe)
      Memory.Populated := by
  refine Run.tours_lift_bind fun _ _ => ?_
  refine (Run.tours_join fun s hs => runStep_tours hk hrun (h.forStep (hbranches s hs)) hm
    s).bind_silent fun memories hmemories => ?_
  refine Run.tours_lift_bind fun results hresults => ?_
  have hpopulated : ∀ result ∈ results, result.2.content.Populated := by
    intro result hresult
    obtain ⟨left, hleft, hmain⟩ := main_of_branchResults hresults result hresult
    obtain ⟨_, _, hpopulated⟩ := exists_of_forall₂ hmemories hleft
    exact hpopulated.find (Memory.find?_of_main hmain)
  refine Run.tours_lift_bind fun m₁ hm₁ => ?_
  have hstored : m₁.Populated := by
    refine storeResults_holds hm (fun result hresult => hpopulated result ?_) hm₁
    split at hresult
    · exact hresult
    · cases hresult
  split
  · exact Run.tours_lift fun m' hm' => storeAs_holds hstored hm'
  · refine Run.tours_lift_bind fun content hcontent => ?_
    refine Run.tours_lift_bind fun ⟨stored, m'⟩ hm' => Run.tours_emit_bind (Run.tours_pure ?_)
    exact storeResult_holds hstored (Registry.read_populated (mapError_eq_ok_iff.1 hcontent)) hm'

/-- The pipes that are explored are toured, and what is not explored is on the stack. -/
theorem exploreEach_tours (hrun : e.ToursOn stack run) (h : DryOn stack params) (hm : m.Populated)
    (codes : List String) :
    (exploreEach run m params name codes).Tours e.library stack codes fun explored =>
      ∀ result ∈ explored, result.2.Populated := by
  induction codes with
  | nil => exact Run.tours_pure nofun
  | cons code rest ih =>
    unfold exploreEach
    split
    · next hstack =>
      rw [h.stack, List.contains_iff_mem] at hstack
      intro explored hexplored
      obtain ⟨hall, htrace⟩ := ih explored hexplored
      refine ⟨hall, htrace.of_seen ?_⟩
      rw [List.forall_mem_cons]
      exact ⟨.inl hstack, htrace.named⟩
    · refine (hrun _ _ _ _ h.nested hm).bind fun m₁ hm₁ => ih.bind_silent fun explored hall => ?_
      refine Run.tours_pure ?_
      rw [List.forall_mem_cons]
      exact ⟨hm₁, hall⟩

/-- A condition explores all pipes that it may lead to. -/
theorem runCondition_tours (hrun : e.ToursOn stack run) (h : DryOn stack params)
    (hm : m.Populated) {d : Condition} :
    (runCondition run p d m params name).Tours e.library stack d.pipes Memory.Populated := by
  refine Run.tours_lift_bind fun text _ => Run.tours_lift_bind fun m₁ hm₁ => ?_
  have hm₁ : m₁.Populated := aliased_holds hm hm₁
  refine Run.tours_emit_bind (Run.tours_emit_bind ?_)
  rw [if_pos h.dry]
  refine (exploreEach_tours hrun h hm₁ d.pipes).bind_silent fun explored hall => ?_
  exact Run.tours_pure (elim_choice hall fun _ => hm₁)

end Controllers

/-! ## All runs -/

/-- What one pipe does in a dry run: it tours the pipes that it calls, and so it tours itself. -/
theorem dispatch_tours (hl : e.library.Loaded) (hsize : 1 ≤ e.config.listSize)
    (hp : e.library.Registered p) (hrun : e.ToursOn (stack ++ [p.code]) run)
    (h : DryOn (stack ++ [p.code]) params) (hm : m.Populated) :
    (e.dispatch run p m params name).Tours e.library stack [p.code] Memory.Populated := by
  have hk := hl.settled.linked.keyed
  have hsized := hl.sized hp
  refine Run.tours_enter hp (Run.tours_lift_bind fun _ _ => ?_)
  have hsteps := hsized.steps
  cases hkind : p.kind with
  | sequence steps =>
    rw [hkind] at hsteps
    change ∀ s ∈ steps, _ at hsteps
    refine (runSequence_tours hk hrun h hm hsteps).imp (fun code hcode => ?_) fun _ h => h
    simpa only [Pipe.subPipes, hkind, mem_distinct] using hcode
  | parallel q =>
    rw [hkind] at hsteps
    change ∀ s ∈ q.branches, _ at hsteps
    refine (runParallel_tours hk hrun h hm hsteps).imp (fun code hcode => ?_) fun _ h => h
    simpa only [Pipe.subPipes, hkind, mem_distinct] using hcode
  | condition d =>
    simp only [Pipe.subPipes, hkind]
    exact runCondition_tours hrun h hm
  | batch branch b =>
    simp only [Pipe.subPipes, hkind]
    exact runBatch_tours hrun h hm
  | operator op =>
    simp only [Pipe.subPipes, hkind]
    exact runOperator_tours h hsized hsize hm op

/-- What all dry runs do. -/
theorem runWithin_tours (hl : e.library.Loaded) (hsize : 1 ≤ e.config.listSize) (levels : Nat)
    (stack : List String) : e.ToursOn stack (e.runWithin levels) := by
  intro code m params name h hm
  refine runWithin_induct e (motive := fun code m params _ r => ∀ stack, DryOn stack params →
    m.Populated → r.Tours e.library stack [code] Memory.Populated)
    ?missing ?overflow ?step levels code m params name stack h hm
  case missing =>
    intro code m params name cause place _ stack _ _
    exact Run.tours_fail.located
  case overflow =>
    intro code m params name p place _ stack _ _
    exact Run.tours_fail.located
  case step =>
    intro run hrun code m params name p place hlookup stack h hm
    have hk := hl.settled.linked.keyed
    have hp := hk.registered (get?_of_lookup hlookup)
    obtain rfl := hk code p (get?_of_lookup hlookup)
    have hbelow : e.ToursOn (stack ++ [p.code]) run := fun code m params name h hm =>
      hrun code m params name _ h hm
    exact (dispatch_tours hl hsize hp hbelow (h.onStack p) hm).located

/-- A successful dry run of a pipe of a loaded library has entered every pipe that can be reached
from it by calls, any number of them and whether or not the pipes call each other in circles. -/
theorem dryRun_enters_reachable (e : Engine) (p : Pipe) (m' : Memory) (hl : e.library.Loaded)
    (hsize : 1 ≤ e.config.listSize) (hp : e.library.Registered p)
    (h : (e.dryRun p.code).result = .ok m') :
    ∀ code, Relation.ReflTransGen e.library.Calls p.code code →
      ∃ params, .entered code params ∈ (e.dryRun p.code).trace := by
  have htours : (e.dryRun p.code).Tours e.library [] [p.code] Memory.Populated := by
    refine Run.tours_lift_bind fun m hm => ?_
    intro m' hm'
    have hrun := runWithin_tours hl hsize _ [] p.code m { dry := true } none ⟨rfl, rfl, nofun⟩
      (dryMemory_populated hl hsize hp hm) m' (result_of_withTimeout hm')
    unfold execute
    rw [withTimeout_trace]
    exact hrun
  intro code hreach
  exact (htours m' h).2.entered_of_reaches List.mem_cons_self hreach

/-- A dry run of an attempt comes to the judgement and to the writing, though the judgement calls
for another attempt. -/
theorem dryRun_attempt_enters : Library.relay.Loaded ∧ 1 ≤ shallowRelay.config.listSize ∧
    Library.relay.Registered Library.attempt ∧
    ∃ m', (shallowRelay.dryRun "attempt").result = .ok m' ∧
      ∀ code ∈ ["attempt", "judge", "write"],
        ∃ params, .entered code params ∈ (shallowRelay.dryRun "attempt").trace := by
  have hsize : 1 ≤ shallowRelay.config.listSize := by decide
  have hp : Library.relay.Registered Library.attempt := by
    unfold Library.Registered
    decide
  have hjudge : Library.relay.Calls "attempt" "judge" := ⟨Library.attempt, by decide, by decide⟩
  have hattempt : Library.relay.Calls "judge" "attempt" := ⟨Library.judge, by decide, by decide⟩
  have hwrite : Library.relay.Calls "attempt" "write" := ⟨Library.attempt, by decide, by decide⟩
  have hruns : (shallowRelay.dryRun "attempt").result.isOk = true := by
    decide +kernel
  obtain ⟨m', hm'⟩ := exists_of_isOk hruns
  refine ⟨Library.relay_loaded, hsize, hp, m', hm', fun code hcode => ?_⟩
  refine dryRun_enters_reachable shallowRelay Library.attempt m' Library.relay_loaded hsize hp hm'
    code ?_
  -- once around the circle, and then to the writing
  have hround : Relation.ReflTransGen Library.relay.Calls "attempt" "attempt" :=
    .head hjudge (.single hattempt)
  simp only [List.mem_cons, List.not_mem_nil, or_false] at hcode
  rcases hcode with rfl | rfl | rfl
  · exact hround
  · exact hround.tail hjudge
  · exact hround.tail hwrite

end Engine

end Conduit
