import Conduit.Proofs.Run.Join
import Conduit.Run.Pipeline

/-!
# Reasoning about runs

`Run.Ends` says of a run what its result satisfies if it succeeds and what the cause satisfies if it
fails; `Run.Leaves` says of every mark in its trace what it satisfies. Each way to put runs together
has a lemma for both. What branches have in common follows: a batch maps its items to contents
(`Engine.runBatch_gives`), and a dry condition goes on with what it has explored
(`Engine.explore_gives`).

`Engine.runWithin_induct` is the induction over all runs of an engine: what holds of the runs that
find no pipe or no room on the stack, and of every run of a pipe if it holds of the runs below,
holds of all.
-/

namespace Conduit

variable {α β : Type}

/-! ## Results -/

namespace Run

/-- A run that succeeds gives what satisfies `post`, and one that fails does so for a cause that
satisfies `cause`. -/
def Ends (r : Run α) (post : α → Prop) (cause : RunCause → Prop) : Prop :=
  match r.result with
  | .ok a => post a
  | .error e => cause e.cause

/-- A run that succeeds gives what satisfies `post`. -/
abbrev Gives (r : Run α) (post : α → Prop) : Prop :=
  r.Ends post fun _ => True

/-- Every mark that a run leaves satisfies `mark`. -/
def Leaves (r : Run α) (mark : Mark → Prop) : Prop :=
  ∀ x ∈ r.trace, mark x

section Ends

variable {post : α → Prop} {post' : β → Prop} {cause : RunCause → Prop} {r : Run α}
  {f : α → Run β}

theorem ends_pure {a : α} (h : post a) : Ends (Pure.pure a : Run α) post cause := h

theorem ends_fail {c : RunCause} (h : cause c) : Ends (fail c : Run α) post cause := h

theorem ends_mark {m : Mark} : Ends (mark m) (fun _ => True) cause := trivial

theorem ends_emit {e : Event} : Ends (emit e) (fun _ => True) cause := trivial

/-- A result of a run satisfies what its results satisfy. -/
theorem Ends.post_of_ok {a : α} (h : r.Ends post cause) (ha : r.result = .ok a) : post a := by
  unfold Ends at h
  rw [ha] at h
  exact h

/-- A run that goes on after another. -/
theorem Ends.bind (hr : r.Ends post cause) (hf : ∀ a, post a → (f a).Ends post' cause) :
    Ends (r >>= f) post' cause := by
  unfold Ends at hr ⊢
  change match (Run.bind r f).result with | .ok a => post' a | .error e => cause e.cause
  unfold Run.bind
  cases h : r.result with
  | error e =>
    rw [h] at hr
    exact hr
  | ok a =>
    rw [h] at hr
    exact hf a hr

/-- What holds of a run holds of it with a weaker condition on its result. -/
theorem Ends.imp {post' : α → Prop} (h : r.Ends post cause) (hpost : ∀ a, post a → post' a) :
    r.Ends post' cause := by
  unfold Ends at h ⊢
  split at h
  · exact hpost _ h
  · exact h

/-- The run of a result that is known has that result. -/
theorem eq_ok_of_ofExcept {x : Except RunCause α} {a : α} (h : (ofExcept x).result = .ok a) :
    x = .ok a := by
  cases x with
  | ok b =>
    cases h
    rfl
  | error c => cases h

/-- The run of a result that is known. -/
theorem ends_ofExcept {x : Except RunCause α} (hok : ∀ a, x = .ok a → post a)
    (herr : ∀ c, x = .error c → cause c) : (ofExcept x).Ends post cause := by
  cases x with
  | ok a => exact hok a rfl
  | error c => exact herr c rfl

/-- A result that is known, on its own. -/
theorem ends_lift {x : Except RunCause α} (hok : ∀ a, x = .ok a → post a)
    (herr : ∀ c, x = .error c → cause c) : Ends (liftM x : Run α) post cause :=
  ends_ofExcept hok herr

/-- A run that goes on after a result that is known. -/
theorem ends_lift_bind {x : Except RunCause α} (herr : ∀ c, x = .error c → cause c)
    (hok : ∀ a, x = .ok a → (f a).Ends post' cause) : Ends (liftM x >>= f) post' cause := by
  cases x with
  | ok a =>
    have hpure : Ends (ofExcept (.ok a)) (fun b => (.ok b : Except RunCause α) = .ok a) cause := rfl
    exact hpure.bind fun b hb => hok b hb.symm
  | error c => exact herr c rfl

/-- A run that goes on after a mark. -/
theorem ends_mark_bind {m : Mark} {f : Unit → Run β} (h : (f ()).Ends post' cause) :
    Ends (mark m >>= f) post' cause :=
  Ends.bind ends_mark fun _ _ => h

/-- A place does not change how a run ends. -/
theorem Ends.located {place : Place} (h : r.Ends post cause) :
    (r.located place).Ends post cause := by
  unfold Ends at h ⊢
  change match r.result.mapError (·.locate place) with
    | .ok a => post a | .error e => cause e.cause
  cases hr : r.result with
  | ok a =>
    rw [hr] at h
    exact h
  | error e =>
    rw [hr] at h
    exact h

/-- A run that goes on after the answer of a generator. -/
theorem ends_ask_bind {pipe : String} {dry : Bool} {request : Request} {reply : Reply α}
    (herr : ∀ e, cause (.backend pipe e))
    (hok : ∀ a, reply.answer = .ok a → (f a).Ends post' cause) :
    Ends (ask pipe dry request reply >>= f) post' cause := by
  have hask : (ask pipe dry request reply).Ends (fun a => reply.answer = .ok a) cause := by
    unfold Ends ask
    cases h : reply.answer with
    | ok a => exact rfl
    | error e => exact herr e
  exact hask.bind hok

/-- A result that is known, on its own, where no cause matters. -/
theorem gives_lift {x : Except RunCause α} (h : ∀ a, x = .ok a → post a) :
    (liftM x : Run α).Gives post :=
  ends_lift h fun _ _ => trivial

/-- A run that goes on after a result that is known, where no cause matters. -/
theorem gives_lift_bind {x : Except RunCause α} (h : ∀ a, x = .ok a → (f a).Gives post') :
    (liftM x >>= f).Gives post' :=
  ends_lift_bind (fun _ _ => trivial) h

/-- A run that goes on after the answer of a generator, where no cause matters. -/
theorem gives_ask_bind {pipe : String} {dry : Bool} {request : Request} {reply : Reply α}
    (h : ∀ a, (f a).Gives post') : (ask pipe dry request reply >>= f).Gives post' :=
  ends_ask_bind (fun _ => trivial) fun a _ => h a

/-- A run of which nothing is known. -/
theorem gives_any (r : Run α) : r.Gives fun _ => True := by
  unfold Gives Ends
  split <;> trivial

/-- Marks left one after another. -/
theorem ends_forM_emit {γ : Type} (es : γ → Event) (is : List γ) :
    Ends (is.forM fun i => emit (es i)) (fun _ => True) cause := by
  induction is with
  | nil => exact trivial
  | cons i is ih => exact Ends.bind ends_emit fun _ _ => ih

end Ends

section Leaves

variable {mark : Mark → Prop} {r : Run α} {f : α → Run β}

theorem leaves_pure {a : α} : Leaves (Pure.pure a : Run α) mark :=
  fun _ h => absurd h List.not_mem_nil

theorem leaves_fail {c : RunCause} : Leaves (fail c : Run α) mark :=
  fun _ h => absurd h List.not_mem_nil

theorem leaves_ofExcept {x : Except RunCause α} : (ofExcept x).Leaves mark := by
  cases x with
  | ok a => exact leaves_pure
  | error c => exact leaves_fail

theorem leaves_mark {m : Mark} (h : mark m) : (Run.mark m).Leaves mark := by
  intro x hx
  rw [List.mem_singleton.1 hx]
  exact h

/-- A run that goes on after another. -/
theorem Leaves.bind (hr : r.Leaves mark) (hf : ∀ a, (f a).Leaves mark) :
    Leaves (r >>= f) mark := by
  change ∀ x ∈ (Run.bind r f).trace, mark x
  unfold Run.bind
  cases h : r.result with
  | error e => exact hr
  | ok a =>
    intro x hx
    rcases List.mem_append.1 hx with hx | hx
    · exact hr x hx
    · exact hf a x hx

theorem Leaves.located {place : Place} (h : r.Leaves mark) : (r.located place).Leaves mark := h

end Leaves

end Run

/-! ## Branches side by side -/

namespace Run

variable {s : Schedule} {pipe : String} {branches : List (Run Memory)}

/-- How branches that run side by side end together. -/
theorem ends_join {cause : RunCause → Prop}
    (h : ∀ r ∈ branches, r.Ends (fun _ => True) cause) :
    (join s pipe branches).Ends
      (List.Forall₂ (fun r m => r.result = .ok m) branches) cause := by
  unfold Ends
  cases hr : (join s pipe branches).result with
  | ok memories => exact forall₂_of_join hr
  | error e =>
    obtain ⟨r, hmem, he⟩ := exists_of_join_error hr
    have hends := h r hmem
    unfold Ends at hends
    rw [he] at hends
    exact hends

/-- Branches leave together what each of them leaves. -/
theorem leaves_join {mark : Mark → Prop} (h : ∀ r ∈ branches, r.Leaves mark) :
    (join s pipe branches).Leaves mark := by
  intro x hx
  obtain ⟨r, hr, hx⟩ := List.mem_flatMap.1 hx
  exact h r hr x hx

end Run

/-! ## Batches -/

namespace Engine

variable {e : Engine} {run : Runner} {m : Memory} {params : RunParams} {name : Option String}
  {c : Concept}

/-- The items of a list come with the concept of the list. -/
theorem batchItems_ok {list : String} {items : List Content}
    (h : batchItems m list = .ok (c, items)) :
    ∃ s, m.get list = .ok s ∧ s.concept = c ∧ s.content = .list items := by
  simp only [batchItems, bind_eq_ok_iff, mapError_eq_ok_iff] at h
  obtain ⟨s, hs, h⟩ := h
  split at h
  · next hcontent =>
    cases h
    exact ⟨s, hs, rfl, hcontent⟩
  · cases h

/-- The contents of the latest results, one for each memory. -/
theorem mainContents_ok {memories : List Memory} {contents : List Content}
    (h : mainContents memories = .ok contents) :
    List.Forall₂ (fun m content => ∃ s, m.main = .ok s ∧ s.content = content) memories contents :=
  (forall₂_of_mapM (mapError_eq_ok_iff.1 h)).imp fun _ _ hcontent => map_eq_ok_iff.1 hcontent

/-- Some contents are what a branch makes of some items, in their order: the content for an item is
that of the latest result of the run for it. -/
def Mapped (run : Runner) (branch : String) (b : Batching) (m : Memory) (params : RunParams)
    (c : Concept) : List Content → List Content → Prop :=
  List.Forall₂ fun item content => ∃ left latest,
    (run branch (itemMemory m b.item c item) params.nested none).result = .ok left ∧
      left.main = .ok latest ∧ latest.content = content

/-- A batch maps its items to contents and stores these. -/
theorem runBatch_gives {owner branch : String} {b : Batching} {output : Concept} :
    (e.runBatch run owner branch b output m params name).Gives fun m' =>
      ∃ c items contents stored, batchItems m b.list = .ok (c, items) ∧
        Mapped run branch b m params c items contents ∧
        storeResult m owner output (.list contents) name = .ok (stored, m') := by
  refine Run.gives_lift_bind fun ⟨c, items⟩ hitems => ?_
  refine Run.Ends.bind (Run.ends_forM_emit _ _) fun _ _ => ?_
  refine (Run.ends_join fun r _ => r.gives_any).bind fun memories hmemories => ?_
  refine Run.gives_lift_bind fun contents hcontents => ?_
  refine Run.gives_lift_bind fun ⟨stored, m'⟩ hstored => ?_
  refine Run.ends_mark_bind (Run.ends_pure ⟨c, items, contents, stored, hitems, ?_, hstored⟩)
  rw [List.forall₂_map_left_iff] at hmemories
  exact (forall₂_trans hmemories (mainContents_ok hcontents)).imp
    fun _ _ ⟨left, hleft, latest, hlatest⟩ => ⟨left, latest, hleft, hlatest⟩

end Engine

/-! ## Explored pipes -/

namespace Engine

variable {run : Runner} {m : Memory} {params : RunParams} {name : Option String}

/-- The memories that are explored are those that the pipes leave, and there is none only if every
pipe is running already. -/
theorem exploreEach_gives {codes : List String} {post : Memory → Prop}
    (hrun : ∀ code ∈ codes, (run code m params.nested name).Gives post) :
    (exploreEach run m params name codes).Gives fun explored =>
      (∀ result ∈ explored, post result.2) ∧
        (explored = [] → ∀ code ∈ codes, code ∈ params.stack) := by
  induction codes with
  | nil => exact Run.ends_pure ⟨nofun, fun _ => nofun⟩
  | cons code rest ih =>
    rw [List.forall_mem_cons] at hrun
    have hrest := ih hrun.2
    unfold exploreEach
    cases hstack : params.stack.contains code with
    | true =>
      rw [if_pos rfl]
      refine hrest.imp fun explored ⟨hall, hnone⟩ => ⟨hall, fun hempty => ?_⟩
      rw [List.forall_mem_cons]
      exact ⟨List.contains_iff_mem.1 hstack, hnone hempty⟩
    | false =>
      rw [if_neg (by simp)]
      refine hrun.1.bind fun m₁ hm₁ => hrest.bind fun explored ⟨hall, _⟩ => ?_
      refine Run.ends_pure ⟨?_, nofun⟩
      rw [List.forall_mem_cons]
      exact ⟨hm₁, hall⟩

/-- What is gone on with has been explored, or is the memory as it was if nothing has. -/
theorem elim_choice {explored : List (String × Memory)} {chosen : String × Memory → Bool}
    {post : Memory → Prop} (hall : ∀ result ∈ explored, post result.2)
    (hnone : explored = [] → post m) :
    post (((explored.find? chosen).or explored.head?).elim m Prod.snd) := by
  generalize hchoice : (explored.find? chosen).or explored.head? = choice
  cases choice with
  | none =>
    rw [Option.or_eq_none_iff, List.head?_eq_none_iff] at hchoice
    exact hnone hchoice.2
  | some result =>
    rcases Option.or_eq_some_iff.1 hchoice with hfind | ⟨_, hhead⟩
    · exact hall result (List.mem_of_find?_eq_some hfind)
    · exact hall result (List.mem_of_head? hhead)

/-- A dry run goes on with a memory that has been explored, or with the memory as it was if every
pipe is running already. -/
theorem explore_gives {d : Condition} {chosen : Outcome} {post : Memory → Prop}
    (hrun : ∀ code ∈ d.pipes, (run code m params.nested name).Gives post)
    (hskip : (∀ code ∈ d.pipes, code ∈ params.stack) → post m) :
    (explore run d chosen m params name).Gives post := by
  refine (exploreEach_gives hrun).bind fun explored ⟨hall, hnone⟩ => Run.ends_pure ?_
  exact elim_choice hall fun hempty => hskip (hnone hempty)

end Engine

/-! ## All runs -/

namespace Engine

/-- The parameters of a pipe that is put on the stack. -/
def onStack (params : RunParams) (p : Pipe) : RunParams :=
  { params with stack := params.stack ++ [p.code] }

@[simp] theorem dry_onStack (params : RunParams) (p : Pipe) : (onStack params p).dry = params.dry :=
  rfl

/-- What holds of every run that finds no pipe or no room on the stack, and of the run of a pipe by
any runner of whose runs it holds, holds of every run. -/
theorem runWithin_induct (e : Engine)
    {motive : String → Memory → RunParams → Option String → Run Memory → Prop}
    (missing : ∀ code m params name cause place, e.lookup code params = .error cause →
      motive code m params name ((Run.fail cause).located place))
    (overflow : ∀ code m params name p place, e.lookup code params = .ok p →
      motive code m params name
        ((Run.fail (.stackOverflow p.code e.config.maxDepth)).located place))
    (step : ∀ (run : Runner), (∀ code m params name, motive code m params name
        (run code m params name)) →
      ∀ code m params name p place, e.lookup code params = .ok p →
        motive code m params name ((e.dispatch run p m (onStack params p) name).located place))
    (levels : Nat) (code : String) (m : Memory) (params : RunParams) (name : Option String) :
    motive code m params name (e.runWithin levels code m params name) := by
  induction levels generalizing code m params name with
  | zero =>
    unfold runWithin
    cases hp : e.lookup code params with
    | error cause => exact missing _ _ _ _ _ _ hp
    | ok p => exact overflow _ _ _ _ _ _ hp
  | succ levels ih =>
    unfold runWithin
    cases hp : e.lookup code params with
    | error cause => exact missing _ _ _ _ _ _ hp
    | ok p => exact step _ (fun _ _ _ _ => ih ..) _ _ _ _ _ _ hp

end Engine

end Conduit
