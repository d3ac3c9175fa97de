import Conduit.Proofs.Memory.Calls
import Conduit.Proofs.Run.Ends

/-!
# What a run calls

A run works on its memory by calls of the operations of memories, one after another. It stores
values, makes `main` stand for results, and makes the texts that conditions evaluate stand for
variables; observers are told of each of these texts (`Engine.run_calls`). The branches of a batch
or a parallel work on memories of their own, of which only results come back, and a condition that
explores several pipes goes on with the memory of one of them. So what holds of a memory and is kept
by calls holds of what a run leaves.

That observers are told is said by `Run.GivesUnder`: what a run leaves is known under a condition on
the marks in its trace.
-/

namespace Conduit

variable {α β : Type}

/-! ## Runs that leave certain marks -/

namespace Run

variable {mark : Mark → Prop} {post : α → Prop} {post' : β → Prop} {r : Run α} {f : α → Run β}

/-- A run that leaves only marks that satisfy `mark` gives, if it succeeds, what satisfies
`post`. -/
def GivesUnder (mark : Mark → Prop) (r : Run α) (post : α → Prop) : Prop :=
  r.Leaves mark → r.Gives post

theorem Ends.under (h : r.Gives post) : r.GivesUnder mark post :=
  fun _ => h

theorem GivesUnder.imp {post' : α → Prop} (h : r.GivesUnder mark post)
    (hpost : ∀ a, post a → post' a) : r.GivesUnder mark post' :=
  fun hleaves => (h hleaves).imp hpost

/-- A run that goes on after another leaves the marks of both. -/
theorem GivesUnder.bind (hr : r.GivesUnder mark post)
    (hf : ∀ a, post a → (f a).GivesUnder mark post') : (r >>= f).GivesUnder mark post' := by
  intro hleaves
  change ∀ x ∈ (Run.bind r f).trace, mark x at hleaves
  change (Run.bind r f).Gives post'
  unfold Run.bind at hleaves ⊢
  cases hresult : r.result with
  | error e => exact trivial
  | ok a =>
    rw [hresult] at hleaves
    have hgives := hr fun x hx => hleaves x (List.mem_append_left _ hx)
    exact hf a (hgives.post_of_ok hresult) fun x hx => hleaves x (List.mem_append_right _ hx)

theorem GivesUnder.lift_bind {x : Except RunCause α}
    (h : ∀ a, x = .ok a → (f a).GivesUnder mark post') : (liftM x >>= f).GivesUnder mark post' :=
  .bind (gives_lift fun _ ha => ha).under h

/-- A run that goes on after a mark may use what is known of it. -/
theorem GivesUnder.mark_bind {x : Mark} {f : Unit → Run β}
    (h : mark x → (f ()).GivesUnder mark post') : (Run.mark x >>= f).GivesUnder mark post' := by
  intro hleaves
  have hx : mark x := hleaves x List.mem_cons_self
  exact GivesUnder.bind (gives_any _).under (fun _ _ => h hx) hleaves

theorem GivesUnder.located {place : Place} (h : r.GivesUnder mark post) :
    (r.located place).GivesUnder mark post :=
  fun hleaves => (h hleaves).located

end Run

/-! ## Calls that may be made -/

namespace Memory

variable {may : String → String → Prop} {m m₁ m' : Memory} {c : Call}

/-- A call that a run may make. Of the aliases that it asks for by themselves each has to be one
that may be made. -/
def Call.Within (may : String → String → Prop) : Call → Prop
  | .set .. | .setMain .. | .storeMain .. => True
  | .setAlias name target => may name target
  | .add .. => False

/-- A memory is reached from another by calls that a run may make. -/
def Reaches (may : String → String → Prop) (m m' : Memory) : Prop :=
  ∃ calls, m' = m.after calls ∧ ∀ c ∈ calls, c.Within may

theorem Reaches.refl : m.Reaches may m :=
  ⟨[], rfl, nofun⟩

theorem Reaches.single (hc : c.Within may) (h : (m.perform c).2 = m') : m.Reaches may m' :=
  ⟨[c], h.symm, by simpa using hc⟩

theorem Reaches.trans (h : m.Reaches may m₁) (h' : m₁.Reaches may m') : m.Reaches may m' := by
  obtain ⟨calls, rfl, hcalls⟩ := h
  obtain ⟨later, rfl, hlater⟩ := h'
  refine ⟨calls ++ later, (after_append m calls later).symm, fun c hc => ?_⟩
  exact (List.mem_append.1 hc).elim (hcalls c) (hlater c)

theorem setAlias_reaches {name target : String} (h : m.setAlias name target = .ok m')
    (hmay : may name target) : m.Reaches may m' := by
  refine .single (c := .setAlias name target) hmay ?_
  rw [perform, h]

end Memory

namespace Engine

variable {e : Engine} {run : Runner} {p : Pipe} {m m' : Memory} {params : RunParams}
  {name : Option String} {mark : Mark → Prop} {may : String → String → Prop}

theorem storeResult_reaches {pipe stored : String} {c : Concept} {content : Content}
    (h : storeResult m pipe c content name = .ok (stored, m')) : m.Reaches may m' := by
  refine .single (c := .setMain (m.fresh (name.getD pipe) c content) name) trivial ?_
  rw [Memory.perform, stored_ok h]

theorem storeAs_reaches (h : storeAs m name = .ok m') : m.Reaches may m' := by
  cases name with
  | none =>
    cases h
    exact .refl
  | some key =>
    simp only [storeAs, map_eq_ok_iff] at h
    obtain ⟨⟨⟨⟩, m₁⟩, hstored, rfl⟩ := h
    refine .single (c := .storeMain key) trivial ?_
    rw [Memory.perform, stored_ok hstored]

theorem storeEach_reaches (results : List (String × Stuff)) :
    m.Reaches may (storeEach m results) := by
  induction results generalizing m with
  | nil => exact .refl
  | cons r results ih => exact .trans (.single (c := .set r.1 r.2) trivial rfl) ih

theorem storeResults_reaches {results : List (String × Stuff)}
    (hmain : ∀ target, may Memory.mainAlias target) (h : storeResults m results = .ok m') :
    m.Reaches may m' := by
  unfold storeResults at h
  split at h
  · cases h
    exact .refl
  · exact (storeEach_reaches results).trans
      (Memory.setAlias_reaches (mapError_eq_ok_iff.1 h) (hmain _))

/-! ## Calls of a run -/

/-- Observers are told that a condition has evaluated a text, and the condition makes the text stand
for a variable. -/
def Aliased (e : Engine) (trace : List Mark) (text target : String) : Prop :=
  ∃ key p c layer, e.library.pipes.get? key = some p ∧ p.kind = .condition c ∧
    c.aliasTarget = some target ∧
    Mark.event (.conditionStep p.code layer c.subject.source text) ∈ trace

/-- The texts of which observers are told in a mark may be made to stand for variables. -/
def Permits (e : Engine) (may : String → String → Prop) (x : Mark) : Prop :=
  ∀ text target, e.Aliased [x] text target → may text target

/-- Every run of a runner works by calls that it may make, if the texts that its conditions evaluate
may be made aliases. -/
def RunsWithin (e : Engine) (may : String → String → Prop) (run : Runner) : Prop :=
  ∀ code m params name,
    (run code m params name).GivesUnder (e.Permits may) fun m' => m.Reaches may m'

theorem givesUnder_trans {m₁ : Memory} {r : Run Memory} (h : m.Reaches may m₁)
    (hr : r.GivesUnder mark fun m' => m₁.Reaches may m') :
    r.GivesUnder mark fun m' => m.Reaches may m' :=
  hr.imp fun _ hm' => h.trans hm'

theorem runBatch_reaches (owner branch : String) (b : Batching) (output : Concept) :
    (e.runBatch run owner branch b output m params name).GivesUnder mark
      fun m' => m.Reaches may m' :=
  (runBatch_gives.imp fun _ ⟨_, _, _, _, _, _, hstored⟩ => storeResult_reaches hstored).under

theorem runStep_reaches (hrun : e.RunsWithin may run) (s : Step) :
    (e.runStep run p s m params).GivesUnder (e.Permits may) fun m' => m.Reaches may m' := by
  unfold runStep
  cases s.batching with
  | none => exact hrun _ _ _ _
  | some b => exact .lift_bind fun target _ => runBatch_reaches _ _ _ _

theorem runSteps_reaches (hrun : e.RunsWithin may run) (steps : List Step) :
    (e.runSteps run p params m steps).GivesUnder (e.Permits may) fun m' => m.Reaches may m' := by
  induction steps generalizing m with
  | nil => exact (Run.ends_pure .refl).under
  | cons s rest ih =>
    exact .bind (runStep_reaches hrun s) fun m₁ hm₁ => givesUnder_trans hm₁ ih

/-- The branches of a parallel work on memories of their own, so what they do does not matter. -/
theorem runParallel_reaches (hmain : ∀ target, may Memory.mainAlias target) (q : Parallel) :
    (e.runParallel run p q m params name).Gives fun m' => m.Reaches may m' := by
  refine Run.gives_lift_bind fun _ _ => .bind (Run.gives_any _) fun memories _ => ?_
  refine Run.gives_lift_bind fun results _ => Run.gives_lift_bind fun m₁ hm₁ => ?_
  have hresults : m.Reaches may m₁ := storeResults_reaches hmain hm₁
  split
  · exact Run.gives_lift fun m' hm' => hresults.trans (storeAs_reaches hm')
  · refine Run.gives_lift_bind fun content _ => Run.gives_lift_bind fun ⟨stored, m'⟩ hm' => ?_
    exact .bind (Run.gives_any _) fun _ _ => hresults.trans (storeResult_reaches hm')

theorem exploreEach_reaches (hrun : e.RunsWithin may run) (codes : List String) :
    (exploreEach run m params name codes).GivesUnder (e.Permits may) fun explored =>
      ∀ result ∈ explored, m.Reaches may result.2 := by
  induction codes with
  | nil => exact (Run.ends_pure nofun).under
  | cons code rest ih =>
    unfold exploreEach
    split
    · exact ih
    · refine .bind (hrun code m _ name) fun m₁ hm₁ => .bind ih fun explored hexplored => ?_
      refine (Run.ends_pure ?_).under
      rw [List.forall_mem_cons]
      exact ⟨hm₁, hexplored⟩

/-- A condition asks for no alias but the one of the text of which observers are told. -/
theorem runCondition_reaches (hrun : e.RunsWithin may run) {code : String} {c : Condition}
    (hp : e.library.pipes.get? code = some p) (hkind : p.kind = .condition c) :
    (runCondition run p c m params name).GivesUnder (e.Permits may) fun m' => m.Reaches may m' := by
  refine .lift_bind fun text _ => .lift_bind fun m₁ hm₁ => ?_
  refine .mark_bind fun hpermits => .mark_bind fun _ => ?_
  have haliased : m.Reaches may m₁ := by
    cases htarget : c.aliasTarget with
    | none =>
      rw [htarget] at hm₁
      cases hm₁
      exact .refl
    | some target =>
      rw [htarget] at hm₁
      refine Memory.setAlias_reaches (mapError_eq_ok_iff.1 hm₁) (hpermits text target ?_)
      exact ⟨code, p, c, _, hp, hkind, htarget, List.mem_cons_self⟩
  refine givesUnder_trans haliased ?_
  split
  · refine .bind (exploreEach_reaches hrun _) fun explored hexplored => ?_
    exact (Run.ends_pure (elim_choice hexplored fun _ => .refl)).under
  · cases c.outcome text with
    | keep => exact (Run.ends_pure .refl).under
    | fail => exact (Run.ends_fail trivial).under
    | run code => exact hrun _ _ _ _

/-- One pipe works by calls that it may make, if the pipes that it runs do. -/
theorem dispatch_reaches (hmain : ∀ target, may Memory.mainAlias target)
    (hrun : e.RunsWithin may run) {code : String} (hp : e.library.pipes.get? code = some p) :
    (e.dispatch run p m params name).GivesUnder (e.Permits may) fun m' => m.Reaches may m' := by
  refine .mark_bind fun _ => .lift_bind fun _ _ => ?_
  cases hkind : p.kind with
  | sequence steps =>
    refine .bind (runSteps_reaches hrun steps) fun m₁ hm₁ => .lift_bind fun _ _ => ?_
    exact (Run.gives_lift fun m' hm' => hm₁.trans (storeAs_reaches hm')).under
  | parallel q => exact (runParallel_reaches hmain q).under
  | condition c => exact runCondition_reaches hrun hp hkind
  | batch branch b => exact runBatch_reaches _ _ _ _
  | operator op =>
    refine .lift_bind fun c _ => .bind (Run.gives_any _).under fun content _ => ?_
    refine .lift_bind fun ⟨stored, m'⟩ hm' => .mark_bind fun _ => ?_
    exact (Run.ends_pure (storeResult_reaches hm')).under

/-- All runs work by calls that they may make. -/
theorem runWithin_reaches (hmain : ∀ target, may Memory.mainAlias target) (levels : Nat) :
    e.RunsWithin may (e.runWithin levels) := by
  intro code m params name
  refine runWithin_induct e (motive := fun _ m _ _ r =>
    r.GivesUnder (e.Permits may) fun m' => m.Reaches may m') ?missing ?overflow ?step levels code m
    params name
  case missing => exact fun _ _ _ _ _ _ _ => (Run.ends_fail trivial).under.located
  case overflow => exact fun _ _ _ _ _ _ _ => (Run.ends_fail trivial).under.located
  case step =>
    intro run hrun code m params name p place hlookup
    have hp : e.library.pipes.get? code = some p :=
      Library.pipe_eq_ok_iff.1 (mapError_eq_ok_iff.1 hlookup)
    exact (dispatch_reaches hmain hrun hp).located

/-- What a run does to its memory is a list of calls. The aliases that they ask for by themselves
are `main` and the texts that the conditions of the run evaluate to alias a variable. -/
theorem run_calls {code : String} (h : (e.run code m params name).result = .ok m') :
    ∃ calls, m' = m.after calls ∧ ∀ c ∈ calls, c.Within fun text target =>
      text = Memory.mainAlias ∨ e.Aliased (e.run code m params name).trace text target := by
  refine (runWithin_reaches (fun _ => .inl rfl) _ code m params name ?_).post_of_ok h
  rintro x hx text target ⟨key, p, c, layer, hp, hkind, htarget, hmem⟩
  obtain rfl := List.mem_singleton.1 hmem
  exact .inr ⟨key, p, c, layer, hp, hkind, htarget, hx⟩

end Engine

end Conduit
