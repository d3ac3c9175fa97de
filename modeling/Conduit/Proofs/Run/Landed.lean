import Conduit.Proofs.Run.Isolated
import Conduit.Proofs.Run.Output
import Conduit.Proofs.Run.Written

/-!
# Results land under their names

A live run that is asked to store its result under a name leaves that name as the one of the latest
result, unless it comes to a condition that keeps what was there (`Library.RoutesToKeep`), and the
value that is stored under the name is the latest result (`Engine.run_landed`). Looking up the name
gives this value exactly if there is no alias of the name besides.

The pipe to which the conditions lead (`Library.Routes`) stores its result, which drops an alias of
the name. Only a sequence may leave an alias: if its steps happen to leave the name as that of the
latest result, it stores nothing more, and an alias that a step has made of the name goes on hiding
the value (`Engine.not_forall_run_landed`).
-/

namespace Conduit

/-! ## Where conditions lead -/

namespace Library

/-- A live run of a pipe on a memory comes, through conditions, to a pipe that is no condition. -/
inductive Routes (l : Library) : Pipe → Memory → Pipe → Prop where
  | here {p : Pipe} {m : Memory} (hp : ∀ c, p.kind ≠ .condition c) : Routes l p m p
  | outcome {p q d : Pipe} {m m₁ : Memory} {code : String} (hp : p.Chooses m (.run code) m₁)
      (hq : l.pipes.get? code = some q) (h : Routes l q m₁ d) : Routes l p m d

/-- A live run of a pipe on a memory comes, through conditions, to one that keeps what was there. -/
inductive RoutesToKeep (l : Library) : Pipe → Memory → Prop where
  | keep {p : Pipe} {m m₁ : Memory} (hp : p.Chooses m .keep m₁) : RoutesToKeep l p m
  | outcome {p q : Pipe} {m m₁ : Memory} {code : String} (hp : p.Chooses m (.run code) m₁)
      (hq : l.pipes.get? code = some q) (h : RoutesToKeep l q m₁) : RoutesToKeep l p m

end Library

namespace Engine

variable {e : Engine} {run : Runner} {p q : Pipe} {m m' : Memory} {params : RunParams} {n : String}

/-! ## Storing under a name -/

/-- A value that is stored and becomes the latest result has its name to itself. -/
theorem set_setAlias_lands {s : Stuff} (h : (m.set n s).setAlias Memory.mainAlias n = .ok m') :
    m'.mainName? = some n ∧ m'.aliases.contains n = false := by
  obtain ⟨hne, rfl⟩ := Memory.set_setAlias_eq h
  simp [Memory.mainName?, hne.symm]

theorem storeResult_lands {pipe stored : String} {c : Concept} {content : Content}
    (h : storeResult m pipe c content (some n) = .ok (stored, m')) :
    m'.mainName? = some n ∧ m'.aliases.contains n = false := by
  obtain ⟨rfl, halias⟩ := storeResult_ok h
  exact set_setAlias_lands halias

/-- The last of the results of branches has its name to itself. -/
theorem storeResults_lands {results : List (String × Stuff)} {last : String × Stuff}
    (hlast : results.getLast? = some last) (h : storeResults m results = .ok m') :
    m'.mainName? = some last.1 ∧ m'.aliases.contains last.1 = false := by
  simp only [storeResults, hlast] at h
  obtain ⟨before, rfl⟩ := List.getLast?_eq_some_iff.1 hlast
  refine set_setAlias_lands (m := storeEach m before) (s := last.2) ?_
  simpa [storeEach] using h

/-- The latest result that is stored under another name has it to itself, unless it had it already
and did not. -/
theorem storeAs_lands (h : storeAs m (some n) = .ok m') : m'.mainName? = some n ∧
    (m'.aliases.contains n = true → m.mainName? = some n ∧ m.aliases.contains n = true) := by
  simp only [storeAs, map_eq_ok_iff] at h
  obtain ⟨⟨⟨⟩, m₁⟩, hstored, rfl⟩ := h
  obtain ⟨s, _, ⟨hname, rfl⟩ | halias⟩ := Memory.storeMain_ok (stored_ok hstored)
  · exact ⟨hname, fun hn => ⟨hname, hn⟩⟩
  · obtain ⟨hname, hfree⟩ := set_setAlias_lands halias
    refine ⟨hname, fun hn => ?_⟩
    rw [hfree] at hn
    cases hn

/-! ## Runs that land -/

/-- A pipe may leave an alias of the name of its result: a sequence may, and so might a parallel
that does nothing with its results, if a bundle could declare one. -/
def MayHide (p : Pipe) : Prop :=
  (∃ steps, p.kind = .sequence steps) ∨ ¬ p.kind.Proper

/-- What is known of a memory that a run leaves which is asked to store under a name. An alias of
the name comes from the pipe to which the conditions lead. -/
structure Lands (e : Engine) (n : String) (p : Pipe) (m m' : Memory) : Prop where
  main : m'.mainName? = some n
  hidden : m'.aliases.contains n = true → ∃ q, e.library.Routes p m q ∧ MayHide q

/-- Every live run of a runner lands, unless it comes to a condition that keeps what was there. -/
def LandsAll (e : Engine) (run : Runner) (n : String) : Prop :=
  ∀ code m params, params.dry = false → (run code m params (some n)).Gives fun m' =>
    ∃ p, e.library.pipes.get? code = some p ∧
      (e.library.RoutesToKeep p m ∨ e.Lands n p m m')

/-- A result that has its name to itself. -/
theorem Lands.of_free (h : m'.mainName? = some n ∧ m'.aliases.contains n = false) :
    e.Lands n p m m' where
  main := h.1
  hidden hn := by
    rw [h.2] at hn
    cases hn

/-- A sequence stores its result unless it has its name. -/
theorem runSequence_lands {steps : List Step} (hkind : p.kind = .sequence steps) :
    (e.runSequence run p steps m params (some n)).Gives (e.Lands n p m) := by
  refine .bind (Run.gives_any _) fun m₁ _ => Run.gives_lift_bind fun _ _ => ?_
  refine Run.gives_lift fun m' hm' => ⟨(storeAs_lands hm').1, fun _ => ⟨p, .here ?_, ?_⟩⟩
  · intro c hc
    rw [hkind] at hc
    cases hc
  · exact .inl ⟨steps, hkind⟩

/-- A parallel stores its last result, or the record of all of them, if it does anything with
them. -/
theorem runParallel_lands {b : Parallel} (hkind : p.kind = .parallel b) :
    (e.runParallel run p b m params (some n)).Gives (e.Lands n p m) := by
  have hnot : ∀ c, p.kind ≠ .condition c := by
    intro c hc
    rw [hkind] at hc
    cases hc
  refine Run.gives_lift_bind fun _ _ => ?_
  refine (Run.ends_join fun r _ => r.gives_any).bind fun memories hmemories => ?_
  refine Run.gives_lift_bind fun results hresults => Run.gives_lift_bind fun m₁ hm₁ => ?_
  split
  · next hnone =>
    refine Run.gives_lift fun m' hm' => ⟨(storeAs_lands hm').1, fun hn => ⟨p, .here hnot, ?_⟩⟩
    refine .inr fun hproper => ?_
    obtain ⟨heach, s, hs⟩ := hproper.stores hkind hnone
    obtain ⟨last, hlast, _⟩ := exists_of_forall₂_getLast? (branchResults_ok hmemories hresults) hs
    rw [heach, if_pos rfl] at hm₁
    obtain ⟨hmain, hfree⟩ := storeResults_lands hlast hm₁
    obtain ⟨hname, hhidden⟩ := (storeAs_lands hm').2 hn
    rw [hmain, Option.some.injEq] at hname
    rw [← hname, hfree] at hhidden
    cases hhidden
  · refine Run.gives_lift_bind fun content _ => Run.gives_lift_bind fun ⟨stored, m'⟩ hm' => ?_
    exact Run.ends_mark_bind (Run.ends_pure (.of_free (storeResult_lands hm')))

/-- A condition leaves what the pipe leaves to which it leads. -/
theorem runCondition_lands {c : Condition} (hrun : e.LandsAll run n) (hlive : params.dry = false)
    (hkind : p.kind = .condition c) :
    (runCondition run p c m params (some n)).Gives fun m' =>
      e.library.RoutesToKeep p m ∨ e.Lands n p m m' := by
  refine Run.gives_lift_bind fun text htext => Run.gives_lift_bind fun m₁ hm₁ => ?_
  refine Run.ends_mark_bind (Run.ends_mark_bind ?_)
  have hchooses : p.Chooses m (c.outcome text) m₁ := ⟨c, text, hkind, htext, hm₁, rfl⟩
  rw [hlive, if_neg (by simp)]
  cases hout : c.outcome text with
  | keep =>
    rw [hout] at hchooses
    exact Run.ends_pure (.inl (.keep hchooses))
  | fail => exact Run.ends_fail trivial
  | run code =>
    rw [hout] at hchooses
    refine (hrun code m₁ params.nested hlive).imp fun m' ⟨q, hq, hm'⟩ => ?_
    rcases hm' with hkeep | hlands
    · exact .inl (.outcome hchooses hq hkeep)
    · refine .inr ⟨hlands.main, fun hn => ?_⟩
      obtain ⟨d, hroutes, hhides⟩ := hlands.hidden hn
      exact ⟨d, .outcome hchooses hq hroutes, hhides⟩

/-- What one pipe does: its result lands if those of the pipes do that it runs. -/
theorem dispatch_lands (hrun : e.LandsAll run n) (hlive : params.dry = false) :
    (e.dispatch run p m params (some n)).Gives fun m' =>
      e.library.RoutesToKeep p m ∨ e.Lands n p m m' := by
  refine Run.ends_mark_bind (Run.gives_lift_bind fun _ _ => ?_)
  cases hkind : p.kind with
  | sequence steps => exact (runSequence_lands hkind).imp fun _ => .inr
  | parallel b => exact (runParallel_lands hkind).imp fun _ => .inr
  | condition c => exact runCondition_lands hrun hlive hkind
  | batch branch b =>
    refine runBatch_gives.imp fun m' ⟨_, _, _, _, _, _, hstored⟩ => .inr ?_
    exact .of_free (storeResult_lands hstored)
  | operator op =>
    refine Run.gives_lift_bind fun c _ => .bind (Run.gives_any _) fun content _ => ?_
    refine Run.gives_lift_bind fun ⟨stored, m'⟩ hm' => ?_
    exact Run.ends_mark_bind (Run.ends_pure (.inr (.of_free (storeResult_lands hm'))))

/-- What all live runs do. -/
theorem runWithin_lands (e : Engine) (n : String) (levels : Nat) :
    e.LandsAll (e.runWithin levels) n := by
  intro code m params hlive
  refine runWithin_induct e (motive := fun code m params name r =>
    name = some n → params.dry = false → r.Gives fun m' =>
      ∃ p, e.library.pipes.get? code = some p ∧ (e.library.RoutesToKeep p m ∨ e.Lands n p m m'))
    ?missing ?overflow ?step levels code m params (some n) rfl hlive
  case missing => exact fun _ _ _ _ _ _ _ _ _ => Run.Ends.located trivial
  case overflow => exact fun _ _ _ _ _ _ _ _ _ => Run.Ends.located trivial
  case step =>
    rintro run hrun code m params name p place hlookup rfl hlive
    have hp : e.library.pipes.get? code = some p :=
      Library.pipe_eq_ok_iff.1 (mapError_eq_ok_iff.1 hlookup)
    have hall : e.LandsAll run n := fun code m params hlive =>
      hrun code m params (some n) rfl hlive
    have hdispatch : (e.dispatch run p m (onStack params p) (some n)).Gives fun m' =>
        e.library.RoutesToKeep p m ∨ e.Lands n p m m' := dispatch_lands hall hlive
    exact (hdispatch.imp fun m' hm' => ⟨p, hp, hm'⟩).located

/-- A live run that ends well and is asked to store under a name leaves it as the name of the latest
result, which is stored under it, unless the run comes to a condition that keeps what was there.
Looking up the name gives the latest result exactly if there is no alias of the name. Such an alias
is only left by a sequence. -/
theorem run_landed {code : String} (hp : e.library.pipes.get? code = some p)
    (hlive : params.dry = false) (hm : Memory.empty.Written m)
    (hkeep : ¬ e.library.RoutesToKeep p m)
    (h : (e.run code m params (some n)).result = .ok m') :
    m'.mainName? = some n ∧ (∃ s, m'.main = .ok s ∧ s.name = n ∧ m'.entries.get? n = some s ∧
      (m'.find? n = some s ↔ m'.aliases.contains n = false)) ∧
    (m'.aliases.contains n = true → ∃ q, e.library.Routes p m q ∧ MayHide q) := by
  obtain ⟨p', hp', hends⟩ :=
    (runWithin_lands e n (e.config.maxDepth - params.layer) code m params hlive).post_of_ok h
  obtain rfl : p = p' := Option.some.inj (hp.symm.trans hp')
  have hlands := hends.resolve_left hkeep
  have hwritten : Memory.empty.Written m' := hm.trans
    ((runWithin_written (e.config.maxDepth - params.layer) code m params (some n)).post_of_ok h)
  have hanchored : m'.Anchored := Memory.Written.anchored hwritten Memory.anchored_empty
  have hnamed : m'.Named := Memory.Written.named hwritten Memory.named_empty
  obtain ⟨s, hs⟩ := Dict.exists_of_contains (hanchored _ _ hlands.main).2
  have hmain : m'.find? Memory.mainAlias = some s := by
    rw [Memory.find?, Memory.target, ← Memory.mainName?, hlands.main]
    exact hs
  exact ⟨hlands.main, ⟨s, Memory.main_of_find? hmain, hnamed n s hs, hs,
    Memory.find?_eq_iff_not_alias hnamed hanchored hs⟩, hlands.hidden⟩

end Engine

/-! ## Drafts -/

namespace Library

/-- A pipe that makes a text from a topic. -/
def draftsPipe (code : String) (kind : PipeKind) : Pipe where
  code
  domain := "drafts"
  description := ""
  inputs := .ofList [("topic", ⟨NativeConcept.text.concept, .single⟩)]
  output := NativeConcept.text.concept
  multiplicity := .single
  kind

/-- A text about the topic. -/
def writeDraft : Pipe := draftsPipe "write" (.operator (.compose "about ${{ topic }}"))

/-- A condition that keeps what was there, and makes `draft` stand for the topic. -/
def markDraft : Pipe :=
  draftsPipe "mark" (.condition ⟨.expression "'draft'", .empty, .keep, some "topic"⟩)

/-- A draft is written, and hidden by the alias that comes after it. -/
def reviseDraft : Pipe :=
  draftsPipe "revise" (.sequence [⟨"write", some "draft", none, none⟩, ⟨"mark", none, none, none⟩])

/-- A library in which a draft gets hidden. -/
def drafts : Library where
  domains := .ofList [("drafts", ⟨"drafts", none, none⟩)]
  concepts := .initial
  pipes := .ofList [("write", writeDraft), ("mark", markDraft), ("revise", reviseDraft)]

/-- The declaration of a pipe that makes a text from a topic. -/
def draftsDeclaration (body : PipeBody) : PipeBlueprint :=
  ⟨⟨"", .ofList [("topic", "Text")], "Text"⟩, body⟩

/-- The bundle that makes `drafts`. -/
def draftsBundle : Bundle where
  domain := ⟨"drafts", none, none⟩
  concepts := .empty
  pipes := .ofList [
    ("write", draftsDeclaration (.compose "about ${{ topic }}")),
    ("mark", draftsDeclaration
      (.condition ⟨some "'draft'", none, .empty, "continue", some "topic"⟩)),
    ("revise", draftsDeclaration (.sequence [⟨"write", some "draft", none, none, none, none⟩,
      ⟨"mark", none, none, none, none, none⟩]))]
  mainPipe := none

theorem drafts_loaded : drafts.Loaded := by
  refine .load .initial (b := draftsBundle) (eq_ok_of_toOption ?_)
  decide +kernel

end Library

namespace Engine

/-- A memory that holds a topic. -/
def topicMemory : Memory :=
  Memory.empty.set "topic" (Memory.empty.fresh "topic" NativeConcept.text.concept (.text "red"))

theorem topicMemory_written : Memory.empty.Written topicMemory :=
  .single (.stored _ _ _)

theorem reviseDraft_not_routesToKeep {m : Memory} :
    ¬ Library.drafts.RoutesToKeep Library.reviseDraft m := by
  rintro (⟨⟨_, _, hkind, _⟩⟩ | ⟨⟨_, _, hkind, _⟩, _, _⟩)
  · cases hkind
  · cases hkind

/-- An engine for drafts. -/
def draftsEngine : Engine :=
  { galleryEngine with library := Library.drafts }

/-- Not every result that is stored under a name is found under it: the draft that is left as the
latest result is found as the topic. -/
theorem not_forall_run_landed : ¬ ∀ (e : Engine) (p : Pipe) (m m' : Memory) (params : RunParams)
      (n : String), e.library.Loaded → e.library.Registered p → params.dry = false →
    Memory.empty.Written m → n ≠ Memory.mainAlias → ¬ e.library.RoutesToKeep p m →
    (e.run p.code m params (some n)).result = .ok m' →
      m'.mainName? = some n ∧ ∃ s, m'.find? n = some s ∧ m'.main = .ok s ∧ s.name = n := by
  intro hall
  have hnames : ((draftsEngine.run "revise" topicMemory {} (some "draft")).result.toOption.bind
      fun m' => (m'.find? "draft").map Stuff.name) = some "topic" := by
    decide +kernel
  obtain ⟨m', hm', hname⟩ := Option.bind_eq_some_iff.1 hnames
  obtain ⟨_, s, hs, _, hdraft⟩ := hall draftsEngine Library.reviseDraft topicMemory m' {} "draft"
    Library.drafts_loaded (by unfold Library.Registered; decide) rfl topicMemory_written (by decide)
    reviseDraft_not_routesToKeep (eq_ok_of_toOption hm')
  rw [hs, Option.map_some, hdraft] at hname
  exact absurd hname (by decide)

/-- Under another name the draft lands. -/
theorem run_landed_reviseDraft : Library.drafts.pipes.get? "revise" = some Library.reviseDraft ∧
    Memory.empty.Written topicMemory ∧
    ¬ Library.drafts.RoutesToKeep Library.reviseDraft topicMemory ∧
    ∃ m', (draftsEngine.run "revise" topicMemory {} (some "final")).result = .ok m' ∧
      m'.mainName? = some "final" ∧
      ∃ s, m'.find? "final" = some s ∧ m'.main = .ok s ∧ s.name = "final" := by
  have hp : Library.drafts.pipes.get? "revise" = some Library.reviseDraft := by decide
  have hfree : ((draftsEngine.run "revise" topicMemory {} (some "final")).result.toOption.map
      fun m' => m'.aliases.contains "final") = some false := by
    decide +kernel
  obtain ⟨m', hm', hfree⟩ := Option.map_eq_some_iff.1 hfree
  have hrun := eq_ok_of_toOption hm'
  obtain ⟨hname, ⟨s, hs, hfinal, _, hfind⟩, _⟩ := run_landed (e := draftsEngine) hp rfl
    topicMemory_written reviseDraft_not_routesToKeep hrun
  exact ⟨hp, topicMemory_written, reviseDraft_not_routesToKeep, m', hrun, hname, s, hfind.2 hfree,
    hs, hfinal⟩

end Engine

end Conduit
