import Conduit.Proofs.Memory.Hidden
import Conduit.Proofs.Run.Landed

/-!
# Entries that a run hides

What is known of calls holds of runs, which work by calls (`Engine.run_calls`): an entry is found
under its name exactly if no call has hidden it (`Engine.find?_iff_not_hidden`).

Nothing keeps a text that a condition evaluates from being the name of an entry, and then the
condition hides the entry, as any call may that makes an alias (`Engine.not_forall_find?_eq_entry`).
-/

namespace Conduit

namespace Engine

/-! ## Entries that are found -/

/-- After calls on a memory that was empty, an entry is found under its name exactly if no call has
hidden it. The same holds after a run on such a memory, live or dry: to its calls belong an alias of
each text that a condition evaluates to alias a variable, whatever the text is. -/
theorem find?_iff_not_hidden (before : List Memory.Call) :
    (∀ n s, (Memory.empty.after before).entries.get? n = some s →
      ((Memory.empty.after before).find? n = some s ↔ ¬ Memory.empty.HidesAfter before n)) ∧
    ∀ (e : Engine) (code : String) (m' : Memory) (params : RunParams) (name : Option String),
      (e.run code (Memory.empty.after before) params name).result = .ok m' →
      ∃ calls, m' = Memory.empty.after (before ++ calls) ∧
        (∀ c ∈ calls, c.Within fun text target => text = Memory.mainAlias ∨
          e.Aliased (e.run code (Memory.empty.after before) params name).trace text target) ∧
        ∀ n s, m'.entries.get? n = some s →
          (m'.find? n = some s ↔ ¬ Memory.empty.HidesAfter (before ++ calls) n) := by
  refine ⟨fun n s hs => Memory.find?_after_iff hs, fun e code m' params name hrun => ?_⟩
  obtain ⟨calls, hm', hcalls⟩ := run_calls hrun
  rw [← Memory.after_append] at hm'
  refine ⟨calls, hm', hcalls, fun n s hs => ?_⟩
  rw [hm'] at hs ⊢
  exact Memory.find?_after_iff hs

/-! ## Drafts that are hidden -/

/-- The calls that make `topicMemory`. -/
def topicCalls : List Memory.Call :=
  [.set "topic" (Memory.empty.fresh "topic" NativeConcept.text.concept (.text "red"))]

/-- A topic and a draft are stored, and `draft` is made to stand for the topic. -/
def maskedDraft : List Memory.Call :=
  topicCalls ++ [.set "draft" (Memory.nameless "1" "about red"), .setAlias "draft" "topic"]

theorem topicMemory_not_hides (n : String) : ¬ (Memory.empty.after topicCalls).Hides n := by
  rintro ⟨_, halias⟩
  cases halias

theorem find?_maskedDraft : ∃ s, (Memory.empty.after maskedDraft).entries.get? "draft" = some s ∧
    (Memory.empty.after maskedDraft).find? "draft" ≠ some s := by
  refine ⟨_, rfl, fun hfind => ?_⟩
  have hname := congrArg (Option.map Stuff.name) hfind
  revert hname
  decide

/-- The condition of `reviseDraft` evaluates `draft` to alias the topic when there is a draft. -/
theorem run_reviseDraft_hides :
    ∃ m' s, (draftsEngine.run "revise" (Memory.empty.after topicCalls) {} none).result = .ok m' ∧
      m'.entries.get? "draft" = some s ∧ m'.find? "draft" ≠ some s := by
  have hnames : (draftsEngine.run "revise" (Memory.empty.after topicCalls) {}
      none).result.toOption.map (fun m' =>
        ((m'.entries.get? "draft").map Stuff.name, (m'.find? "draft").map Stuff.name)) =
          some (some "draft", some "topic") := by
    decide +kernel
  obtain ⟨m', hm', hnames⟩ := Option.map_eq_some_iff.1 hnames
  obtain ⟨hentry, hfound⟩ := Prod.mk.inj hnames
  obtain ⟨s, hs, hsname⟩ := Option.map_eq_some_iff.1 hentry
  refine ⟨m', s, eq_ok_of_toOption hm', hs, fun hfind => ?_⟩
  rw [hfind, Option.map_some, hsname] at hfound
  exact absurd hfound (by decide)

/-- The calls of `maskedDraft` hide the draft, and so do those of a run that revises it. -/
theorem find?_iff_not_hidden_draft :
    Memory.empty.HidesAfter maskedDraft "draft" ∧
    ∃ m' calls,
      (draftsEngine.run "revise" (Memory.empty.after topicCalls) {} none).result = .ok m' ∧
      m' = Memory.empty.after (topicCalls ++ calls) ∧
      Memory.empty.HidesAfter (topicCalls ++ calls) "draft" := by
  obtain ⟨s, hs, hfind⟩ := find?_maskedDraft
  obtain ⟨m', s', hrun, hs', hfind'⟩ := run_reviseDraft_hides
  have hmasked := (find?_iff_not_hidden maskedDraft).1 "draft" s hs
  obtain ⟨calls, hm', _, hiff⟩ :=
    (find?_iff_not_hidden topicCalls).2 draftsEngine "revise" m' {} none hrun
  refine ⟨not_not.1 (mt hmasked.2 hfind), m', calls, hrun, hm', ?_⟩
  exact not_not.1 (mt (hiff "draft" s' hs').2 hfind')

/-- Not every entry is found under its name: neither after all calls nor after all live runs on a
memory in which nothing is hidden. -/
theorem not_forall_find?_eq_entry :
    (¬ ∀ (calls : List Memory.Call) (n : String) (s : Stuff),
      (Memory.empty.after calls).entries.get? n = some s →
        (Memory.empty.after calls).find? n = some s) ∧
    ¬ ∀ (e : Engine) (p : Pipe) (calls : List Memory.Call) (m' : Memory) (params : RunParams)
        (name : Option String), e.library.Loaded → e.library.Registered p → params.dry = false →
      (∀ n, ¬ (Memory.empty.after calls).Hides n) →
      (e.run p.code (Memory.empty.after calls) params name).result = .ok m' →
        ∀ n s, m'.entries.get? n = some s → m'.find? n = some s := by
  constructor
  · intro hall
    obtain ⟨s, hs, hfind⟩ := find?_maskedDraft
    exact hfind (hall maskedDraft "draft" s hs)
  · intro hall
    obtain ⟨m', s, hrun, hs, hfind⟩ := run_reviseDraft_hides
    exact hfind (hall draftsEngine Library.reviseDraft topicCalls m' {} none Library.drafts_loaded
      (by unfold Library.Registered; decide) rfl topicMemory_not_hides hrun "draft" s hs)

end Engine

end Conduit
