import Conduit.Proofs.Library.Admitted
import Conduit.Proofs.Run.Retrieved

/-!
# Names that steps leave

The needs of a sequence count on each step to leave names in memory: that of its result, and those
of the branches if the step runs a parallel that stores each of its results
(`Library.writtenNames`). Where no condition keeps the memory as it was (`Library.NeverKeeps`), a
live step that succeeds does leave them, if it is run once. A step that is run for each item of a
list leaves nothing but the list of the results, for the memories of the items are dropped: a
name of a branch has a value then only if it had one before, or if the list is stored under it
(`Engine.runStep_leaves`).
-/

namespace Conduit

namespace Library

variable {l : Library} {p : Pipe} {m : Memory}

/-- No condition may keep the memory as it was. -/
def NeverKeeps (l : Library) : Prop :=
  ∀ p c, l.Registered p → p.kind = .condition c → Outcome.keep ∉ c.outcomes.values ++ [c.default]

/-- Then no run comes to a condition that does. -/
theorem NeverKeeps.not_routesToKeep (h : l.NeverKeeps) (hk : l.Keyed) (hp : l.Registered p) :
    ¬ l.RoutesToKeep p m := by
  intro hroutes
  induction hroutes with
  | keep hchooses =>
    obtain ⟨c, text, hkind, _, _, hout⟩ := hchooses
    exact h _ c hp hkind (hout ▸ c.outcome_mem text)
  | outcome _ hq _ ih => exact ih (hk.registered hq)

/-- The branches of a parallel of a loaded library have names. -/
theorem Loaded.named {code : String} {q : Parallel} (hl : l.Loaded)
    (hp : l.pipes.get? code = some p) (hkind : p.kind = .parallel q) :
    q.Named ∧ q.branches ≠ [] ∧ p.code ≠ "" := by
  obtain ⟨l₀, h₀⟩ := hl.exists_admission (hl.settled.linked.keyed.registered hp)
  obtain ⟨b, hmade⟩ := h₀.admitted.made
  exact ConceptLibrary.makePipe_named hmade hkind

/-- Bundles that are loaded one after another, without exceptions, make a loaded library. -/
theorem loaded_after (bundles : List Bundle) :
    (after (bundles.map fun b => .load b {})).Loaded := by
  induction bundles using List.reverseRecOn with
  | nil => exact .initial
  | append_singleton bundles b ih =>
    rw [List.map_append, List.map_singleton, after, List.foldl_concat, ← after]
    rcases (after (bundles.map fun b => .load b {})).change_cases (.load b {}) with
      hsame | ⟨_, _, hchange, hload⟩ | ⟨_, hchange, _⟩
    · rw [hsame]
      exact ih
    · cases hchange
      exact .load ih hload
    · cases hchange

end Library

namespace Engine

variable {e : Engine} {run : Runner} {p target : Pipe} {q : Parallel} {s : Step} {m m' : Memory}
  {params : RunParams} {name : Option String} {code n : String}

/-! ## Steps that run once -/

/-- A live run that is asked for a name leaves it as the name of the latest result. -/
theorem run_mainName (hkeep : e.library.NeverKeeps) (hk : e.library.Keyed)
    (htarget : e.library.pipes.get? code = some target) (hlive : params.dry = false)
    (h : (e.run code m params (some n)).result = .ok m') : m'.mainName? = some n := by
  obtain ⟨q, hq, hends⟩ :=
    (runWithin_lands e n (e.config.maxDepth - params.layer) code m params hlive).post_of_ok h
  obtain rfl : target = q := Option.some.inj (htarget.symm.trans hq)
  exact (hends.resolve_left (hkeep.not_routesToKeep hk (hk.registered htarget))).main

/-- A run of a parallel that stores each of its results leaves the names of its branches. -/
theorem run_branches (hl : e.library.Loaded) (htarget : e.library.pipes.get? code = some target)
    (hkind : target.kind = .parallel q) (heach : q.addEach = true)
    (h : (e.run code m params name).result = .ok m') :
    ∀ n ∈ q.branches.map resultName, m'.contains n = true := by
  obtain ⟨hnamed, hne, hcode⟩ := hl.named htarget hkind
  have hdispatch : (e.dispatch e.run target m (onStack params target) name).Gives fun m' =>
      ∀ n ∈ q.branches.map resultName, m'.contains n = true := by
    refine Run.ends_mark_bind (Run.gives_lift_bind fun _ _ => ?_)
    rw [hkind]
    refine (runParallel_retrieved hnamed hne hcode heach).imp ?_
    rintro m' ⟨results, last, latest, hbranched, hretrieved⟩ n hn
    rw [← hbranched.names] at hn
    obtain ⟨⟨_, result⟩, hresult, rfl⟩ := List.mem_map.1 hn
    rw [Memory.contains, hretrieved.found _ _ hresult]
    rfl
  exact (run_gives htarget hdispatch).post_of_ok h

/-! ## Steps that run for each item of a list -/

/-- A run has left a list of results under a name, `stored`: the one that is asked for, if one is.
No other name has a value that had none before. -/
structure ListLeft (m : Memory) (asked : Option String) (stored : String) (m' : Memory) : Prop where
  mainName : m'.mainName? = some stored
  plain : stored ≠ Memory.mainAlias
  asked : ∀ n, asked = some n → stored = n
  names : ∀ n, n ≠ Memory.mainAlias →
    (m'.contains n = true ↔ m.contains n = true ∨ m'.mainName? = some n)

/-- A batch leaves the list of the results of its items. -/
theorem runBatch_names {owner branch : String} {b : Batching} {output : Concept}
    (hm : m.Anchored) :
    (e.runBatch run owner branch b output m params name).Gives fun m' =>
      ∃ stored, ListLeft m name stored m' := by
  refine runBatch_gives.imp ?_
  rintro m' ⟨c, items, contents, stored, _, _, hstored⟩
  obtain ⟨hname, halias⟩ := storeResult_ok hstored
  have hmain : m'.mainName? = some stored := (set_setAlias_lands halias).1
  have hm' : m'.Anchored := (Memory.set_setAlias_written halias).anchored hm
  refine ⟨stored, hmain, (Memory.set_setAlias_eq halias).1, ?_, fun n hn => ?_⟩
  · rintro asked rfl
    exact hname
  · rw [hmain, Option.some.injEq]
    by_cases heq : stored = n
    · rw [← heq, iff_true_right (Or.inr rfl)]
      exact (storeResult_grows hstored).written stored List.mem_cons_self
    · rw [or_iff_left heq, ← hm'.mem_names_iff, ← hm.mem_names_iff]
      exact (Memory.set_setAlias_sameBut halias).mem_names_iff (Ne.symm heq)
        (by simp [Ne.symm heq, hn])

/-- A step that is run for each item of a list does what a batch does. -/
theorem runStep_names {b : Batching} (hbatching : s.batching = some b) (hm : m.Anchored) :
    (e.runStep run p s m params).Gives fun m' => ∃ stored, ListLeft m s.result stored m' := by
  unfold runStep
  rw [hbatching]
  exact Run.gives_lift_bind fun _ _ => runBatch_names hm

/-! ## Steps -/

/-- The names of branches are not reserved. -/
theorem ne_mainAlias_of_mem_branches (hl : e.library.Loaded)
    (htarget : e.library.pipes.get? code = some target) (hkind : target.kind = .parallel q)
    (hn : n ∈ q.branches.map resultName) : n ≠ Memory.mainAlias := by
  obtain ⟨s, hs, rfl⟩ := List.mem_map.1 hn
  obtain ⟨key, hkey, hmain⟩ := (hl.named htarget hkind).1.named s hs
  rwa [resultName, hkey, Option.getD_some]

/-- The names that a step is said to leave are that of its result and those of branches. -/
theorem mem_writtenNames_iff : n ∈ Library.writtenNames target s ↔ s.result = some n ∨
    ∃ q, target.kind = .parallel q ∧ q.addEach = true ∧ n ∈ q.branches.map resultName := by
  unfold Library.writtenNames
  rw [List.mem_append, Option.mem_toList]
  refine or_congr_right ?_
  cases hkind : target.kind with
  | parallel q =>
    cases heach : q.addEach <;> simp [heach, resultName]
  | sequence _ | condition _ | batch _ _ | operator _ => simp

/-- In a library without conditions that keep the memory as it was: a live step that succeeds leaves
the name of its result as that of the latest result. Of all names that it is said to leave, those of
the branches of a parallel included, each has a value then, if the step is run once. If it is run
for each item of a list, a name has a value exactly if it had one before, or if the list of the
results is stored under it. -/
theorem runStep_leaves (e : Engine) (p : Pipe) (s : Step) (target : Pipe) (m m' : Memory)
    (params : RunParams) (hl : e.library.Loaded) (hkeep : e.library.NeverKeeps)
    (htarget : e.library.pipes.get? s.pipe = some target) (hlive : params.dry = false)
    (hm : Memory.empty.Written m) (h : (e.runStep e.run p s m params).result = .ok m') :
    (∀ n, s.result = some n → m'.mainName? = some n) ∧
    ∀ n ∈ Library.writtenNames target s, (m'.contains n = true ↔
      s.batching = none ∨ m.contains n = true ∨ m'.mainName? = some n) := by
  have hanchored : m.Anchored := Memory.Written.anchored hm Memory.anchored_empty
  cases hbatching : s.batching with
  | none =>
    simp only [runStep, hbatching] at h
    have hresult : ∀ n, s.result = some n → m'.mainName? = some n := by
      intro n hn
      rw [hn] at h
      exact run_mainName hkeep hl.settled.linked.keyed htarget hlive h
    refine ⟨hresult, fun n hn => iff_of_true ?_ (.inl rfl)⟩
    rcases mem_writtenNames_iff.1 hn with hn | ⟨q, hkind, heach, hn⟩
    · have hm' : m'.Anchored := ((runWithin_written (e.config.maxDepth - params.layer) s.pipe m
        params s.result).post_of_ok h).anchored hanchored
      refine hm'.mem_names_iff.1 (List.mem_append_left _ (Dict.mem_keys_iff.2 ?_))
      exact (hm' _ _ (hresult n hn)).2
    · exact run_branches hl htarget hkind heach h n hn
  | some b =>
    obtain ⟨stored, hleft⟩ := (runStep_names hbatching hanchored).post_of_ok h
    refine ⟨fun n hn => hleft.asked n hn ▸ hleft.mainName, fun n hn => ?_⟩
    rw [or_iff_right nofun]
    refine hleft.names n ?_
    rcases mem_writtenNames_iff.1 hn with hn | ⟨q, hkind, _, hn⟩
    · exact hleft.asked n hn ▸ hleft.plain
    · exact ne_mainAlias_of_mem_branches hl htarget hkind hn

end Engine

/-! ## Sides of several words -/

namespace Library

/-- A step that makes both sides of each of some words. -/
def pairsStep : Step :=
  ⟨"both", some "pairs", none, some ⟨"words", "word"⟩⟩

/-- Both sides of each of some words. -/
def pairs : Pipe where
  code := "pairs"
  domain := "pairs"
  description := ""
  inputs := .ofList [("words", ⟨NativeConcept.text.concept, .list⟩)]
  output := NativeConcept.text.concept
  multiplicity := .list
  kind := .sequence [pairsStep]

/-- The bundle that declares `pairs`. -/
def pairsBundle : Bundle where
  domain := ⟨"pairs", none, none⟩
  concepts := .empty
  pipes := .ofList [("pairs", ⟨⟨"", .ofList [("words", "Text[]")], "Text[]"⟩,
    .sequence [⟨"both", some "pairs", none, none, some "words", some "word"⟩]⟩)]
  mainPipe := none

end Library

namespace Engine

/-- An engine for the sides of several words. -/
def pairsEngine : Engine :=
  { sidesEngine with
    library := .after ([Library.sidesBundle, Library.pairsBundle].map fun b => .load b {}) }

theorem pairs_loaded : pairsEngine.library.Loaded :=
  Library.loaded_after _

theorem pairs_registered : pairsEngine.library.Registered Library.pairs := by
  unfold Library.Registered
  decide +kernel

theorem pairs_target : pairsEngine.library.pipes.get? "both" = some Library.bothSides := by
  decide +kernel

/-- There are no conditions in the library. -/
theorem pairs_neverKeeps : pairsEngine.library.NeverKeeps := by
  have hall : ∀ entry ∈ pairsEngine.library.pipes.entries, entry.2.typeName ≠ "PipeCondition" := by
    decide +kernel
  intro p c hp hkind
  refine absurd ?_ (hall (p.code, p) (Dict.mem_entries_of_get? hp))
  simp [Pipe.typeName, hkind]

theorem words_written : Memory.empty.Written words :=
  .head (.stored _ _ _) (.single (.stored _ _ _))

/-- Not every name that a step is said to leave has a value after it: a step that makes both sides of
each of some words leaves none of the sides. -/
theorem not_forall_runStep_leaves : ¬ ∀ (e : Engine) (p : Pipe) (steps : List Step) (s : Step)
      (target : Pipe) (m m' : Memory) (params : RunParams), e.library.Loaded →
    e.library.NeverKeeps → e.library.Registered p → p.kind = .sequence steps → s ∈ steps →
    e.library.pipes.get? s.pipe = some target → params.dry = false → Memory.empty.Written m →
    (e.runStep e.run p s m params).result = .ok m' →
      ∀ n ∈ Library.writtenNames target s, m'.contains n = true := by
  intro hall
  have hmissing : ((pairsEngine.runStep pairsEngine.run Library.pairs Library.pairsStep words
      {}).result.toOption.map fun m' => m'.contains "left") = some false := by
    decide +kernel
  obtain ⟨m', hm', hmissing⟩ := Option.map_eq_some_iff.1 hmissing
  have hleft : m'.contains "left" = true :=
    hall pairsEngine Library.pairs _ Library.pairsStep Library.bothSides words m' {} pairs_loaded
      pairs_neverKeeps pairs_registered rfl List.mem_cons_self pairs_target rfl words_written
      (eq_ok_of_toOption hm') "left" (by decide)
  rw [hmissing] at hleft
  cases hleft

/-- The list of the sides is left, and a side only if it was there before. -/
theorem runStep_leaves_pairs : pairsEngine.library.Loaded ∧ pairsEngine.library.NeverKeeps ∧
    Memory.empty.Written words ∧ ∃ m',
      (pairsEngine.runStep pairsEngine.run Library.pairs Library.pairsStep words {}).result =
        .ok m' ∧
      m'.mainName? = some "pairs" ∧
      (m'.contains "left" = true ↔ Library.pairsStep.batching = none ∨
        words.contains "left" = true ∨ m'.mainName? = some "left") := by
  have hruns : (pairsEngine.runStep pairsEngine.run Library.pairs Library.pairsStep words
      {}).result.isOk = true := by
    decide +kernel
  obtain ⟨m', hm'⟩ := exists_of_isOk hruns
  obtain ⟨hresult, hnames⟩ := runStep_leaves pairsEngine Library.pairs Library.pairsStep
    Library.bothSides words m' {} pairs_loaded pairs_neverKeeps pairs_target rfl words_written hm'
  exact ⟨pairs_loaded, pairs_neverKeeps, words_written, m', hm', hresult "pairs" rfl,
    hnames "left" (by decide)⟩

end Engine

end Conduit
