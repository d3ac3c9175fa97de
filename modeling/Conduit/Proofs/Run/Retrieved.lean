import Conduit.Proofs.Library.History
import Conduit.Proofs.Run.Bounded
import Conduit.Proofs.Run.Landed
import Conduit.Proofs.Run.Merged

/-!
# Results of parallels are found again

A parallel that stores each of its results writes several names one after another: those of its
branches, and then one more, under which the latest result is stored. Where a bundle is loaded, the
names of the branches are checked to be there and to be distinct (`Parallel.Named`), so the results
of the branches do not take each other's place. But nothing compares them with the last name, which
is the one that the caller asks for, or, if the results are combined, the code of the parallel. So
a result is found under the name of its branch unless that is the last name: then the latest result
has taken its place (`Engine.run_retrieved`), which may be that of another branch, or the record of
all (`Engine.not_forall_run_retrieved`).
-/

namespace Conduit

/-! ## Names of branches -/

/-- What is checked of the branches of a parallel: each has a name for its result, which is not
reserved, and no two have the same. -/
structure Parallel.Named (q : Parallel) : Prop where
  named : ∀ s ∈ q.branches, ∃ name, s.result = some name ∧ name ≠ Memory.mainAlias
  distinct : (q.branches.map Engine.resultName).Nodup

/-- The name of a result is not reserved. -/
theorem Step.make_result {pipe name : String} {b : StepBlueprint} {s : Step}
    (h : Step.make pipe b = .ok s) (hname : s.result = some name) : name ≠ Memory.mainAlias := by
  simp only [Step.make, bind_eq_ok_iff] at h
  obtain ⟨_, _, h⟩ := h
  -- the batching of the step says nothing of its result
  split at h
  all_goals
    obtain ⟨_, _, h⟩ := bind_eq_ok_iff.1 h
    split at h
    · next hresult =>
      obtain ⟨_, hcheck, h⟩ := bind_eq_ok_iff.1 h
      cases h
      rw [hresult] at hname
      cases hname
      rintro rfl
      simp [checkName, invalid] at hcheck
    · next hresult =>
      cases h
      rw [hresult] at hname
      cases hname

/-- Results whose names are collected all have names, which are distinct. -/
theorem Parallel.results_ok {pipe : String} {branches : List Step} {names names' : List String}
    (h : Parallel.results pipe names branches = .ok names') (hn : names.Nodup) :
    (∀ s ∈ branches, s.result ≠ none) ∧ (names ++ branches.map Engine.resultName).Nodup := by
  induction branches generalizing names with
  | nil => exact ⟨nofun, by simpa using hn⟩
  | cons s branches ih =>
    unfold Parallel.results at h
    split at h
    · cases h
    · next name hname =>
      split at h
      · cases h
      · next hnew =>
        have hnext : (names ++ [name]).Nodup := by
          refine List.nodup_append.2 ⟨hn, List.nodup_singleton name, ?_⟩
          intro a ha b hb hab
          rw [List.mem_singleton.1 hb] at hab
          exact hnew (hab ▸ ha)
        obtain ⟨hall, hdistinct⟩ := ih h hnext
        have hresult : Engine.resultName s = name := by
          rw [Engine.resultName, hname, Option.getD_some]
        rw [List.map_cons, hresult, ← List.append_cons] at *
        refine ⟨List.forall_mem_cons.2 ⟨?_, hall⟩, hdistinct⟩
        rw [hname]
        exact Option.some_ne_none name

/-- A parallel that is made has branches with distinct names. -/
theorem Parallel.make_distinct {r : Registry} {pipe : String} {branches : List Step}
    {addEach : Bool} {combined : Option Concept} {q : Parallel}
    (h : Parallel.make r pipe branches addEach combined = .ok q) :
    (∀ s ∈ q.branches, s.result ≠ none) ∧ (q.branches.map Engine.resultName).Nodup := by
  obtain ⟨rfl, hne, heach⟩ := Parallel.make_ok h
  obtain ⟨names, hnames⟩ : ∃ names, Parallel.results pipe [] branches = .ok names := by
    have hcombination : (!addEach && combined.isNone) = false := by
      rcases heach with rfl | hsome
      · rfl
      · simp [Option.isNone_eq_false_iff.2 hsome]
    have hbranches : branches.isEmpty = false := by
      simpa using hne
    simp only [Parallel.make, hcombination, hbranches, Bool.false_eq_true, if_false,
      bind_eq_ok_iff] at h
    obtain ⟨names, hnames, _⟩ := h
    exact ⟨names, hnames⟩
  exact Parallel.results_ok hnames List.nodup_nil

namespace ConceptLibrary

variable {c : ConceptLibrary} {domain code : String} {p : Pipe} {q : Parallel}

/-- The branches of a parallel of a bundle have names. -/
theorem kindOf_named {inputs : Requirements} {declared m : Multiplicity} {body : PipeBody}
    (h : c.kindOf domain code inputs declared body = .ok (.parallel q, m)) : q.Named := by
  cases body with
  | parallel blueprints addEach combined =>
    simp only [kindOf, bind_eq_ok_iff] at h
    obtain ⟨branches, hbranches, h⟩ := h
    have hmade : ∃ combined, Parallel.make c.registry code branches addEach combined = .ok q := by
      cases combined with
      | none =>
        simp only [bind_eq_ok_iff] at h
        obtain ⟨combined, _, q', hq', h⟩ := h
        cases h
        exact ⟨combined, hq'⟩
      | some reference =>
        simp only [bind_eq_ok_iff] at h
        obtain ⟨combined, _, q', hq', h⟩ := h
        cases h
        exact ⟨combined, hq'⟩
    obtain ⟨combined, hmade⟩ := hmade
    obtain ⟨hall, hdistinct⟩ := Parallel.make_distinct hmade
    refine ⟨fun s hs => ?_, hdistinct⟩
    obtain ⟨name, hname⟩ := Option.ne_none_iff_exists'.1 (hall s hs)
    rw [(Parallel.make_ok hmade).1] at hs
    obtain ⟨b, _, hb⟩ := exists_of_forall₂ (forall₂_of_mapM hbranches) hs
    exact ⟨name, hname, Step.make_result hb hname⟩
  -- every other body makes another kind
  | sequence blueprints =>
    simp only [kindOf] at h
    split at h <;> simp [bind_eq_ok_iff, pure, Except.pure, invalid] at h
  | llm prompt system count multiple =>
    simp only [kindOf, bind_eq_ok_iff] at h
    split at h <;> simp [bind_eq_ok_iff, pure, Except.pure] at h
  | imgGen prompt count =>
    unfold kindOf at h
    cases prompt with
    | some source => simp [bind_eq_ok_iff, pure, Except.pure] at h
    | none =>
      dsimp only at h
      split at h
      · cases h
      · simp [bind_eq_ok_iff, pure, Except.pure] at h
  | extract _ | func _ =>
    simp only [kindOf] at h
    split at h <;> simp [bind, Except.bind, pure, Except.pure, invalid] at h
  | condition _ | batch _ _ _ | compose _ =>
    simp [kindOf, bind_eq_ok_iff, pure, Except.pure] at h

/-- A parallel that is made has branches, with names, and a code that is not empty. -/
theorem makePipe_named {b : PipeBlueprint} (h : c.makePipe domain code b = .ok p)
    (hkind : p.kind = .parallel q) : q.Named ∧ q.branches ≠ [] ∧ p.code ≠ "" := by
  obtain ⟨hcode, _, hproper⟩ := makePipe_ok h
  rw [hkind] at hproper
  refine ⟨?_, hproper.1, ?_⟩
  · obtain ⟨_, _, _, _, _, _, hmakes, rfl⟩ := makePipe_eq_ok h
    obtain rfl := hkind
    exact kindOf_named hmakes
  · rw [hcode]
    rintro rfl
    have hrefused : Text.isPipeCode "" = false := by decide
    simp [makePipe, hrefused, bind, Except.bind, throw, throwThe, MonadExceptOf.throw] at h

end ConceptLibrary

namespace Library

/-- Every pipe of a library was made from a declaration, whatever has been loaded and unloaded. -/
theorem made_after (changes : List Change) (code : String) (p : Pipe)
    (hp : (after changes).pipes.get? code = some p) :
    ∃ c b, ConceptLibrary.makePipe c p.domain code b = .ok p := by
  induction changes using List.reverseRecOn with
  | nil => cases hp
  | append_singleton changes change ih =>
    rw [after, List.foldl_concat, ← after] at hp
    rcases (after changes).change_cases change with hsame | ⟨b, policy, _, hload⟩ | ⟨domain, _, hun⟩
    · rw [hsame] at hp
      exact ih hp
    · rcases (load_ok hload).2.2 code p hp with hold | ⟨rfl, hadmitted⟩
      · exact ih hold
      · exact ⟨_, hadmitted.made⟩
    · unfold unload? at hun
      split at hun
      · obtain hun := Option.some.inj hun
        rw [← hun] at hp
        have hmem := List.mem_of_mem_filter (Dict.mem_entries_of_get? hp)
        exact ih (Dict.get?_of_mem_entries hmem)
      · cases hun

end Library

/-! ## Names without aliases -/

namespace Memory

variable {m m' : Memory} {s : Stuff} {n key : String}

/-- A name that is no alias stands for its own entry. -/
theorem find?_of_free (h : m.aliases.contains n = false) : m.find? n = m.entries.get? n := by
  have hnone : m.aliases.get? n = none := by
    simpa [Dict.contains] using h
  rw [find?, target, hnone, Option.getD_none]

/-- The name of the latest result, if it is no alias, is looked up as the latest result is. -/
theorem find?_mainName (hname : m.mainName? = some n) (h : m.aliases.contains n = false) :
    m.find? n = m.find? mainAlias := by
  rw [find?_of_free h, find?, target, ← mainName?, hname, Option.getD_some]

/-- A value that is stored as the latest result makes no alias of another name. -/
theorem set_setAlias_free (h : (m.set key s).setAlias mainAlias key = .ok m') (hn : n ≠ mainAlias)
    (hfree : m.aliases.contains n = false) : m'.aliases.contains n = false := by
  obtain ⟨_, rfl⟩ := set_setAlias_eq h
  simp [hn.symm, hfree]

end Memory

namespace Engine

variable {e : Engine} {run : Runner} {p : Pipe} {q : Parallel} {m m' : Memory} {params : RunParams}
  {name : Option String} {results : List (String × Stuff)} {n : String}

/-- Storing results drops the aliases of their names. -/
theorem storeEach_free (results : List (String × Stuff)) (m : Memory)
    (h : n ∈ results.map Prod.fst ∨ m.aliases.contains n = false) :
    (storeEach m results).aliases.contains n = false := by
  induction results generalizing m with
  | nil => exact h.resolve_left List.not_mem_nil
  | cons result results ih =>
    refine ih (m.set result.1 result.2) ?_
    rw [List.map_cons, List.mem_cons] at h
    rcases h with (rfl | hlater) | hfree
    · exact .inr (by simp [Memory.set])
    · exact .inl hlater
    · exact .inr (by simp [Memory.set, hfree])

theorem storeResults_free (h : storeResults m results = .ok m') (hn : n ∈ results.map Prod.fst)
    (hmain : n ≠ Memory.mainAlias) : m'.aliases.contains n = false := by
  unfold storeResults at h
  split at h
  · next hnone =>
    rw [List.getLast?_eq_none_iff.1 hnone] at hn
    cases hn
  · obtain ⟨_, _, rfl⟩ := Memory.setAlias_eq_ok_iff.1 (mapError_eq_ok_iff.1 h)
    rw [Dict.contains_insert, storeEach_free results m (.inl hn), Bool.or_false]
    exact decide_eq_false hmain.symm

theorem storeAs_free (h : storeAs m name = .ok m') (hmain : n ≠ Memory.mainAlias)
    (hfree : m.aliases.contains n = false) : m'.aliases.contains n = false := by
  rcases storeAs_ok h with rfl | ⟨_, _, _, halias⟩
  · exact hfree
  · exact Memory.set_setAlias_free halias hmain hfree

/-! ## What is found -/

/-- What is found in the memory that a parallel leaves which stores each of its results. The latest
result is stored last, under the name `last`. -/
structure Retrieved (e : Engine) (p : Pipe) (q : Parallel) (name : Option String)
    (results : List (String × Stuff)) (last : String) (latest : Stuff) (m' : Memory) : Prop where
  mainName : m'.mainName? = some last
  main : m'.main = .ok latest
  /-- Without a record, it is the result of the last branch, under the name that is asked for, if
  one is. -/
  renamed : q.combined = none → ∃ key s, results.getLast? = some (key, s) ∧
    last = name.getD key ∧ latest = { s with name := last }
  /-- The record of the results is stored under the name that is asked for, else under the code of
  the pipe, or under its own if that is reserved. -/
  combined : ∀ c, q.combined = some c → e.combine c results = .ok latest.content ∧
    last = name.getD (if p.code = Memory.mainAlias then latest.code else p.code)
  /-- Each result is found under its name, unless the latest result has taken its place. -/
  found : ∀ n s, (n, s) ∈ results →
    m'.find? n = some (if n = last then latest else { s with name := n })

/-- Results are found in a memory in which they are stored, but for the name of the latest
result. -/
theorem find?_results {last : String} {latest : Stuff} (hnodup : (results.map Prod.fst).Nodup)
    (hfree : ∀ n ∈ results.map Prod.fst, m'.aliases.contains n = false)
    (heach : ∀ n s, (Dict.ofList results).get? n = some s → last ≠ n →
      m'.entries.get? n = some { s with name := n })
    (hname : m'.mainName? = some last) (hmain : m'.find? Memory.mainAlias = some latest)
    {n : String} {s : Stuff} (hs : (n, s) ∈ results) :
    m'.find? n = some (if n = last then latest else { s with name := n }) := by
  have hn := hfree n (List.mem_map_of_mem hs)
  split
  · next heq =>
    rw [heq] at hn ⊢
    rw [Memory.find?_mainName hname hn, hmain]
  · next hne =>
    have hget : (Dict.ofList results).get? n = some s := by
      refine Dict.get?_of_mem_entries ?_
      rw [Dict.ofList, Dict.entries_foldl_insert hnodup fun _ _ => List.not_mem_nil]
      exact hs
    rw [Memory.find?_of_free hn]
    exact heach n s hget (Ne.symm hne)

/-- The name under which a record is stored: the one that is asked for, else the code of the pipe, or
that of the record. -/
theorem resultName_record {s : Stuff} {asked : Option String} (hcode : p.code ≠ "") :
    Memory.resultName { s with name := asked.getD p.code } asked =
      asked.getD (if p.code = Memory.mainAlias then s.code else p.code) := by
  cases asked with
  | some key => rfl
  | none =>
    by_cases hmain : p.code = Memory.mainAlias <;>
      simp [Memory.resultName, hcode, hmain]

/-- A parallel that stores each of its results leaves a memory in which they are found, but for the
name under which the latest result is stored last. -/
theorem runParallel_retrieved (hnamed : q.Named) (hne : q.branches ≠ []) (hcode : p.code ≠ "")
    (heach : q.addEach = true) :
    (e.runParallel run p q m params name).Gives fun m' => ∃ results last latest,
      e.Branched run p m params q.branches results ∧
        e.Retrieved p q name results last latest m' := by
  refine Run.gives_lift_bind fun _ _ => ?_
  refine (Run.ends_join fun r _ => r.gives_any).bind fun memories hmemories => ?_
  refine Run.gives_lift_bind fun results hresults => ?_
  have hbranched : e.Branched run p m params q.branches results :=
    branchResults_ok hmemories hresults
  have hnodup : (results.map Prod.fst).Nodup := by
    rw [hbranched.names]
    exact hnamed.distinct
  have hplain : ∀ n ∈ results.map Prod.fst, n ≠ Memory.mainAlias := by
    rw [hbranched.names, List.forall_mem_map]
    intro s hs
    obtain ⟨key, hkey, hmain⟩ := hnamed.named s hs
    rwa [resultName, hkey, Option.getD_some]
  obtain ⟨⟨key, s⟩, hlast⟩ : ∃ last, results.getLast? = some last :=
    Option.ne_none_iff_exists'.1 (mt List.getLast?_eq_none_iff.1 (results_ne hbranched.names hne))
  refine Run.gives_lift_bind fun m₁ hm₁ => ?_
  rw [heach, if_pos rfl] at hm₁
  split
  · next hnone =>
    refine Run.gives_lift fun m' hm' =>
      ⟨results, name.getD key, { s with name := name.getD key }, hbranched, ?_⟩
    have hmain := main_storeAs (find?_storeResults hlast hm₁) (mainName?_storeResults hlast hm₁) hm'
    have hname : m'.mainName? = some (name.getD key) := by
      cases name with
      | some asked => exact (storeAs_lands hm').1
      | none =>
        cases hm'
        exact mainName?_storeResults hlast hm₁
    refine ⟨hname, hmain, fun _ => ⟨key, s, hlast, rfl, rfl⟩, ?_, fun n s hs => ?_⟩
    · rw [hnone]
      exact nofun
    · refine find?_results hnodup (fun n hn => ?_) (fun n s hs hother => ?_) hname
        (Memory.find?_of_main hmain) hs
      · exact storeAs_free hm' (hplain n hn) (storeResults_free hm₁ hn (hplain n hn))
      · rw [(storeAs_sameBeyond hm').get?_entries]
        · exact get?_storeResults hm₁ hs
        · cases name with
          | none => exact List.not_mem_nil
          | some asked => exact fun hmem => hother (List.mem_singleton.1 hmem).symm
  · next c hsome =>
    refine Run.gives_lift_bind fun content hcontent => ?_
    refine Run.gives_lift_bind fun ⟨stored, m'⟩ hm' => ?_
    obtain ⟨latest, hmain, _, rfl, _, hstored, hframe⟩ := storeResult_latest hm'
    have halias := (storeResult_ok hm').2
    have hname : m'.mainName? = some stored := (set_setAlias_lands halias).1
    refine Run.ends_mark_bind (Run.ends_pure ⟨results, stored, latest, hbranched, ?_⟩)
    refine ⟨hname, hmain, ?_, fun c' hc' => ?_, fun n s hs => ?_⟩
    · rw [hsome]
      exact nofun
    · rw [hsome] at hc'
      cases hc'
      exact ⟨hcontent, hstored.trans (resultName_record hcode)⟩
    · refine find?_results hnodup (fun n hn => ?_) (fun n s hs hother => ?_) hname
        (Memory.find?_of_main hmain) hs
      · exact Memory.set_setAlias_free halias (hplain n hn)
          (storeResults_free hm₁ hn (hplain n hn))
      · rw [hframe.get?_entries fun hmem => hother (List.mem_singleton.1 hmem).symm]
        exact get?_storeResults hm₁ hs

/-- A run of a pipe that is there gives what its dispatch gives, in which the pipes below are run in
the same way. -/
theorem run_gives {code : String} {post : Memory → Prop} (hp : e.library.pipes.get? code = some p)
    (h : (e.dispatch e.run p m (onStack params p) name).Gives post) :
    (e.run code m params name).Gives post := by
  have hlookup : e.lookup code params = .ok p := mapError_eq_ok_iff.2 (Library.pipe_of_get? hp _)
  rw [run_eq_enterPipe]
  simp only [enterPipe, hlookup]
  by_cases hroom : params.layer < e.config.maxDepth
  · simp only [RunParams.enter, hroom, if_true]
    exact h.located
  · simp only [RunParams.enter, hroom, if_false]
    exact Run.Ends.located trivial

/-- Whatever bundles have been loaded, and whatever name the caller asks for: a run of a parallel
that stores each of its results, if it succeeds, leaves a memory in which the result of each branch
is found under its name, unless the latest result was stored last under the same name. Then the
latest result is found. -/
theorem run_retrieved {changes : List Library.Change} (hl : e.library = .after changes)
    (hp : e.library.pipes.get? p.code = some p) (hkind : p.kind = .parallel q)
    (heach : q.addEach = true) (h : (e.run p.code m params name).result = .ok m') :
    ∃ results last latest, e.Branched e.run p m (onStack params p) q.branches results ∧
      e.Retrieved p q name results last latest m' := by
  obtain ⟨c, b, hmade⟩ := Library.made_after changes p.code p (hl ▸ hp)
  obtain ⟨hnamed, hne, hcode⟩ := ConceptLibrary.makePipe_named hmade hkind
  have hdispatch : (e.dispatch e.run p m (onStack params p) name).Gives fun m' =>
      ∃ results last latest, e.Branched e.run p m (onStack params p) q.branches results ∧
        e.Retrieved p q name results last latest m' := by
    refine Run.ends_mark_bind (Run.gives_lift_bind fun _ _ => ?_)
    rw [hkind]
    exact runParallel_retrieved hnamed hne hcode heach
  exact (run_gives hp hdispatch).post_of_ok h

end Engine

/-! ## Two sides of a word -/

namespace Library

/-- The declaration of a pipe that makes a text from a word. -/
def sidesDeclaration (body : PipeBody) : PipeBlueprint :=
  ⟨⟨"", .ofList [("word", "Text")], "Text"⟩, body⟩

/-- A bundle whose parallel makes two texts from a word. -/
def sidesBundle : Bundle where
  domain := ⟨"sides", none, none⟩
  concepts := .empty
  pipes := .ofList [
    ("left", sidesDeclaration (.compose "left of ${{ word }}")),
    ("right", sidesDeclaration (.compose "right of ${{ word }}")),
    ("both", sidesDeclaration (.parallel [⟨"left", some "left", none, none, none, none⟩,
      ⟨"right", some "right", none, none, none, none⟩] true none))]
  mainPipe := none

/-- A branch for each side, with the result under its name. -/
def sideBranch (side : String) : Step :=
  ⟨side, some side, none, none⟩

/-- Both sides, each stored under its name. -/
def bothSides : Pipe where
  code := "both"
  domain := "sides"
  description := ""
  inputs := .ofList [("word", ⟨NativeConcept.text.concept, .single⟩)]
  output := NativeConcept.text.concept
  multiplicity := .single
  kind := .parallel ⟨[sideBranch "left", sideBranch "right"], true, none⟩

end Library

namespace Engine

/-- An engine for the sides of a word, in which branches end in their order. -/
def sidesEngine : Engine :=
  { galleryEngine with library := .after [.load Library.sidesBundle {}] }

/-- A memory that holds a word. -/
def sidesMemory : Memory :=
  Memory.empty.set "word" (Memory.empty.fresh "word" NativeConcept.text.concept (.text "red"))

theorem bothSides_loaded : sidesEngine.library.pipes.get? "both" = some Library.bothSides := by
  decide +kernel

/-- Not every result of a parallel that stores each of them is found under the name of its branch:
where the caller asks for the name of the first branch, the result of the last one is found. -/
theorem not_forall_run_retrieved : ¬ ∀ (e : Engine) (changes : List Library.Change) (p : Pipe)
      (q : Parallel) (m m' : Memory) (params : RunParams) (name : Option String),
    e.library = .after changes → e.library.pipes.get? p.code = some p → p.kind = .parallel q →
    q.addEach = true → (e.run p.code m params name).result = .ok m' →
    ∀ s ∈ q.branches, ∀ left result,
      (e.runStep e.run p s m ((onStack params p).forStep s)).result = .ok left →
      left.main = .ok result →
        ∃ found, m'.find? (resultName s) = some found ∧ found.content = result.content := by
  intro hall
  have hfound : ((sidesEngine.run "both" sidesMemory {} (some "left")).result.toOption.bind fun m' =>
      (m'.find? "left").map fun s => s.content.rendered) = some "right of red" := by
    decide +kernel
  have hbranch : ((sidesEngine.runStep sidesEngine.run Library.bothSides (Library.sideBranch "left")
      sidesMemory ((onStack {} Library.bothSides).forStep
        (Library.sideBranch "left"))).result.toOption.bind fun left =>
      left.main.toOption.map fun s => s.content.rendered) = some "left of red" := by
    decide +kernel
  obtain ⟨m', hm', hfound⟩ := Option.bind_eq_some_iff.1 hfound
  obtain ⟨left, hleft, hbranch⟩ := Option.bind_eq_some_iff.1 hbranch
  obtain ⟨result, hresult, htext⟩ := Option.map_eq_some_iff.1 hbranch
  obtain ⟨found, hs, hcontent⟩ := hall sidesEngine _ Library.bothSides _ sidesMemory m' {}
    (some "left") rfl bothSides_loaded rfl rfl (eq_ok_of_toOption hm') (Library.sideBranch "left")
    List.mem_cons_self left result (eq_ok_of_toOption hleft) (eq_ok_of_toOption hresult)
  change m'.find? "left" = some found at hs
  rw [hs, Option.map_some, hcontent, htext] at hfound
  exact absurd hfound (by decide)

/-- Where no name is asked for, both sides are found. -/
theorem run_retrieved_bothSides :
    sidesEngine.library.pipes.get? "both" = some Library.bothSides ∧
    ∃ m', (sidesEngine.run "both" sidesMemory {} none).result = .ok m' ∧
      ∃ results last latest,
        sidesEngine.Branched sidesEngine.run Library.bothSides sidesMemory
          (onStack {} Library.bothSides) [Library.sideBranch "left", Library.sideBranch "right"]
          results ∧
        sidesEngine.Retrieved Library.bothSides
          ⟨[Library.sideBranch "left", Library.sideBranch "right"], true, none⟩ none results last
          latest m' := by
  have hruns : (sidesEngine.run "both" sidesMemory {} none).result.isOk = true := by
    decide +kernel
  obtain ⟨m', hm'⟩ := exists_of_isOk hruns
  exact ⟨bothSides_loaded, m', hm', run_retrieved (p := Library.bothSides) rfl bothSides_loaded rfl
    rfl hm'⟩

end Engine

end Conduit
