import Conduit.Proofs.Memory.Holds
import Conduit.Proofs.Run.Typed

/-!
# Parallels merge results and nothing else

A parallel runs each of its branches on the memory that it is given, and takes from each its latest
result (`Engine.Branched`). What it stores are these results, each under the name of its branch, or
the record that combines them, or both; the latest result may be stored under another name as well.
So the memory that it leaves differs from the one that it was given at most in the names of
`Parallel.written` and in the alias `main` (`Engine.runParallel_isolated`), however much the
branches write into theirs. `Memory.SameBeyond` is this frame: it compares all that is stored under
other names, with its order.
-/

namespace Conduit

namespace Memory

variable {m m' m'' : Memory} {s : Stuff} {names names' : List String} {name key target : String}

/-! ## The frame -/

/-- A memory differs from another at most in the entries and the aliases of some names, and in the
alias of the latest result. What is stored under other names comes in the same order. -/
structure SameBeyond (m m' : Memory) (names : List String) : Prop where
  entries : (m'.entries.filter fun k _ => k ∉ names) = m.entries.filter fun k _ => k ∉ names
  aliases : (m'.aliases.filter fun k _ => k ∉ mainAlias :: names) =
    m.aliases.filter fun k _ => k ∉ mainAlias :: names

theorem SameBeyond.refl (m : Memory) (names : List String) : m.SameBeyond m names :=
  ⟨rfl, rfl⟩

theorem SameBeyond.trans (h : m.SameBeyond m' names) (h' : m'.SameBeyond m'' names) :
    m.SameBeyond m'' names :=
  ⟨h'.entries.trans h.entries, h'.aliases.trans h.aliases⟩

/-- Entries that are the same beyond some names are the same beyond more of them. -/
theorem filter_not_mem_imp {α : Type} {d d' : Dict α} (hsub : ∀ n ∈ names, n ∈ names')
    (h : (d'.filter fun k _ => k ∉ names) = d.filter fun k _ => k ∉ names) :
    (d'.filter fun k _ => k ∉ names') = d.filter fun k _ => k ∉ names' := by
  have htwice : ∀ d : Dict α, (d.filter fun k _ => k ∉ names') =
      (d.filter fun k _ => k ∉ names).filter fun k _ => k ∉ names' := by
    intro d
    rw [Dict.filter_filter]
    congr 1
    funext k _
    by_cases hk : k ∈ names
    · simp [hk, hsub k hk]
    · simp [hk]
  rw [htwice d', htwice d, h]

theorem SameBeyond.imp (h : m.SameBeyond m' names) (hsub : ∀ n ∈ names, n ∈ names') :
    m.SameBeyond m' names' where
  entries := filter_not_mem_imp hsub h.entries
  aliases := by
    refine filter_not_mem_imp (fun n hn => ?_) h.aliases
    rcases List.mem_cons.1 hn with rfl | hn
    · exact List.mem_cons_self
    · exact List.mem_cons_of_mem _ (hsub n hn)

theorem SameBeyond.get?_entries (h : m.SameBeyond m' names) (hkey : key ∉ names) :
    m'.entries.get? key = m.entries.get? key := by
  have hget := congrArg (fun d => d.get? key) h.entries
  simpa [Dict.get?_filter_fst, hkey] using hget

theorem SameBeyond.get?_aliases (h : m.SameBeyond m' names) (hkey : key ∉ names)
    (hmain : key ≠ mainAlias) : m'.aliases.get? key = m.aliases.get? key := by
  have hget := congrArg (fun d => d.get? key) h.aliases
  simpa [Dict.get?_filter_fst, hkey, hmain] using hget

/-- No other name comes in, and none gets lost. -/
theorem SameBeyond.mem_names (h : m.SameBeyond m' names) (hkey : key ∉ names)
    (hmain : key ≠ mainAlias) : key ∈ m'.names ↔ key ∈ m.names := by
  simp only [Memory.names, List.mem_append, Dict.mem_keys_iff, Dict.contains, h.get?_entries hkey,
    h.get?_aliases hkey hmain]

/-- A value is stored under one of the names. -/
theorem set_sameBeyond (m : Memory) (s : Stuff) (hname : name ∈ names) :
    m.SameBeyond (m.set name s) names where
  entries := by
    have hnot : decide (name ∉ names) = false := by simpa using hname
    exact Dict.filter_insert hnot fun _ _ => hnot
  aliases := Dict.filter_erase (by simp [hname])

/-- The alias of the latest result may stand for anything. -/
theorem setAlias_sameBeyond (h : m.setAlias mainAlias target = .ok m') (names : List String) :
    m.SameBeyond m' names := by
  obtain ⟨_, _, rfl⟩ := setAlias_eq_ok_iff.1 h
  have hnot : decide (mainAlias ∉ mainAlias :: names) = false := by simp
  exact ⟨rfl, Dict.filter_insert hnot fun _ _ => hnot⟩

/-- A value is stored and becomes the latest result. -/
theorem set_setAlias_sameBeyond (h : (m.set name s).setAlias mainAlias name = .ok m') :
    m.SameBeyond m' [name] :=
  (set_sameBeyond m s (List.mem_singleton_self name)).trans (setAlias_sameBeyond h _)

end Memory

/-- The names under which a parallel stores something: those of its branches, if it stores each
result, and the one under which the record that combines them, or the latest result, is stored. -/
def Parallel.written (q : Parallel) (last : Option String) : List String :=
  (if q.addEach then q.branches.map Engine.resultName else []) ++ last.toList

namespace Engine

variable {e : Engine} {run : Runner} {p : Pipe} {q : Parallel} {m m' : Memory} {params : RunParams}
  {name : Option String} {results : List (String × Stuff)}

/-! ## Results of branches -/

/-- Some results are those of some branches, in their order: each is the latest result that the
branch leaves when it runs on the memory, whatever runs beside it, under the name of the branch. -/
def Branched (e : Engine) (run : Runner) (p : Pipe) (m : Memory) (params : RunParams) :
    List Step → List (String × Stuff) → Prop :=
  List.Forall₂ fun s result => ∃ left,
    (e.runStep run p s m (params.forStep s)).result = .ok left ∧
      left.main = .ok result.2 ∧ result.1 = resultName s

theorem Branched.names {branches : List Step} (h : e.Branched run p m params branches results) :
    results.map Prod.fst = branches.map resultName := by
  induction h with
  | nil => rfl
  | cons hresult _ ih =>
    obtain ⟨_, _, _, hname⟩ := hresult
    rw [List.map_cons, List.map_cons, ih, hname]

/-! ## Storing results -/

/-- Storing results changes nothing beyond their names. -/
theorem storeEach_sameBeyond (m : Memory) (results : List (String × Stuff)) {names : List String}
    (hnames : ∀ n ∈ results.map Prod.fst, n ∈ names) :
    m.SameBeyond (storeEach m results) names := by
  induction results generalizing m with
  | nil => exact .refl m names
  | cons result results ih =>
    rw [List.map_cons, List.forall_mem_cons] at hnames
    exact (Memory.set_sameBeyond m result.2 hnames.1).trans (ih _ hnames.2)

theorem storeResults_sameBeyond (h : storeResults m results = .ok m') :
    m.SameBeyond m' (results.map Prod.fst) := by
  unfold storeResults at h
  split at h
  · cases h
    exact .refl m _
  · have hlast := Memory.setAlias_sameBeyond (mapError_eq_ok_iff.1 h) (results.map Prod.fst)
    exact (storeEach_sameBeyond m results fun _ hn => hn).trans hlast

theorem storeAs_sameBeyond (h : storeAs m name = .ok m') : m.SameBeyond m' name.toList := by
  cases name with
  | none =>
    cases h
    exact .refl m _
  | some key =>
    simp only [storeAs, map_eq_ok_iff] at h
    obtain ⟨⟨⟨⟩, m₁⟩, hstored, rfl⟩ := h
    obtain ⟨s, _, ⟨_, rfl⟩ | halias⟩ := Memory.storeMain_ok (stored_ok hstored)
    · exact .refl m₁ _
    · exact Memory.set_setAlias_sameBeyond halias

/-- Each result is found under its name, the last one of a name if several have it. -/
theorem get?_storeEach (m : Memory) (results : List (String × Stuff)) (key : String) :
    (storeEach m results).entries.get? key =
      ((Dict.ofList results).get? key).elim (m.entries.get? key) fun s =>
        some { s with name := key } := by
  induction results using List.reverseRecOn with
  | nil => rfl
  | append_singleton results result ih =>
    have hstore : storeEach m (results ++ [result]) =
        (storeEach m results).set result.1 result.2 := List.foldl_concat ..
    have hdict : Dict.ofList (results ++ [result]) =
        (Dict.ofList results).insert result.1 result.2 := List.foldl_concat ..
    rw [hstore, hdict]
    simp only [Memory.set, Dict.get?_insert]
    by_cases hkey : result.1 = key
    · simp [hkey]
    · simp only [hkey, if_false]
      exact ih

theorem get?_storeResults {key : String} {s : Stuff} (h : storeResults m results = .ok m')
    (hs : (Dict.ofList results).get? key = some s) :
    m'.entries.get? key = some { s with name := key } := by
  unfold storeResults at h
  split at h
  · next hnone =>
    rw [List.getLast?_eq_none_iff.1 hnone] at hs
    cases hs
  · obtain ⟨_, _, rfl⟩ := Memory.setAlias_eq_ok_iff.1 (mapError_eq_ok_iff.1 h)
    rw [get?_storeEach, hs]
    rfl

/-- The latest result that is stored under another name as well has that name then. -/
theorem main_storeAs {s : Stuff} (hs : m.find? Memory.mainAlias = some s)
    (hnamed : m.mainName? = some s.name) (h : storeAs m name = .ok m') :
    m'.main = .ok { s with name := name.getD s.name } := by
  cases name with
  | none =>
    cases h
    exact Memory.main_of_find? hs
  | some key =>
    simp only [storeAs, map_eq_ok_iff] at h
    obtain ⟨⟨⟨⟩, m₁⟩, hstored, rfl⟩ := h
    obtain ⟨s', hs', ⟨hkey, rfl⟩ | halias⟩ := Memory.storeMain_ok (stored_ok hstored)
    · rw [hnamed] at hkey
      cases hkey
      exact Memory.main_of_find? hs
    · rw [Memory.find?_of_main hs'] at hs
      cases hs
      exact Memory.main_of_find? (Memory.find?_set_setAlias halias)

/-- The last of the results is the latest result, under the name of its branch. -/
theorem mainName?_storeResults {last : String × Stuff} (hlast : results.getLast? = some last)
    (h : storeResults m results = .ok m') : m'.mainName? = some last.1 := by
  simp only [storeResults, hlast] at h
  rw [(Memory.contains_setAlias (mapError_eq_ok_iff.1 h)).2.1, if_pos rfl]

/-- New content that is stored is the latest result. -/
theorem storeResult_latest {pipe stored : String} {c : Concept} {content : Content}
    (h : storeResult m pipe c content name = .ok (stored, m')) :
    ∃ s, m'.main = .ok s ∧ s.concept = c ∧ s.content = content ∧ s.name = stored ∧
      stored = Memory.resultName { s with name := name.getD pipe } name ∧
      m.SameBeyond m' [stored] := by
  obtain ⟨hstored, halias⟩ := storeResult_ok h
  exact ⟨_, Memory.main_of_find? (Memory.find?_set_setAlias halias), rfl, rfl, rfl, hstored,
    Memory.set_setAlias_sameBeyond halias⟩

/-! ## Parallels -/

/-- A memory is what a parallel makes of another one and of the results of its branches, where
`last` is the name under which the record of the results, or the last of them, is stored. -/
structure Merged (e : Engine) (p : Pipe) (q : Parallel) (name : Option String)
    (results : List (String × Stuff)) (last : Option String) (m m' : Memory) : Prop where
  /-- Each result is stored as that of its branch, if they are to be. -/
  each : q.addEach = true → ∀ key s, (Dict.ofList results).get? key = some s → last ≠ some key →
    m'.entries.get? key = some { s with name := key }
  /-- Without a record the last of the results is the latest result. -/
  renamed : q.combined = none → last = name ∧ (q.addEach = true → ∀ key s,
    results.getLast? = some (key, s) → m'.main = .ok { s with name := name.getD key })
  /-- The record of the results is the latest result, if there is one. -/
  combined : ∀ c, q.combined = some c → ∃ s, m'.main = .ok s ∧ s.concept = c ∧
    e.combine c results = .ok s.content ∧ last = some s.name ∧
    s.name = Memory.resultName { s with name := name.getD p.code } name
  /-- Nothing else changes. -/
  frame : m.SameBeyond m' (q.written last)

/-- What a parallel stores first, and under one more name after that. -/
theorem stored_each {m₁ : Memory} {last : Option String}
    (hnames : results.map Prod.fst = q.branches.map resultName)
    (hm₁ : storeResults m (if q.addEach then results else []) = .ok m₁)
    (hlast : m₁.SameBeyond m' last.toList) :
    (q.addEach = true → ∀ key s, (Dict.ofList results).get? key = some s → last ≠ some key →
      m'.entries.get? key = some { s with name := key }) ∧ m.SameBeyond m' (q.written last) := by
  have hlast' : m₁.SameBeyond m' (q.written last) :=
    hlast.imp fun n hn => List.mem_append_right _ hn
  cases heach : q.addEach with
  | false =>
    rw [heach] at hm₁
    cases hm₁
    exact ⟨nofun, hlast'⟩
  | true =>
    rw [heach, if_pos rfl] at hm₁
    refine ⟨fun _ key s hs hkey => ?_, ?_⟩
    · rw [hlast.get?_entries (by simpa using hkey)]
      exact get?_storeResults hm₁ hs
    · refine ((storeResults_sameBeyond hm₁).imp fun n hn => ?_).trans hlast'
      rw [hnames] at hn
      rw [Parallel.written, heach, if_pos rfl]
      exact List.mem_append_left _ hn

/-- A parallel stores what it makes of the results of its branches. -/
theorem runParallel_gives : (e.runParallel run p q m params name).Gives fun m' =>
    ∃ results last, e.Branched run p m params q.branches results ∧
      e.Merged p q name results last m m' := by
  refine Run.gives_lift_bind fun _ _ => ?_
  refine (Run.ends_join fun r _ => r.gives_any).bind fun memories hmemories => ?_
  refine Run.gives_lift_bind fun results hresults => ?_
  have hbranched : e.Branched run p m params q.branches results :=
    branchResults_ok hmemories hresults
  refine Run.gives_lift_bind fun m₁ hm₁ => ?_
  split
  · next hnone =>
    refine Run.gives_lift fun m' hm' => ⟨results, name, hbranched, ?_⟩
    obtain ⟨heach, hframe⟩ := stored_each hbranched.names hm₁ (storeAs_sameBeyond hm')
    refine ⟨heach, fun _ => ⟨rfl, fun heach key s hlast => ?_⟩, ?_, hframe⟩
    · rw [heach, if_pos rfl] at hm₁
      exact main_storeAs (find?_storeResults hlast hm₁) (mainName?_storeResults hlast hm₁) hm'
    · rw [hnone]
      exact fun _ => nofun
  · next c hsome =>
    refine Run.gives_lift_bind fun content hcontent => ?_
    refine Run.gives_lift_bind fun ⟨stored, m'⟩ hm' => ?_
    refine Run.ends_mark_bind (Run.ends_pure ⟨results, some stored, hbranched, ?_⟩)
    obtain ⟨s, hs, hconcept, hmade, rfl, hname, hframe⟩ := storeResult_latest hm'
    have hlast : m₁.SameBeyond m' (some s.name).toList := hframe
    obtain ⟨heach, hframe⟩ := stored_each hbranched.names hm₁ hlast
    refine ⟨heach, ?_, fun c' hc' => ?_, hframe⟩
    · rw [hsome]
      exact nofun
    · rw [hsome] at hc'
      cases hc'
      rw [← hmade] at hcontent
      exact ⟨s, hs, hconcept, hcontent, rfl, hname⟩

/-- A parallel that succeeds merges results. Each of them is the latest result of the run of a
branch, once or for each item of a list, on the memory itself. The memory that is left is the one
that was given with nothing but the merged results in it: no entry and no alias of another name
changes, and no name that only a branch has written is in the memory. -/
theorem runParallel_isolated (e : Engine) (run : Runner) (p : Pipe) (q : Parallel) (m m' : Memory)
    (params : RunParams) (name : Option String)
    (h : (e.runParallel run p q m params name).result = .ok m') :
    ∃ (results : List (String × Stuff)) (last : Option String),
      e.Branched run p m params q.branches results ∧ e.Merged p q name results last m m' ∧
      ∀ key, key ≠ Memory.mainAlias → key ∉ q.written last →
        m'.entries.get? key = m.entries.get? key ∧ m'.aliases.get? key = m.aliases.get? key ∧
        (key ∈ m'.names ↔ key ∈ m.names) := by
  obtain ⟨results, last, hbranched, hmerged⟩ := runParallel_gives.post_of_ok h
  refine ⟨results, last, hbranched, hmerged, fun key hmain hkey => ?_⟩
  exact ⟨hmerged.frame.get?_entries hkey, hmerged.frame.get?_aliases hkey hmain,
    hmerged.frame.mem_names hkey hmain⟩

/-- A title of a word and the titles of some words, which are combined and not stored. -/
def titlePair : Parallel where
  branches := [⟨"title", some "line", none, none⟩,
    ⟨"title", some "lines", none, some ⟨"words", "word"⟩⟩]
  addEach := false
  combined := some NativeConcept.dynamic.concept

/-- A title and some titles are combined: both branches work where `word` is what it was before, and
the memory that is left has neither what they store nor a title. -/
theorem runParallel_titlePair_isolated :
    ∃ m', (galleryEngine.runParallel galleryEngine.run Library.titles titlePair words {}
        (some "pair")).result = .ok m' ∧
      (∃ s, m'.main = .ok s ∧ s.name = "pair") ∧
      m'.entries.get? "word" = words.entries.get? "word" ∧
      ∀ key ∈ ["line", "lines", "title"], key ∉ m'.names := by
  have hruns : (galleryEngine.runParallel galleryEngine.run Library.titles titlePair words {}
      (some "pair")).result.isOk = true := by
    decide +kernel
  obtain ⟨m', hm'⟩ := exists_of_isOk hruns
  obtain ⟨results, last, _, hmerged, hsame⟩ :=
    runParallel_isolated galleryEngine galleryEngine.run Library.titles titlePair words m' {}
      (some "pair") hm'
  obtain ⟨s, hs, _, _, rfl, hname⟩ := hmerged.combined _ rfl
  have hlast : s.name = "pair" := hname
  rw [hlast] at hsame
  refine ⟨m', hm', ⟨s, hs, hlast⟩, (hsame "word" (by decide) (by decide)).1, ?_⟩
  have hother : ∀ key ∈ ["line", "lines", "title"], key ≠ Memory.mainAlias ∧
      key ∉ titlePair.written (some "pair") ∧ key ∉ words.names := by
    decide
  intro key hkey
  obtain ⟨hmain, hwritten, hnew⟩ := hother key hkey
  rw [(hsame key hmain hwritten).2.2]
  exact hnew

end Engine

end Conduit
