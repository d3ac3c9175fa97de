import Conduit.Proofs.Run.Retrieved
import Conduit.Proofs.Structure.Faults
import Conduit.Proofs.Structure.Larger

/-!
# Combined results

A parallel that combines its results is made only if the combiner has a field for each of them. So
the record of the results has no unknown field (`Parallel.make_contains`). Nothing asks that each
field has a result: what the check of the record reports (`Registry.Mismatch`) is a required field
without default to which no branch gives a value, or the value of a branch that is not one of its
field's (`Engine.combine_error`). The first does happen, for an image whose caption is made by the
only branch (`Engine.not_forall_combine_filled`).
-/

namespace Conduit

namespace Registry

variable {r : Registry} {name key : String} {given : List (String × Json)} {f : Field} {v : Json}

/-- What is given under a name, where each name comes once. -/
theorem member?_sortMembers_iff (hn : (given.map Prod.fst).Nodup) :
    Json.member? (Json.sortMembers given) key = some v ↔ (key, v) ∈ given := by
  have hentries : (Dict.ofList given).entries = given :=
    Dict.entries_foldl_insert hn fun _ _ => List.not_mem_nil
  rw [Json.member?_sortMembers, Dict.get?_eq_some_iff, hentries]

/-- What can be wrong with a record of the given values: a required field without default is given
nothing but null, a given value is not of the type of its field or not one of its choices, or the
values all fit and a list in them is null that the form of the content has no place for. -/
inductive Mismatch (r : Registry) (name : String) (given : List (String × Json)) :
    RecordError → Prop
  | missing {key : String} {f : Field} (hf : (r.allFields name).get? key = some f)
    (hrequired : f.required = true) (hdefault : f.default = none)
    (hgiven : ∀ v, (key, v) ∈ given → v = .null) : Mismatch r name given ⟨name, key, .missing⟩
  | value {key : String} {f : Field} {v : Json} {e : RecordError}
    (hf : (r.allFields name).get? key = some f) (hv : (key, v) ∈ given)
    (hcheck : r.check name key f.type v ≠ .ok ()) (he : Refusal name key e) :
    Mismatch r name given e
  | choice {key : String} {f : Field} {v : Json} (hf : (r.allFields name).get? key = some f)
    (hv : (key, v) ∈ given) (hchoice : f.admits v = false) :
    Mismatch r name given ⟨name, key, .notAChoice v f.choices⟩
  | form {values : Dict Json} (hvalid : r.validate name (Json.sortMembers given) = .ok values)
    (hform : Content.ofFields? name values = none) : Mismatch r name given ⟨name, "", .nullList⟩

/-- What can be wrong with the default of a field. -/
inductive FaultyDefault (r : Registry) (name : String) : RecordError → Prop
  | value {key : String} {f : Field} {v : Json} {e : RecordError}
    (hf : (r.allFields name).get? key = some f) (hdefault : f.default = some v)
    (hcheck : r.check name key f.type v ≠ .ok ()) (he : Refusal name key e) : FaultyDefault r name e
  | choice {key : String} {f : Field} {v : Json} (hf : (r.allFields name).get? key = some f)
    (hdefault : f.default = some v) (hchoice : f.admits v = false) :
    FaultyDefault r name ⟨name, key, .notAChoice v f.choices⟩

theorem Compiled.not_faultyDefault {e : RecordError} (h : r.Compiled) :
    ¬ r.FaultyDefault name e := by
  rintro (⟨hf, hdefault, hcheck, _⟩ | ⟨hf, hdefault, hchoice⟩)
  · exact hcheck (h.grounded.default_check hf hdefault).1
  · rw [(h.grounded.default_check hf hdefault).2] at hchoice
    cases hchoice

/-- A record that leaves a field unfilled does not match, unless a default is at fault. -/
theorem Unfilled.mismatch {e : RecordError} (hn : (given.map Prod.fst).Nodup)
    (h : r.Unfilled name (Json.sortMembers given) e) :
    r.Mismatch name given e ∨ r.FaultyDefault name e := by
  have hmem : ∀ {key v}, given? (Json.sortMembers given) key = some v → (key, v) ∈ given :=
    fun hv => (member?_sortMembers_iff hn).1 (Option.filter_eq_some_iff.1 hv).1
  cases h with
  | @missing key f hf hrequired hdefault hgiven =>
    refine .inl (.missing hf hrequired hdefault fun v hv => ?_)
    by_contra hnull
    rw [given?_of_member? ((member?_sortMembers_iff hn).2 hv) hnull] at hgiven
    cases hgiven
  | @value key f v _ hf hv hcheck he =>
    rcases Option.or_eq_some_iff.1 hv with hv | ⟨_, hv⟩
    · exact .inl (.value hf (hmem hv) hcheck he)
    · exact .inr (.value hf hv hcheck he)
  | @choice key f v hf hv hchoice =>
    rcases Option.or_eq_some_iff.1 hv with hv | ⟨_, hv⟩
    · exact .inl (.choice hf (hmem hv) hchoice)
    · exact .inr (.choice hf hv hchoice)

/-- A record of given values is not read because it does not match its structure. -/
theorem read_error {e : RecordError} (hn : (given.map Prod.fst).Nodup)
    (hname : r.contains name = true)
    (hmembers : ∀ key ∈ given.map Prod.fst, (r.allFields name).contains key = true)
    (h : r.read name (.ofMembers given) = .error e) :
    r.Mismatch name given e ∨ r.FaultyDefault name e := by
  unfold read at h
  split at h
  · cases h
  · rcases bind_eq_error_iff.1 h with h | ⟨values, hvalid, h⟩
    · refine (validate_error hname (fun e he => ?_) h).mismatch hn
      exact hmembers _ (List.mem_map_of_mem (Json.mem_of_mem_sortMembers he))
    · split at h
      · cases h
      · next hform =>
        cases h
        exact .inl (.form hvalid hform)

end Registry

/-! ## Accepted combiners -/

namespace Parallel

variable {r : Registry} {pipe : String} {branches : List Step} {addEach : Bool} {c : Concept}
  {q : Parallel} {names names' : List String}

/-- The names that are collected are those of the results. -/
theorem results_eq (h : results pipe names branches = .ok names') :
    names' = names ++ branches.map Engine.resultName := by
  induction branches generalizing names with
  | nil =>
    cases h
    exact (List.append_nil _).symm
  | cons s branches ih =>
    unfold results at h
    split at h
    · cases h
    · next name hname =>
      split at h
      · cases h
      · have hresult : Engine.resultName s = name := by
          rw [Engine.resultName, hname, Option.getD_some]
        rw [ih h, List.map_cons, hresult, ← List.append_cons]

/-- A combiner that is accepted has a field for the result of each branch. -/
theorem make_contains (h : make r pipe branches addEach (some c) = .ok q) :
    ∀ name ∈ q.branches.map Engine.resultName, (r.allFields c.shape).contains name = true := by
  obtain ⟨rfl, hne, _⟩ := make_ok h
  have hbranches : branches.isEmpty = false := by simpa using hne
  simp only [make, hbranches, Option.isNone_some, Bool.and_false, Bool.false_eq_true, if_false,
    bind_eq_ok_iff] at h
  obtain ⟨names, hnames, h⟩ := h
  rw [results_eq hnames, List.nil_append] at h
  split at h
  · simp [invalid] at h
  · next hnone =>
    intro name hname
    simpa using List.find?_eq_none.1 hnone name hname

theorem make_branches_ne {combined : Option Concept}
    (h : make r pipe branches addEach combined = .ok q) : q.branches ≠ [] := by
  obtain ⟨rfl, hne, _⟩ := make_ok h
  exact hne

end Parallel

/-! ## Combining -/

namespace Engine

variable {e : Engine} {pipe : String} {branches : List Step} {addEach : Bool} {c : Concept}
  {q : Parallel} {results : List (String × Stuff)} {cause : RunCause}

/-- The values of results under their names. -/
def valuesOf (results : List (String × Stuff)) : List (String × Json) :=
  results.map fun (name, s) => (name, s.content.value)

theorem map_fst_valuesOf (results : List (String × Stuff)) :
    (valuesOf results).map Prod.fst = results.map Prod.fst := by
  rw [valuesOf, List.map_map]
  rfl

/-- The results of the branches of an accepted parallel are combined, unless their values do not
match the structure of the combiner: no field is unknown, and one is missing only if it is required,
has no default and is given nothing but null. In a registry of compiled structures no default is at
fault. -/
theorem combine_error
    (hmake : Parallel.make e.library.registry pipe branches addEach (some c) = .ok q)
    (hresults : results.map Prod.fst = q.branches.map resultName)
    (h : e.combine c results = .error cause) :
    ∃ err, cause = .record err ∧
      (e.library.registry.Mismatch c.shape (valuesOf results) err ∨
        e.library.registry.FaultyDefault c.shape err ∧ ¬ e.library.registry.Compiled) := by
  obtain ⟨err, herr, rfl⟩ := mapError_eq_error_iff.1 h
  have hfields := Parallel.make_contains hmake
  have hdistinct := (Parallel.make_distinct hmake).2
  rw [← hresults, ← map_fst_valuesOf] at hfields hdistinct
  obtain ⟨s, hs⟩ := List.exists_mem_of_ne_nil _ (Parallel.make_branches_ne hmake)
  have hname : e.library.registry.contains c.shape = true :=
    Registry.contains_of_allFields (Parallel.make_contains hmake _ (List.mem_map_of_mem hs))
  refine ⟨err, rfl, ?_⟩
  rcases Registry.read_error hdistinct hname hfields herr with hmismatch | hfault
  · exact .inl hmismatch
  · exact .inr ⟨hfault, fun hcompiled => hcompiled.not_faultyDefault hfault⟩

/-- An engine without pipes. -/
def bareEngine : Engine :=
  { library := .initial }

/-- A branch that makes the caption of an image. -/
def captionBranch : Step :=
  ⟨"caption", some "caption", none, none⟩

/-- A caption. -/
def captionResults : List (String × Stuff) :=
  [("caption", Memory.empty.fresh "caption" NativeConcept.text.concept (.text "a tree"))]

theorem make_caption : Parallel.make bareEngine.library.registry "picture" [captionBranch] false
    (some NativeConcept.image.concept) =
      .ok ⟨[captionBranch], false, some NativeConcept.image.concept⟩ :=
  eq_ok_of_toOption (by decide +kernel)

theorem combine_caption : bareEngine.combine NativeConcept.image.concept captionResults =
    .error (.record ⟨Structure.imageContent, "url", .missing⟩) := by
  have hvalid : Registry.initial.validate Structure.imageContent
      [("caption", .string "a tree")] = .error ⟨Structure.imageContent, "url", .missing⟩ := by
    decide +kernel
  change (Registry.initial.read Structure.imageContent
    (.object [("caption", .string "a tree")])).mapError RunCause.record = _
  rw [Registry.read]
  simp only [hvalid]
  rfl

/-- Not every combiner that is accepted can be filled: an image has no place without another
branch. -/
theorem not_forall_combine_filled : ¬ ∀ (e : Engine) (pipe : String) (branches : List Step)
      (addEach : Bool) (c : Concept) (q : Parallel) (results : List (String × Stuff)),
    Parallel.make e.library.registry pipe branches addEach (some c) = .ok q →
    results.map Prod.fst = q.branches.map resultName →
    ∀ key, e.combine c results ≠ .error (.record ⟨c.shape, key, .missing⟩) := by
  intro hall
  exact hall bareEngine _ _ _ _ _ captionResults make_caption rfl "url" combine_caption

/-- What is wrong with a caption alone is that the place of the image is missing. -/
theorem combine_error_caption :
    Parallel.make bareEngine.library.registry "picture" [captionBranch] false
      (some NativeConcept.image.concept) =
        .ok ⟨[captionBranch], false, some NativeConcept.image.concept⟩ ∧
    captionResults.map Prod.fst = [captionBranch].map resultName ∧
    ∃ err, bareEngine.combine NativeConcept.image.concept captionResults = .error (.record err) ∧
      bareEngine.library.registry.Mismatch NativeConcept.image.concept.shape
        (valuesOf captionResults) err := by
  have hcompiled : bareEngine.library.registry.Compiled := .initial
  obtain ⟨err, herr, hmismatch⟩ := combine_error make_caption rfl combine_caption
  exact ⟨make_caption, rfl, err, combine_caption.trans (congrArg _ herr),
    hmismatch.resolve_right fun h => h.2 hcompiled⟩

end Engine

end Conduit
