import Conduit.Proofs.Library.Loaded

/-!
# Wildcards of a loaded library

A concept is canonical (`Concept.Canonical`) if it takes any content in case it is a wildcard. The
native concepts are, and a bundle cannot define another wildcard, for the codes of the native
concepts are reserved. So the concepts of a loaded library are canonical, and so is what its pipes
put out (`Library.Loaded.canonical`).
-/

namespace Conduit

/-- A concept takes any content if it is a wildcard. -/
def Concept.Canonical (c : Concept) : Prop :=
  c.isWildcard = true → c.shape = Structure.dynamicContent

/-- The native concepts are canonical. -/
theorem NativeConcept.concept_canonical (n : NativeConcept) : n.concept.Canonical := by
  unfold Concept.Canonical
  cases n <;> decide

/-- A concept that is made has no native code. -/
theorem ConceptLibrary.make_canonical {c c' : ConceptLibrary} {domain code : String}
    {b : ConceptBlueprint} {concept : Concept} (h : c.make domain code b = .ok (concept, c')) :
    concept.Canonical ∧ c'.concepts = c.concepts := by
  unfold ConceptLibrary.make at h
  split at h
  · cases h
  · next hfault =>
    simp only [bind_eq_ok_iff] at h
    obtain ⟨⟨shape, refines, registry⟩, _, h⟩ := h
    cases h
    have hcode : NativeConcept.ofCode? code = none := by
      unfold codeFault? at hfault
      split at hfault
      · cases hfault
      · split at hfault
        · cases hfault
        · next hnot => exact Option.not_isSome_iff_eq_none.1 hnot
    refine ⟨?_, rfl⟩
    intro hwild
    simp [Concept.isWildcard, Concept.native?, hcode] at hwild

/-- The concepts of a library are canonical. -/
def ConceptLibrary.Canonical (c : ConceptLibrary) : Prop :=
  ∀ name concept, c.get? name = some concept → concept.Canonical

theorem ConceptLibrary.initial_canonical : ConceptLibrary.initial.Canonical := by
  intro name concept h
  have hmem := Dict.mem_values_of_get? h
  have hall : ConceptLibrary.initial.concepts.values =
      NativeConcept.all.map NativeConcept.concept := by
    decide
  rw [hall] at hmem
  obtain ⟨n, _, rfl⟩ := List.mem_map.1 hmem
  exact n.concept_canonical

/-- Adding concepts keeps a library canonical. -/
theorem Library.addConcepts_canonical {domain : String} {c c' : ConceptLibrary}
    {es : List (String × ConceptBlueprint)} (hc : c.Canonical)
    (h : addConcepts domain c es = .ok c') : c'.Canonical := by
  induction es generalizing c with
  | nil =>
    cases h
    exact hc
  | cons e es ih =>
    obtain ⟨code, b⟩ := e
    simp only [addConcepts, bind_eq_ok_iff] at h
    obtain ⟨⟨concept, c₁⟩, hmake, c₂, hadd, h⟩ := h
    obtain ⟨hcanonical, hconcepts⟩ := ConceptLibrary.make_canonical hmake
    refine ih ?_ h
    intro name k hk
    unfold ConceptLibrary.add at hadd
    split at hadd
    · cases hadd
    · split at hadd
      · cases hadd
      · cases hadd
        rw [ConceptLibrary.get?, Dict.get?_insert] at hk
        split at hk
        · cases hk
          exact hcanonical
        · rw [hconcepts] at hk
          exact hc name k hk

/-- What a reference stands for is a concept of the library. -/
theorem ConceptLibrary.Canonical.resolve {c : ConceptLibrary} {reference domain : String}
    {concept : Concept} (hc : c.Canonical) (h : c.resolve? reference domain = some concept) :
    concept.Canonical := by
  simp only [ConceptLibrary.resolve?] at h
  split at h
  · exact hc _ _ h
  · rcases Option.or_eq_some_iff.1 h with h | ⟨_, h⟩
    · exact hc _ _ h
    · exact hc _ _ h

/-- The output of a pipe that is made is a concept of the library. -/
theorem ConceptLibrary.Canonical.output {c : ConceptLibrary} {domain code : String}
    {b : PipeBlueprint} {p : Pipe} (hc : c.Canonical) (h : c.makePipe domain code b = .ok p) :
    p.output.Canonical := by
  unfold ConceptLibrary.makePipe at h
  cases hcode : Text.isPipeCode code with
  | false => simp [hcode, bind, Except.bind, throw, throwThe, MonadExceptOf.throw] at h
  | true =>
    simp only [hcode, Bool.not_true, Bool.false_eq_true, if_false, bind_eq_ok_iff] at h
    obtain ⟨inputs, _, output, houtput, ⟨kind, multiplicity⟩, _, h⟩ := h
    cases h
    unfold ConceptLibrary.requirementOf at houtput
    split at houtput
    · cases houtput
    · simp only [bind_eq_ok_iff] at houtput
      obtain ⟨concept, hconcept, houtput⟩ := houtput
      cases houtput
      unfold ConceptLibrary.conceptOf at hconcept
      split at hconcept
      · next hresolve =>
        cases hconcept
        exact hc.resolve hresolve
      · cases hconcept

/-- In a loaded library every concept is canonical, and so is what every pipe puts out. -/
theorem Library.Loaded.canonical {l : Library} (h : l.Loaded) :
    l.concepts.Canonical ∧ ∀ p, l.Registered p → p.output.Canonical := by
  induction h with
  | initial => exact ⟨ConceptLibrary.initial_canonical, fun _ hp => by cases hp⟩
  | load _ hload ih =>
    obtain ⟨hconcepts, _, hnew⟩ := load_ok hload
    have hcanonical := addConcepts_canonical ih.1 hconcepts
    refine ⟨hcanonical, ?_⟩
    intro p hp
    rcases hnew p.code p hp with hold | ⟨_, hadmitted⟩
    · exact ih.2 p hold
    · obtain ⟨b, hmade⟩ := hadmitted.made
      exact hcanonical.output hmade

end Conduit
