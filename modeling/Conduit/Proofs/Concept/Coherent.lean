import Conduit.Proofs.Concept.Sound
import Conduit.Proofs.Structure.Rooted

/-!
# Concepts and structures that belong together

A library of concepts is coherent if the structures of its concepts are registered and end at the
root, and every structure that is not built in is the structure of some concept
(`ConceptLibrary.Coherent`). Defining a concept keeps this, although it first registers a structure
that no concept has yet, and so does taking a concept out, although its structure may be that of
concepts of other domains. So the names of the structures follow from the concepts
(`Coherent.contains_iff`).
-/

namespace Conduit.ConceptLibrary

variable {l l' l₁ : ConceptLibrary} {c d : Concept} {domain code name : String}

/-- Every concept is under its own name and has a structure that is registered, and every structure
that is not built in is that of a concept. -/
structure Coherent (l : ConceptLibrary) : Prop where
  rooted : l.registry.Rooted
  keyed : ∀ name c, l.get? name = some c → c.name = name
  shaped : ∀ name c, l.get? name = some c → l.registry.contains c.shape = true
  owned : ∀ name s, l.registry.get? name = some s → s.native = false →
    ∃ key c, l.get? key = some c ∧ c.shape = name

theorem initial_coherent : ConceptLibrary.initial.Coherent where
  rooted := Registry.initial_rooted
  keyed := initial_sound.keyed
  shaped := initial_sound.shaped
  owned := by
    have hall : ∀ e ∈ Registry.initial.structures.entries, e.2.native = true := by
      decide
    intro name s hs hnative
    rw [hall (name, s) (Dict.mem_entries_of_get? hs)] at hnative
    cases hnative

/-- The structures are the built-in ones and those of the concepts. -/
theorem Coherent.contains_iff (h : l.Coherent) : l.registry.contains name = true ↔
    l.registry.isNative name = true ∨ ∃ key c, l.get? key = some c ∧ c.shape = name := by
  constructor
  · intro hname
    obtain ⟨s, hs⟩ := Dict.exists_of_contains hname
    cases hnative : s.native with
    | true =>
      have hs' : l.registry.get? name = some s := hs
      exact .inl (by rw [Registry.isNative, hs', Option.any_some, hnative])
    | false => exact .inr (h.owned name s hs hnative)
  · rintro (hnative | ⟨key, c, hc, rfl⟩)
    · exact (Registry.Part.refl l.registry).native name hnative
    · exact h.shaped key c hc

/-! ## Definitions -/

/-- The name of a concept is a word. -/
theorem isVariable_of_codeFault (h : codeFault? code = none) : Text.isVariable code = true := by
  unfold codeFault? at h
  split at h
  · cases h
  · next hcode =>
    rw [Bool.not_eq_true, Bool.not_eq_false'] at hcode
    unfold Text.isConceptCode at hcode
    unfold Text.isVariable
    cases hchars : code.toList with
    | nil =>
      rw [hchars] at hcode
      cases hcode
    | cons c cs =>
      rw [hchars] at hcode
      obtain ⟨hupper, hall⟩ := Bool.and_eq_true_iff.1 hcode
      have halpha : c.isAlpha = true := by
        delta Char.isAlpha
        rw [hupper, Bool.true_or]
      rw [List.all_eq_true] at hall
      simp only [halpha, Bool.true_or, Bool.true_and, List.all_eq_true]
      intro c hc
      rw [hall c hc, Bool.true_or]

/-- The structure that a declaration calls for is supplied. -/
theorem shapeOf_supplies (hcode : Text.isVariable code = true) {detail : ConceptDetail}
    {shape : String} {refines : Option String} {registry : Registry}
    (h : l.shapeOf domain code detail = .ok (shape, refines, registry)) :
    l.registry.Supplies shape registry := by
  cases shapeOf_eq_ok_iff.1 h with
  | plain | named | refining => exact .same
  | schema _ _ hs hregister =>
    obtain ⟨hname, hparent, hnative⟩ := Registry.synthesize_rooted hcode hs
    exact .new hname hparent hnative hregister

/-- A concept that is made belongs to the domain that it is made for, and its structure is
supplied. -/
theorem make_supplies {b : ConceptBlueprint} (h : l.make domain code b = .ok (c, l₁)) :
    c.domain = domain ∧ l₁.concepts = l.concepts ∧ l.registry.Supplies c.shape l₁.registry := by
  unfold make at h
  split at h
  · cases h
  · next hcode =>
    simp only [bind_eq_ok_iff] at h
    obtain ⟨⟨shape, refines, registry⟩, hshape, h⟩ := h
    cases h
    exact ⟨rfl, rfl, shapeOf_supplies (isVariable_of_codeFault hcode) hshape⟩

/-- Defining a concept keeps a library coherent. -/
theorem Coherent.define (hl : l.Coherent) {b : ConceptBlueprint}
    (hmake : l.make domain code b = .ok (c, l₁)) (hadd : l₁.add c = .ok l') : l'.Coherent := by
  obtain ⟨_, hconcepts, hsupplies⟩ := make_supplies hmake
  obtain ⟨hsame, hshape, hkeep, hcases⟩ := add_ok hadd
  simp only [get?, hconcepts] at hkeep hcases
  rw [← hsame] at hsupplies hshape
  have hmine : l'.get? c.name = some c := by
    unfold add at hadd
    split at hadd
    · cases hadd
    · split at hadd
      · cases hadd
      · cases hadd
        simp [get?]
  refine ⟨hl.rooted.supplies hsupplies, ?_, ?_, ?_⟩
  · intro name d hd
    rcases hcases name d hd with hd | ⟨hname, rfl⟩
    · exact hl.keyed name d hd
    · exact hname
  · intro name d hd
    rcases hcases name d hd with hd | ⟨_, rfl⟩
    · obtain ⟨s, hs⟩ := Dict.exists_of_contains (hl.shaped name d hd)
      exact Dict.contains_of_get? (hsupplies.part.get? hs)
    · exact hshape
  · intro name s hs hnative
    rcases hsupplies.get?_cases hs with hold | ⟨rfl, _⟩
    · obtain ⟨key, d, hd, hd'⟩ := hl.owned name s hold hnative
      exact ⟨key, d, hkeep key d hd, hd'⟩
    · exact ⟨c.name, c, hmine, rfl⟩

/-! ## Concepts that are taken out -/

/-- What is in a library after a concept is taken out. -/
theorem get?_removeConcept (l : ConceptLibrary) (c : Concept) (name : String) :
    (l.removeConcept c).get? name = if c.name = name then none else l.get? name := by
  unfold removeConcept
  dsimp only
  split <;> exact Dict.get?_erase _ _ _

/-- The structure of a concept that is taken out goes with it, unless another concept has it. -/
theorem removeConcept_registry (l : ConceptLibrary) (c : Concept) :
    (∃ key d, (l.removeConcept c).get? key = some d ∧ d.shape = c.shape) ∧
        (l.removeConcept c).registry = l.registry ∨
      (∀ key d, (l.removeConcept c).get? key = some d → d.shape ≠ c.shape) ∧
        (l.removeConcept c).registry = l.registry.remove c.shape := by
  unfold removeConcept
  dsimp only
  split
  · next hany =>
    left
    obtain ⟨d, hd, hshape⟩ := List.any_eq_true.1 hany
    obtain ⟨⟨key, d⟩, hmem, rfl⟩ := List.mem_map.1 hd
    exact ⟨⟨key, d, Dict.get?_of_mem_entries hmem, by simpa using hshape⟩, rfl⟩
  · next hnone =>
    right
    refine ⟨fun key d hd hshape => hnone ?_, rfl⟩
    exact List.any_eq_true.2 ⟨d, Dict.mem_values_of_get? hd, by simpa using hshape⟩

/-- What is left is part of what was there. -/
theorem removeConcept_part (l : ConceptLibrary) (c : Concept) :
    (l.removeConcept c).registry.Part l.registry := by
  rcases l.removeConcept_registry c with ⟨_, hsame⟩ | ⟨_, hremove⟩
  · rw [hsame]
    exact .refl _
  · rw [hremove]
    exact Registry.remove_part _ _

/-- Taking out a concept of the library keeps it coherent. -/
theorem Coherent.removeConcept (hl : l.Coherent) (hc : ∀ d, l.get? c.name = some d → d = c) :
    (l.removeConcept c).Coherent where
  rooted := by
    rcases l.removeConcept_registry c with ⟨_, hsame⟩ | ⟨_, hremove⟩
    · rw [hsame]
      exact hl.rooted
    · rw [hremove]
      exact hl.rooted.remove _
  keyed name d hd := by
    rw [get?_removeConcept] at hd
    split at hd
    · cases hd
    · exact hl.keyed name d hd
  shaped name d hd := by
    have hold : l.registry.contains d.shape = true := by
      rw [get?_removeConcept] at hd
      split at hd
      · cases hd
      · exact hl.shaped name d hd
    rcases l.removeConcept_registry c with ⟨_, hsame⟩ | ⟨hothers, hremove⟩
    · rw [hsame]
      exact hold
    · obtain ⟨s, hs⟩ := Dict.exists_of_contains hold
      have hstays : (l.registry.remove c.shape).get? d.shape = some s := by
        rw [Registry.get?_remove, if_neg fun h => hothers name d hd h.1.symm]
        exact hs
      rw [hremove]
      exact Dict.contains_of_get? hstays
  owned name s hs hnative := by
    have hold : l.registry.get? name = some s := (l.removeConcept_part c).get? hs
    obtain ⟨key, d, hd, rfl⟩ := hl.owned name s hold hnative
    by_cases hkey : c.name = key
    · -- the concept itself had the structure, so another one has it or it is gone
      obtain rfl := hc d (by rw [hkey]; exact hd)
      rcases l.removeConcept_registry d with ⟨hshared, _⟩ | ⟨_, hremove⟩
      · exact hshared
      · have hnot : l.registry.isNative d.shape = false := by
          rw [Registry.isNative, hold, Option.any_some, hnative]
        rw [hremove, Registry.get?_remove, if_pos ⟨rfl, hnot⟩] at hs
        cases hs
    · refine ⟨key, d, ?_, rfl⟩
      rw [get?_removeConcept, if_neg hkey]
      exact hd

/-! ## Domains that are taken out -/

/-- Concepts that are taken out one after another are those of their names. -/
theorem foldl_removeConcept_concepts (cs : List Concept) (l : ConceptLibrary) :
    (cs.foldl removeConcept l).concepts =
      l.concepts.filter fun name _ => name ∉ cs.map Concept.name := by
  induction cs generalizing l with
  | nil => exact (Dict.filter_eq_self fun _ _ _ => by simp).symm
  | cons c cs ih =>
    have herase : (l.removeConcept c).concepts = l.concepts.erase c.name := by
      unfold removeConcept
      dsimp only
      split <;> rfl
    rw [List.foldl_cons, ih, herase, Dict.erase, Dict.filter_filter]
    congr 1
    funext name _
    by_cases hname : name = c.name <;> simp [hname]

theorem foldl_removeConcept_part (cs : List Concept) (l : ConceptLibrary) :
    (cs.foldl removeConcept l).registry.Part l.registry := by
  induction cs generalizing l with
  | nil => exact .refl _
  | cons c cs ih => exact (ih _).trans (l.removeConcept_part c)

/-- Taking out concepts of the library one after another keeps it coherent. -/
theorem Coherent.foldl_removeConcept {cs : List Concept} (hl : l.Coherent)
    (hcs : ∀ c ∈ cs, ∀ d, l.get? c.name = some d → d = c) :
    (cs.foldl ConceptLibrary.removeConcept l).Coherent := by
  induction cs generalizing l with
  | nil => exact hl
  | cons c cs ih =>
    rw [List.forall_mem_cons] at hcs
    refine ih (hl.removeConcept hcs.1) fun d hd a ha => hcs.2 d hd a ?_
    rw [get?_removeConcept] at ha
    split at ha
    · cases ha
    · exact ha

/-- The concepts of a domain are in the library. -/
theorem Coherent.of_mem_ofDomain (hl : l.Coherent) (h : c ∈ l.ofDomain domain) :
    l.get? c.name = some c ∧ c.domain = domain := by
  obtain ⟨hmem, hdomain⟩ := List.mem_filter.1 h
  obtain ⟨⟨key, c⟩, hentry, rfl⟩ := List.mem_map.1 hmem
  have hget : l.get? key = some c := Dict.get?_of_mem_entries hentry
  exact ⟨by rw [hl.keyed key c hget]; exact hget, by simpa using hdomain⟩

/-- Taking out a domain keeps a library coherent. -/
theorem Coherent.removeDomain (hl : l.Coherent) (domain : String) :
    (l.removeDomain domain).Coherent := by
  refine hl.foldl_removeConcept fun c hc d hd => ?_
  rw [(hl.of_mem_ofDomain hc).1] at hd
  exact (Option.some.inj hd).symm

/-- Taking out a domain leaves the concepts of the others, in their order. -/
theorem Coherent.removeDomain_concepts (hl : l.Coherent) (domain : String) :
    (l.removeDomain domain).concepts = l.concepts.filter fun _ c => c.domain != domain := by
  unfold ConceptLibrary.removeDomain
  rw [foldl_removeConcept_concepts]
  refine Dict.filter_congr fun name c hc => ?_
  rw [Bool.eq_iff_iff, decide_eq_true_eq, bne_iff_ne, not_iff_not, List.mem_map]
  constructor
  · rintro ⟨d, hd, rfl⟩
    obtain ⟨hget, hdomain⟩ := hl.of_mem_ofDomain hd
    obtain rfl : c = d := Option.some.inj (hc.symm.trans hget)
    exact hdomain
  · rintro rfl
    refine ⟨c, ?_, hl.keyed name c hc⟩
    exact List.mem_filter.2 ⟨Dict.mem_values_of_get? hc, beq_self_eq_true _⟩

/-- Taking out a domain leaves part of the structures, in their order. -/
theorem removeDomain_part (l : ConceptLibrary) (domain : String) :
    (l.removeDomain domain).registry.Part l.registry :=
  foldl_removeConcept_part _ l

end Conduit.ConceptLibrary
