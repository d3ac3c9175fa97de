import Conduit.Proofs.Concept.Compatible
import Conduit.Proofs.Library.Reload

/-!
# Strict and lenient comparison

Concepts that are compatible in the strict mode are compatible in the lenient one, unless their
structures have no fields (`Library.compatible_of_strict_iff`). Equivalent structures have their
fields under the same names (`Registry.exists_of_equivalent`), so each has those that the other
requires; but in the lenient mode, where no structure descends from the other, one field at least
has to match (`Registry.hasCompatibleFields_of_equivalent`). The mode also refuses two built-in
structures, of which only those without fields are equivalent.
-/

namespace Conduit

namespace Registry

variable {r r' : Registry} {x y key : String} {f : Field}

/-! ## Equivalent structures -/

/-- A structure has no fields, and inherits none. -/
def Fieldless (r : Registry) (name : String) : Prop :=
  r.allFields name = .empty

instance : DecidablePred r.Fieldless := fun name =>
  inferInstanceAs (Decidable (r.allFields name = .empty))

theorem fieldless_iff : r.Fieldless x ↔ (r.allFields x).size = 0 := by
  unfold Fieldless Dict.size
  rw [List.length_eq_zero_iff]
  exact ⟨fun h => h ▸ rfl, fun h => Dict.ext h⟩

theorem Fieldless.of_equivalent (h : r.equivalent x y = true) :
    r.Fieldless x ↔ r.Fieldless y := by
  rw [fieldless_iff, fieldless_iff, beq_iff_eq.1 (Bool.and_eq_true_iff.1 h).1]

/-- A field of a structure has a partner of its name and type in an equivalent one. -/
theorem exists_of_equivalent (h : r.equivalent x y = true)
    (hf : (r.allFields y).get? key = some f) :
    ∃ g, (r.allFields x).get? key = some g ∧ g.type = f.type := by
  obtain ⟨hsize, hall⟩ := Bool.and_eq_true_iff.1 h
  have hpartner : ∀ key g, (r.allFields x).get? key = some g →
      ∃ f, (r.allFields y).get? key = some f ∧ f.type = g.type := by
    intro key g hg
    have hany := List.all_eq_true.1 hall _ (Dict.mem_entries_of_get? hg)
    obtain ⟨f, hf, hsame⟩ := Option.any_eq_true _ _ |>.1 hany
    simp only [Bool.and_eq_true, beq_iff_eq] at hsame
    exact ⟨f, hf, hsame.1.1⟩
  -- As many names, and all among those of the second structure, are the same names.
  have hsubset : (r.allFields x).keys ⊆ (r.allFields y).keys := by
    intro key hkey
    obtain ⟨g, hg⟩ := Dict.exists_of_contains (Dict.mem_keys_iff.1 hkey)
    obtain ⟨f, hf, _⟩ := hpartner key g hg
    exact Dict.mem_keys_iff.2 (Dict.contains_of_get? hf)
  have hlength : (r.allFields y).keys.length ≤ (r.allFields x).keys.length := by
    unfold Dict.keys
    rw [List.length_map, List.length_map]
    exact (beq_iff_eq.1 hsize).ge
  have hperm := (List.subperm_of_subset (r.allFields x).nodup hsubset).perm_of_length_le hlength
  have hmem : key ∈ (r.allFields x).keys :=
    hperm.mem_iff.2 (Dict.mem_keys_iff.2 (Dict.contains_of_get? hf))
  obtain ⟨g, hg⟩ := Dict.exists_of_contains (Dict.mem_keys_iff.1 hmem)
  obtain ⟨f', hf', htype⟩ := hpartner key g hg
  cases hf.symm.trans hf'
  exact ⟨g, hg, htype.symm⟩

/-- Structures that are equivalent are compatible on their fields if they have any, unless both are
built in. -/
theorem hasCompatibleFields_of_equivalent (hnamed : (r.allFields y).Named)
    (h : r.equivalent x y = true) (hfields : ¬ r.Fieldless y)
    (hnative : (r.isNative x && r.isNative y) = false) : r.hasCompatibleFields x y = true := by
  have hmatched : ∀ f ∈ (r.allFields y).values, matchedIn (r.allFields x) f = true := by
    intro f hf
    obtain ⟨key, hkey⟩ := Dict.exists_get?_of_mem_values hf
    obtain ⟨g, hg, htype⟩ := exists_of_equivalent h hkey
    rw [matchedIn, hnamed key f hkey, hg, Option.any_some, htype]
    exact beq_self_eq_true _
  rw [fieldless_iff] at hfields
  obtain ⟨f, hf⟩ := List.exists_mem_of_length_pos (l := (r.allFields y).values)
    (by rw [Dict.values, List.length_map]; exact Nat.pos_of_ne_zero hfields)
  simp only [hasCompatibleFields, hnative, Bool.false_eq_true, if_false, Bool.and_eq_true,
    List.any_eq_true, List.all_eq_true, List.mem_filter, and_imp]
  exact ⟨⟨f, hf, hmatched f hf⟩, fun f hf _ => hmatched f hf⟩

theorem contains_of_isNative (h : r.isNative x = true) : r.contains x = true := by
  obtain ⟨s, hs, _⟩ := Option.any_eq_true _ _ |>.1 h
  exact Dict.contains_of_get? hs

/-- Of the built-in structures, only those without fields are equivalent to another one. -/
theorem fieldless_of_native (hx : Registry.initial.isNative x = true)
    (hy : Registry.initial.isNative y = true) (hne : x ≠ y)
    (h : Registry.initial.equivalent x y = true) : Registry.initial.Fieldless y := by
  have hall : ∀ x ∈ Registry.initial.structures.keys, ∀ y ∈ Registry.initial.structures.keys,
      x ≠ y → Registry.initial.equivalent x y = true → Registry.initial.Fieldless y := by
    decide +kernel
  exact hall x (Dict.mem_keys_iff.2 (contains_of_isNative hx)) y
    (Dict.mem_keys_iff.2 (contains_of_isNative hy)) hne h

/-! ## Names of fields -/

/-- All structures have their fields under their own names. -/
def FieldsNamed (r : Registry) : Prop :=
  ∀ name s, r.get? name = some s → s.fields.Named

theorem FieldsNamed.allFields (h : r.FieldsNamed) (name : String) : (r.allFields name).Named := by
  intro key f hf
  obtain ⟨x, _, s, hs, hkey⟩ := exists_of_get?_fieldsOf hf
  exact h x s hs key f hkey

theorem FieldsNamed.part (h : r.FieldsNamed) (hpart : r'.Part r) : r'.FieldsNamed :=
  fun name s hs => h name s (hpart.get? hs)

end Registry

namespace ConceptLibrary

variable {l l₁ l' : ConceptLibrary} {t w c : Concept} {domain code : String}

/-- A structure that is given by a schema has its fields under their own names. -/
theorem make_fieldsNamed (hl : l.registry.FieldsNamed) {b : ConceptBlueprint}
    (h : l.make domain code b = .ok (c, l₁)) : l₁.registry.FieldsNamed := by
  unfold make at h
  split at h
  · cases h
  · simp only [bind_eq_ok_iff] at h
    obtain ⟨⟨shape, refines, registry⟩, hshape, h⟩ := h
    cases h
    cases shapeOf_eq_ok_iff.1 hshape with
    | plain | named | refining => exact hl
    | schema _ _ hs hregister =>
      intro name s' hs'
      rcases (Registry.register?_ok hregister).2 name s' hs' with hold | ⟨_, rfl⟩
      · exact hl name s' hold
      · exact Registry.compile_named hs

theorem define_fieldsNamed (hl : l.registry.FieldsNamed) {b : ConceptBlueprint}
    (hmake : l.make domain code b = .ok (c, l₁)) (hadd : l₁.add c = .ok l') :
    l'.registry.FieldsNamed := by
  rw [(add_ok hadd).1]
  exact make_fieldsNamed hl hmake

/-- Two concepts that are no wildcards and refine nothing have different structures without fields,
and the first structure does not descend from the second. -/
structure Blank (l : ConceptLibrary) (t w : Concept) : Prop where
  wildcards : t.isWildcard = false ∧ w.isWildcard = false
  names : t.name ≠ w.name
  refines : t.refines = none ∧ w.refines = none
  shapes : t.shape ≠ w.shape
  unrelated : l.registry.isSubtype t.shape w.shape = false
  fieldless : l.registry.Fieldless t.shape ∧ l.registry.Fieldless w.shape

/-- Strict comparison accepts structures without fields, and lenient comparison does not. -/
theorem Blank.isCompatible (h : l.Blank t w) :
    l.isCompatible t w true = true ∧ l.isCompatible t w false = false := by
  obtain ⟨⟨ht, hw⟩, hname, ⟨htr, hwr⟩, hshape, hsub, htf, hwf⟩ := h
  have hequivalent : l.registry.equivalent t.shape w.shape = true := by
    rw [Registry.equivalent, htf, hwf]
    rfl
  have hfields : l.registry.hasCompatibleFields t.shape w.shape = false := by
    rw [Registry.hasCompatibleFields, htf, hwf]
    split <;> rfl
  simp [ConceptLibrary.isCompatible, ht, hw, hname, hshape, htr, hwr, hsub, hequivalent, hfields]

/-- Concepts of which only the strict comparison accepts the structures. -/
theorem isCompatible_strict_only (hstrict : l.isCompatible t w true = true)
    (hlenient : l.isCompatible t w false = false) :
    (t.isWildcard = false ∧ w.isWildcard = false) ∧ t.name ≠ w.name ∧
      (t.refines = none ∧ w.refines = none) ∧ t.shape ≠ w.shape ∧
      l.registry.isSubtype t.shape w.shape = false ∧
      l.registry.hasCompatibleFields t.shape w.shape = false ∧
      l.registry.equivalent t.shape w.shape = true := by
  unfold ConceptLibrary.isCompatible at hstrict hlenient
  by_cases hwild : (t.isWildcard || w.isWildcard) = true
  · simp [hwild] at hlenient
  by_cases hname : t.name = w.name
  · simp [hname] at hlenient
  by_cases hshape : t.shape = w.shape
  · simp [hshape] at hlenient
  by_cases hrefines : t.refines = some w.name
  · simp [hrefines] at hlenient
  by_cases hnone : (t.refines.isNone && w.refines.isNone) = true
  · simp_all
  · simp [hwild, hname, hshape, hrefines, hnone] at hstrict

end ConceptLibrary

namespace Library

variable {c c' : ConceptLibrary} {domain : String}

theorem addConcepts_fieldsNamed {es : List (String × ConceptBlueprint)}
    (hc : c.registry.FieldsNamed) (h : addConcepts domain c es = .ok c') :
    c'.registry.FieldsNamed := by
  induction es generalizing c with
  | nil =>
    cases h
    exact hc
  | cons e es ih =>
    obtain ⟨code, b⟩ := e
    simp only [addConcepts, bind_eq_ok_iff] at h
    obtain ⟨⟨concept, c₁⟩, hmake, c₂, hadd, h⟩ := h
    exact ih (ConceptLibrary.define_fieldsNamed hc hmake hadd) h

/-- After any changes, all structures have their fields under their own names. -/
theorem fieldsNamed_after (changes : List Change) : (after changes).registry.FieldsNamed := by
  induction changes using List.reverseRecOn with
  | nil => exact Registry.initial_sound.named
  | append_singleton changes change ih =>
    rw [after_concat]
    rcases (after changes).change_cases change with hsame | ⟨b, policy, _, hload⟩ |
      ⟨domain, _, hunload⟩
    · rw [hsame]
      exact ih
    · obtain ⟨_, ⟨concepts, hconcepts, hadded⟩, _⟩ := load_eq_ok_iff.1 hload
      have hregistry := addConcepts_fieldsNamed ih hconcepts
      rw [Library.registry, (addPipes_ok hadded).1]
      exact hregistry
    · exact ih.part (unload_part hunload)

/-- The built-in structures stay as they are in the initial registry. -/
theorem initial_within_after (changes : List Change) :
    Registry.initial.Within (after changes).registry := by
  have hall : ∀ e ∈ Registry.initial.structures.entries,
      e.2 ∈ Registry.builtIns ∧ e.2.name = e.1 := by
    decide
  intro name s hs
  obtain ⟨hmem, hname⟩ := hall (name, s) (Dict.mem_entries_of_get? hs)
  have hget := builtIns_after changes hmem
  rwa [hname] at hget

/-- Equivalent structures have no fields, unless their fields are compatible. -/
theorem fieldless_after (changes : List Change) {x y : String} (hne : x ≠ y)
    (h : (after changes).registry.equivalent x y = true)
    (hfields : (after changes).registry.hasCompatibleFields x y = false) :
    (after changes).registry.Fieldless y := by
  by_cases hnative : ((after changes).registry.isNative x &&
      (after changes).registry.isNative y) = true
  · rw [isNative_after, isNative_after, Bool.and_eq_true] at hnative
    have hsame : ∀ name, Registry.initial.isNative name = true →
        (after changes).registry.allFields name = Registry.initial.allFields name :=
      fun name hname => Registry.allFields_within Registry.initial_sound.closed
        (initial_within_after changes) (Registry.contains_of_isNative hname)
    unfold Registry.Fieldless
    unfold Registry.equivalent at h
    rw [hsame x hnative.1, hsame y hnative.2] at h
    rw [hsame y hnative.2]
    exact Registry.fieldless_of_native hnative.1 hnative.2 hne h
  · by_contra hsome
    have hcompatible := Registry.hasCompatibleFields_of_equivalent
      ((fieldsNamed_after changes).allFields y) h hsome (Bool.eq_false_iff.2 hnative)
    rw [hfields] at hcompatible
    cases hcompatible

/-- After any changes, concepts that are compatible in the strict mode are compatible in the lenient
one, unless their structures are different ones without fields. -/
theorem compatible_of_strict_iff (changes : List Change) (t w : Concept) :
    ((after changes).concepts.isCompatible t w true = true →
      (after changes).concepts.isCompatible t w false = true) ↔
      ¬ (after changes).concepts.Blank t w := by
  constructor
  · intro himp hblank
    obtain ⟨hstrict, hlenient⟩ := hblank.isCompatible
    rw [himp hstrict] at hlenient
    cases hlenient
  · intro hblank hstrict
    by_contra hlenient
    obtain ⟨hwild, hname, hrefines, hshape, hsub, hfields, hequivalent⟩ :=
      ConceptLibrary.isCompatible_strict_only hstrict (Bool.eq_false_iff.2 hlenient)
    have hfieldless := fieldless_after changes hshape hequivalent hfields
    exact hblank ⟨hwild, hname, hrefines, hshape, hsub,
      (Registry.Fieldless.of_equivalent hequivalent).2 hfieldless, hfieldless⟩

/-! ## Seals -/

/-- Marks and stamps have structures without fields. -/
def sealBundle : Bundle :=
  conceptBundle "seals" [("Mark", { shape := some (.schema .empty) }),
    ("Stamp", { shape := some (.schema .empty) })]

/-- The concept of marks, or of stamps. -/
def sealConcept (code : String) : Concept :=
  ⟨code, "seals", "", code, none⟩

/-- A mark may be used for a stamp in the strict mode, and not in the lenient one. -/
theorem not_forall_compatible_of_strict : ¬ ∀ (changes : List Change) (t w : Concept),
    (after changes).concepts.Has t → (after changes).concepts.Has w →
      (after changes).concepts.isCompatible t w true = true →
      (after changes).concepts.isCompatible t w false = true := by
  intro hall
  have hhas : (after [.load sealBundle {}]).concepts.Has (sealConcept "Mark") ∧
      (after [.load sealBundle {}]).concepts.Has (sealConcept "Stamp") := by
    unfold ConceptLibrary.Has
    decide +kernel
  have hcompatible : ∀ strict, (after [.load sealBundle {}]).concepts.isCompatible
      (sealConcept "Mark") (sealConcept "Stamp") strict = strict := by
    decide +kernel
  have hlenient := hall _ _ _ hhas.1 hhas.2 (hcompatible true)
  rw [hcompatible false] at hlenient
  cases hlenient

end Library

end Conduit
