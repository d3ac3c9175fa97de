import Conduit.Library.Load
import Conduit.Proofs.Structure.Compile

/-!
# Concept libraries in order

A concept library that comes from the initial one by defining concepts and by registering compiled
structures (`ConceptLibrary.Built`) is in order (`ConceptLibrary.Sound`): its concepts are under
their own names, their structures are registered, and a concept that refines another one shares its
structure. Concepts and structures that are added change nothing about how those that were there
compare (`ConceptLibrary.isCompatible_within`), so what has been checked once stays true.
-/

namespace Conduit.ConceptLibrary

variable {l l' l₁ : ConceptLibrary} {c d : Concept} {domain code name : String}

/-- A concept library that comes from the initial one by defining concepts and by registering
compiled structures. -/
inductive Built : ConceptLibrary → Prop where
  | initial : Built .initial
  | defined {l l₁ l' : ConceptLibrary} {domain code : String} {b : ConceptBlueprint} {c : Concept}
      (hl : Built l) (hmake : l.make domain code b = .ok (c, l₁)) (hadd : l₁.add c = .ok l') :
      Built l'
  | compiled {l : ConceptLibrary} {name source : String} {s : Structure} {registry : Registry}
      (hl : Built l) (hcompile : l.registry.compile name source = .ok s)
      (hregister : l.registry.register? s = some registry) : Built { l with registry }

/-- Concepts are under their own names, with structures that are registered, and share the
structures of those that they refine. -/
structure Sound (l : ConceptLibrary) : Prop where
  registry : l.registry.Sound
  keyed : ∀ name c, l.get? name = some c → c.name = name
  shaped : ∀ name c, l.get? name = some c → l.registry.contains c.shape = true
  refined : ∀ name c, l.get? name = some c → ∀ parent ∈ c.refines,
    ∃ d, l.get? parent = some d ∧ d.shape = c.shape

/-- Every concept and every structure of the first library is in the second. -/
structure Within (l l' : ConceptLibrary) : Prop where
  concepts : ∀ name c, l.get? name = some c → l'.get? name = some c
  registry : l.registry.Within l'.registry

/-- The concept is in the library, under its name. -/
def Has (l : ConceptLibrary) (c : Concept) : Prop :=
  l.get? c.name = some c

theorem Has.within (h : l.Has c) (hw : l.Within l') : l'.Has c :=
  hw.concepts _ _ h

theorem Has.shaped (h : l.Has c) (hl : l.Sound) : l.registry.contains c.shape = true :=
  hl.shaped _ _ h

theorem Within.refl (l : ConceptLibrary) : l.Within l :=
  ⟨fun _ _ h => h, fun _ _ h => h⟩

theorem Within.trans {l'' : ConceptLibrary} (h : l.Within l') (h' : l'.Within l'') :
    l.Within l'' :=
  ⟨fun name c hc => h'.concepts name c (h.concepts name c hc),
    fun name s hs => h'.registry name s (h.registry name s hs)⟩

/-- What a reference stands for is in the library. -/
theorem Sound.has_of_resolve? (hl : l.Sound) {reference : String}
    (h : l.resolve? reference domain = some c) : l.Has c := by
  have hget : ∃ name, l.get? name = some c := by
    simp only [resolve?] at h
    split at h
    · exact ⟨_, h⟩
    · rcases Option.or_eq_some_iff.1 h with h | ⟨_, h⟩
      · exact ⟨_, h⟩
      · exact ⟨_, h⟩
  obtain ⟨name, hname⟩ := hget
  unfold Has
  rw [hl.keyed name c hname]
  exact hname

/-! ## Comparisons -/

/-- Concepts and structures that are added change nothing about how those that were there
compare. -/
theorem isCompatible_within (hl : l.Sound) (hw : l.Within l') (hc : l.Has c) (hd : l.Has d)
    (strict : Bool) : l'.isCompatible c d strict = l.isCompatible c d strict := by
  have hclosed := hl.registry.closed
  have hcs := hc.shaped hl
  have hds := hd.shaped hl
  unfold isCompatible Registry.equivalent
  rw [Registry.isSubtype_within hclosed hw.registry hcs,
    Registry.hasCompatibleFields_within hclosed hw.registry hcs hds,
    Registry.allFields_within hclosed hw.registry hcs,
    Registry.allFields_within hclosed hw.registry hds]

/-- A concept is compatible with itself. -/
theorem isCompatible_self (l : ConceptLibrary) (c : Concept) (strict : Bool) :
    l.isCompatible c c strict = true := by
  unfold isCompatible
  split
  · rfl
  · rw [if_pos (beq_self_eq_true _)]

/-! ## Definitions -/

/-- What the structure of a declared concept can be: that of texts, a registered one that is named,
a new one that a schema gives, or that of the native concept which the concept refines. -/
inductive Shapes (l : ConceptLibrary) (domain code : String) (d : ConceptDetail) :
    String × Option String × Registry → Prop where
  | plain (hshape : d.shape = none) (hrefines : d.refines = none) :
      Shapes l domain code d (Structure.textContent, none, l.registry)
  | named {shape : String} (hshape : d.shape = some (.named shape)) (hrefines : d.refines = none)
      (hknown : l.registry.contains shape = true) :
      Shapes l domain code d (shape, none, l.registry)
  | schema {fields : Dict FieldBlueprint} {s : Structure} {registry : Registry}
      (hshape : d.shape = some (.schema fields)) (hrefines : d.refines = none)
      (hs : l.registry.synthesize code fields = .ok s)
      (hregister : l.registry.register? s = some registry) :
      Shapes l domain code d (code, none, registry)
  | refining {reference : String} {parent : Concept} (hshape : d.shape = none)
      (hrefines : d.refines = some reference) (hparent : l.resolve? reference domain = some parent)
      (hnative : parent.isNative = true) :
      Shapes l domain code d (parent.shape, some parent.name, l.registry)

theorem shapeOf_eq_ok_iff {detail : ConceptDetail} {result : String × Option String × Registry} :
    l.shapeOf domain code detail = .ok result ↔ l.Shapes domain code detail result := by
  constructor
  · intro h
    unfold shapeOf at h
    rcases hshape : detail.shape with _ | ⟨shape⟩ | ⟨fields⟩ <;>
      rcases hrefines : detail.refines with _ | reference <;>
      simp only [hshape, hrefines] at h
    · cases h
      exact .plain hshape hrefines
    · split at h
      · cases h
      · next hparent =>
        split at h
        · next hnative =>
          cases h
          exact .refining hshape hrefines hparent hnative
        · cases h
    · split at h
      · next hknown =>
        cases h
        exact .named hshape hrefines hknown
      · cases h
    · cases h
    · simp only [bind_eq_ok_iff, mapError_eq_ok_iff] at h
      obtain ⟨s, hs, h⟩ := h
      split at h
      · next hregister =>
        cases h
        exact .schema hshape hrefines hs hregister
      · cases h
    · cases h
  · intro h
    unfold shapeOf
    cases h with
    | plain hshape hrefines => simp only [hshape, hrefines]
    | named hshape hrefines hknown => simp only [hshape, hrefines, hknown, if_true]
    | schema hshape hrefines hs hregister =>
      simp only [hshape, hrefines, bind_eq_ok_iff, mapError_eq_ok_iff]
      exact ⟨_, hs, by rw [hregister]; rfl⟩
    | refining hshape hrefines hparent hnative =>
      simp only [hshape, hrefines, hparent, hnative, if_true]

/-- The structure that a declaration calls for is registered, and shared with the concept that the
declaration refines. -/
theorem shapeOf_ok (hl : l.Sound) {detail : ConceptDetail} {shape : String}
    {refines : Option String} {registry : Registry}
    (h : l.shapeOf domain code detail = .ok (shape, refines, registry)) :
    registry.Sound ∧ l.registry.Within registry ∧
      ∀ parent ∈ refines, ∃ d, l.get? parent = some d ∧ d.shape = shape := by
  have hsame : l.registry.Within l.registry := fun _ _ hs => hs
  cases shapeOf_eq_ok_iff.1 h with
  | plain | named => exact ⟨hl.registry, hsame, nofun⟩
  | schema _ _ hs hregister =>
    obtain ⟨hsound, hw⟩ := hl.registry.register hs hregister
    exact ⟨hsound, hw, nofun⟩
  | @refining _ parent _ _ hparent _ =>
    refine ⟨hl.registry, hsame, fun _ hmem => ?_⟩
    cases hmem
    exact ⟨parent, hl.has_of_resolve? hparent, rfl⟩

/-- A concept that is made shares the structure of the concept that it refines, and the structures
of the library stay. -/
theorem make_ok (hl : l.Sound) {b : ConceptBlueprint} (h : l.make domain code b = .ok (c, l₁)) :
    l₁.concepts = l.concepts ∧ l₁.registry.Sound ∧ l.registry.Within l₁.registry ∧
      ∀ parent ∈ c.refines, ∃ d, l.get? parent = some d ∧ d.shape = c.shape := by
  unfold make at h
  split at h
  · cases h
  · simp only [bind_eq_ok_iff] at h
    obtain ⟨⟨shape, refines, registry⟩, hshape, h⟩ := h
    cases h
    exact ⟨rfl, shapeOf_ok hl hshape⟩

/-- A concept that is added has a new name and a structure that is registered, and the others
stay. -/
theorem add_ok (h : l.add c = .ok l') :
    l'.registry = l.registry ∧ l.registry.contains c.shape = true ∧
      (∀ name d, l.get? name = some d → l'.get? name = some d) ∧
      ∀ name d, l'.get? name = some d → l.get? name = some d ∨ c.name = name ∧ d = c := by
  unfold add at h
  split at h
  · cases h
  · next hnew =>
    split at h
    · cases h
    · next hshape =>
      cases h
      exact ⟨rfl, by simpa using hshape, fun name d hd => Dict.get?_insert_of_get? hnew hd,
        fun name d hd => Dict.get?_or_eq_of_get?_insert hd⟩

/-- Defining a concept keeps a library in order, and what was there. -/
theorem Sound.define (hl : l.Sound) {b : ConceptBlueprint}
    (hmake : l.make domain code b = .ok (c, l₁)) (hadd : l₁.add c = .ok l') :
    l'.Sound ∧ l.Within l' := by
  obtain ⟨hconcepts, hregistry, hw, hrefines⟩ := make_ok hl hmake
  obtain ⟨hsame, hshape, hkeep, hcases⟩ := add_ok hadd
  simp only [get?, hconcepts] at hkeep hcases
  rw [← hsame] at hregistry hw hshape
  refine ⟨⟨hregistry, ?_, ?_, ?_⟩, ⟨hkeep, hw⟩⟩
  · intro name d hd
    rcases hcases name d hd with hd | ⟨rfl, rfl⟩
    · exact hl.keyed name d hd
    · rfl
  · intro name d hd
    rcases hcases name d hd with hd | ⟨rfl, rfl⟩
    · exact hw.contains (hl.shaped name d hd)
    · exact hshape
  · intro name d hd parent hparent
    have hold : ∃ a, l.get? parent = some a ∧ a.shape = d.shape := by
      rcases hcases name d hd with hd | ⟨rfl, rfl⟩
      · exact hl.refined name d hd parent hparent
      · exact hrefines parent hparent
    obtain ⟨a, ha, hshape⟩ := hold
    exact ⟨a, hkeep parent a ha, hshape⟩

theorem initial_sound : ConceptLibrary.initial.Sound := by
  have hentries : ∀ e ∈ ConceptLibrary.initial.concepts.entries, e.2.name = e.1 ∧
      ConceptLibrary.initial.registry.contains e.2.shape = true ∧ e.2.refines = none := by
    decide
  refine ⟨Registry.initial_sound, fun name c h => ?_, fun name c h => ?_, fun name c h => ?_⟩
  · exact (hentries _ (Dict.mem_entries_of_get? h)).1
  · exact (hentries _ (Dict.mem_entries_of_get? h)).2.1
  · rw [(hentries _ (Dict.mem_entries_of_get? h)).2.2]
    nofun

/-- A library that is built is in order. -/
theorem Built.sound (h : l.Built) : l.Sound := by
  induction h with
  | initial => exact initial_sound
  | defined _ hmake hadd ih => exact (ih.define hmake hadd).1
  | compiled _ hcompile hregister ih =>
    obtain ⟨hsound, hw⟩ := ih.registry.register hcompile hregister
    exact ⟨hsound, ih.keyed, fun name c hc => hw.contains (ih.shaped name c hc), ih.refined⟩

/-- The native concepts are always there. -/
theorem Built.has_native (h : l.Built) (n : NativeConcept) : l.Has n.concept := by
  induction h with
  | initial =>
    unfold Has
    cases n <;> decide
  | defined hl hmake hadd ih => exact (hl.sound.define hmake hadd).2.concepts _ _ ih
  | compiled _ _ _ ih => exact ih

/-- The native concepts stay as they are. -/
theorem Built.native_eq (h : l.Built) (n : NativeConcept) : l.native n = n.concept := by
  unfold native
  rw [h.has_native n]
  rfl

end Conduit.ConceptLibrary

namespace Conduit.Library

variable {l l' : Library} {c c' : ConceptLibrary}

/-- Adding the concepts of a bundle builds a library further. -/
theorem addConcepts_built {domain : String} {es : List (String × ConceptBlueprint)} (hc : c.Built)
    (h : addConcepts domain c es = .ok c') : c'.Built ∧ c.Within c' := by
  induction es generalizing c with
  | nil =>
    cases h
    exact ⟨hc, .refl _⟩
  | cons e es ih =>
    obtain ⟨code, b⟩ := e
    simp only [addConcepts, bind_eq_ok_iff] at h
    obtain ⟨⟨concept, c₁⟩, hmake, c₂, hadd, h⟩ := h
    have hw := (hc.sound.define hmake hadd).2
    obtain ⟨hbuilt, hrest⟩ := ih (.defined hc hmake hadd) h
    exact ⟨hbuilt, hw.trans hrest⟩

end Conduit.Library
