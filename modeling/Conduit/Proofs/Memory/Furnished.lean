import Conduit.Proofs.Concept.Sound
import Conduit.Proofs.Content.Placeholder
import Conduit.Proofs.Library.Admitted
import Conduit.Proofs.Memory.Fresh
import Conduit.Proofs.Memory.Populated

/-!
# The memory of a dry run

A memory is furnished for requirements (`Memory.Furnished`) if it holds, for each of them, as many
values of a concept as are called for. Such a memory can be made up wherever the structures of the
concepts are registered (`ConceptLibrary.exists_placeholders`), for every structure has a
placeholder and a new value can always be added. A pipe of a loaded library needs
nothing but its inputs, so its dry memory exists and is furnished for them
(`Engine.exists_dryMemory`).
-/

namespace Conduit

/-- A memory without aliases holds a value for each requirement, of its concept and as many as it
calls for. -/
structure Memory.Furnished (m : Memory) (needs : List (String × Requirement)) : Prop where
  aliases : m.aliases = .empty
  entries : ∀ need ∈ needs, ∃ s, m.entries.get? need.1 = some s ∧ s.concept = need.2.concept ∧
    Engine.hasMultiplicity s.content need.2.multiplicity = true

namespace Memory

variable {m : Memory} {needs : List (String × Requirement)} {need : String × Requirement}

theorem furnished_empty : empty.Furnished [] :=
  ⟨rfl, fun _ h => absurd h List.not_mem_nil⟩

/-- What is called for is found under its name. -/
theorem Furnished.find (h : m.Furnished needs) (hneed : need ∈ needs) :
    ∃ s, m.get need.1 = .ok s ∧ s.concept = need.2.concept ∧
      Engine.hasMultiplicity s.content need.2.multiplicity = true := by
  obtain ⟨s, hs, hconcept, hcount⟩ := h.entries need hneed
  have hfind : m.find? need.1 = some s := by
    rw [find?, target, h.aliases]
    exact hs
  exact ⟨s, by rw [get, hfind], hconcept, hcount⟩

/-- A value for one more requirement, of another name. -/
theorem Furnished.set (h : m.Furnished needs) (need : String × Requirement) {s : Stuff}
    (hconcept : s.concept = need.2.concept)
    (hcount : Engine.hasMultiplicity s.content need.2.multiplicity = true)
    (hnew : need.1 ∉ needs.map Prod.fst) : (m.set need.1 s).Furnished (needs ++ [need]) where
  aliases := by
    rw [Memory.set, h.aliases]
    rfl
  entries other hother := by
    simp only [Memory.set, Dict.get?_insert]
    rcases List.mem_append.1 hother with hother | hother
    · have hne : need.1 ≠ other.1 := fun heq => hnew (heq ▸ List.mem_map_of_mem hother)
      rw [if_neg hne]
      exact h.entries other hother
    · obtain rfl := List.mem_singleton.1 hother
      exact ⟨_, if_pos rfl, hconcept, hcount⟩

end Memory

namespace ConceptLibrary

variable {l : ConceptLibrary} {size : Nat}

/-- A concept whose structure is registered has placeholders, as many as are called for. -/
theorem exists_placeholder (hl : l.registry.Compiled) {c : Concept}
    (hc : l.registry.contains c.shape = true) (size : Nat) (multiplicity : Multiplicity) :
    ∃ content, l.placeholder size c multiplicity = .ok content ∧
      Engine.hasMultiplicity content multiplicity = true := by
  obtain ⟨one, hone⟩ := Placeholder.exists_content hl hc size c.name
  have hitems : ∀ n, ∃ items, placeholder.items
      (Placeholder.content l.registry size c.name c.shape) n = .ok (.list items) ∧
        items.length = n := by
    intro n
    cases n with
    | zero => exact ⟨[], rfl, rfl⟩
    | succ n => exact ⟨_, by rw [hone]; rfl, List.length_replicate ..⟩
  cases multiplicity with
  | single =>
    have hitem := Placeholder.content_isList hone
    exact ⟨one, hone, by simp [Engine.hasMultiplicity, hitem]⟩
  | list =>
    obtain ⟨items, hlist, _⟩ := hitems size
    exact ⟨_, hlist, rfl⟩
  | fixed n =>
    obtain ⟨items, hlist, hlength⟩ := hitems n
    exact ⟨_, hlist, by simp [Engine.hasMultiplicity, Content.count?, hlength]⟩

/-- Placeholders can be added for requirements with new names. -/
theorem exists_addPlaceholders (hl : l.registry.Compiled) {needs : List (String × Requirement)}
    (hshapes : ∀ need ∈ needs, l.registry.contains need.2.concept.shape = true)
    {known : List (String × Requirement)} (hnodup : ((known ++ needs).map Prod.fst).Nodup)
    {m : Memory} (hm : m.Furnished known) :
    ∃ m', l.addPlaceholders size m needs = .ok m' ∧ m'.Furnished (known ++ needs) := by
  induction needs generalizing known m with
  | nil => exact ⟨m, rfl, by rwa [List.append_nil]⟩
  | cons need needs ih =>
    obtain ⟨name, r⟩ := need
    rw [List.forall_mem_cons] at hshapes
    obtain ⟨content, hcontent, hcount⟩ := exists_placeholder hl hshapes.1 size
      r.multiplicity
    have hnew : name ∉ known.map Prod.fst := by
      rw [List.map_append, List.nodup_append] at hnodup
      exact fun hmem => hnodup.2.2 name hmem name List.mem_cons_self rfl
    have hset := hm.set (name, r) (s := m.fresh name r.concept content) rfl hcount hnew
    rw [List.append_cons] at hnodup ⊢
    obtain ⟨m', hadded, hfurnished⟩ := ih hshapes.2 hnodup hset
    refine ⟨m', ?_, hfurnished⟩
    simp only [addPlaceholders, hcontent, Except.mapError, ok_bind, Memory.add_fresh]
    exact hadded

/-- The memory of placeholders exists and is furnished. -/
theorem exists_placeholders (hl : l.registry.Compiled) {needs : Requirements}
    (hshapes : ∀ need ∈ needs.entries, l.registry.contains need.2.concept.shape = true) :
    ∃ m, l.placeholders size needs = .ok m ∧ m.Furnished needs.entries := by
  have hnodup : (([] ++ needs.entries).map Prod.fst).Nodup := needs.nodup
  exact exists_addPlaceholders hl hshapes hnodup Memory.furnished_empty

end ConceptLibrary

/-- A pipe of a loaded library has a dry memory, which is furnished for its inputs. -/
theorem Engine.exists_dryMemory {e : Engine} {p : Pipe} (hl : e.library.Loaded)
    (hp : e.library.Registered p) :
    ∃ m, e.dryMemory p.code = .ok m ∧ m.Furnished p.inputs.entries := by
  obtain ⟨needs, hneeds, _⟩ := Library.needs_yields hl.settled.linked hp
  have hmerge : p.inputs.merge needs = p.inputs :=
    Dict.merge_eq_self fun name hname =>
      ((hl.settled.declared p hp).inputs name).2 ⟨needs, hneeds, hname⟩
  have hbuilt := hl.concepts_built
  have hshapes : ∀ need ∈ p.inputs.entries,
      e.library.concepts.registry.contains need.2.concept.shape = true := by
    intro need hneed
    exact ((hl.covers hp).inputs need.1 need.2 (Dict.get?_of_mem_entries hneed)).shaped hbuilt.sound
  obtain ⟨m, hm, hfurnished⟩ := ConceptLibrary.exists_placeholders hbuilt.registry_compiled hshapes
  refine ⟨m, ?_, hfurnished⟩
  simp only [dryMemory, Library.pipe_of_get? hp, hneeds, Except.mapError, ok_bind, hmerge]
  rw [hm]

end Conduit
