import Conduit.Proofs.Library.Sized
import Conduit.Proofs.Memory.Holds
import Conduit.Run.Pipeline

/-!
# Populated memories

Content is populated (`Content.Populated`) if no list in it is without items. What is read from a
value is no list, and placeholders are populated wherever a list of any length is to have some
(`ConceptLibrary.placeholder_populated`). So the memory on which a pipe of a loaded library is run
dry holds nothing but populated content (`Engine.dryMemory_populated`): a loaded library asks for no
list of fixed length zero.
-/

namespace Conduit

/-! ## Content -/

namespace Content

/-- No list in content is without items. -/
inductive Populated : Content → Prop where
  | item {c : Content} (h : c.isList = false) : Populated c
  | list {items : List Content} (hne : items ≠ []) (h : ∀ c ∈ items, Populated c) :
      Populated (.list items)

variable {shape : String} {c : Content} {items : List Content}

/-- A populated list has items, all of them populated. -/
theorem populated_list_iff : Populated (.list items) ↔ items ≠ [] ∧ ∀ c ∈ items, c.Populated := by
  constructor
  · intro h
    cases h with
    | item h => cases h
    | list hne h => exact ⟨hne, h⟩
  · rintro ⟨hne, h⟩
    exact .list hne h

/-- Populated items make a populated list, if there are any. -/
theorem populated_of_length (hlength : items.length ≠ 0) (h : ∀ c ∈ items, c.Populated) :
    Populated (.list items) :=
  .list (fun hnil => hlength (congrArg List.length hnil)) h

/-- A bare value makes no list. -/
theorem bare?_isList {v : Json} (h : bare? shape v = some c) : c.isList = false := by
  unfold bare? at h
  split at h
  · cases h
    rfl
  · split at h
    · split_ifs at h <;> cases h <;> rfl
    · split_ifs at h
      cases h
      rfl
    · cases h

/-- A record makes no list. -/
theorem ofFields?_isList {fields : Dict Json} (h : ofFields? shape fields = some c) :
    c.isList = false := by
  simp only [ofFields?] at h
  split_ifs at h
  all_goals
    first
    | cases h
      rfl
    | obtain ⟨_, _, rfl⟩ := Option.map_eq_some_iff.1 h
      rfl

end Content

/-- What is read from a value is no list. -/
theorem Registry.read_isList {r : Registry} {shape : String} {v : Json} {c : Content}
    (h : r.read shape v = .ok c) : c.isList = false := by
  unfold Registry.read at h
  split at h
  · next hbare =>
    cases h
    exact Content.bare?_isList hbare
  · split at h
    · simp only [bind_eq_ok_iff] at h
      obtain ⟨fields, _, h⟩ := h
      split at h
      · next hfields =>
        cases h
        exact Content.ofFields?_isList hfields
      · cases h
    · cases h

theorem Registry.read_populated {r : Registry} {shape : String} {v : Json} {c : Content}
    (h : r.read shape v = .ok c) : c.Populated :=
  .item (read_isList h)

/-- All content in a memory is populated. -/
abbrev Memory.Populated (m : Memory) : Prop :=
  m.Holds fun _ content => content.Populated

/-! ## Placeholders -/

/-- The placeholder of a structure is no list. -/
theorem Placeholder.content_isList {r : Registry} {size : Nat} {concept shape : String}
    {c : Content} (h : content r size concept shape = .ok c) : c.isList = false := by
  simp only [content] at h
  split_ifs at h
  all_goals
    first
    | cases h
      rfl
    | exact Registry.read_isList h

namespace ConceptLibrary

variable {l : ConceptLibrary} {size : Nat} {concept : Concept} {multiplicity : Multiplicity}
  {c : Content} {m m' : Memory}

theorem items_populated {one : Except RecordError Content} {n : Nat} (hn : n ≠ 0)
    (hone : ∀ c, one = .ok c → c.Populated) (h : placeholder.items one n = .ok c) :
    c.Populated := by
  cases n with
  | zero => exact absurd rfl hn
  | succ n =>
    obtain ⟨item, hitem, rfl⟩ := map_eq_ok_iff.1 h
    refine Content.populated_of_length (by rwa [List.length_replicate]) fun c hc => ?_
    rw [List.eq_of_mem_replicate hc]
    exact hone item hitem

/-- Placeholders are populated, if lists of any length get items and a fixed number is not zero. -/
theorem placeholder_populated (hsize : 1 ≤ size) (hm : multiplicity.Positive)
    (h : l.placeholder size concept multiplicity = .ok c) : c.Populated := by
  have hone : ∀ c, Placeholder.content l.registry size concept.name concept.shape = .ok c →
      c.Populated := fun c hc => .item (Placeholder.content_isList hc)
  cases multiplicity with
  | single => exact hone c h
  | list => exact items_populated (by omega) hone h
  | fixed n => exact items_populated (fun hn => hm (congrArg _ hn)) hone h

/-- Requirements that fix no number of zero get populated placeholders. -/
theorem addPlaceholders_populated {needs : List (String × Requirement)} (hsize : 1 ≤ size)
    (hneeds : ∀ need ∈ needs, need.2.multiplicity.Positive)
    (hm : m.Populated) (h : l.addPlaceholders size m needs = .ok m') : m'.Populated := by
  induction needs generalizing m with
  | nil =>
    cases h
    exact hm
  | cons need needs ih =>
    obtain ⟨name, r⟩ := need
    rw [List.forall_mem_cons] at hneeds
    simp only [addPlaceholders, bind_eq_ok_iff, mapError_eq_ok_iff] at h
    obtain ⟨content, hcontent, h⟩ := h
    split at h
    · next m₁ hadd =>
      refine ih hneeds.2 ?_ h
      have hset : m₁ = m.set name (m.fresh name r.concept content) := by
        unfold Memory.add at hadd
        split at hadd
        · cases (Prod.mk.inj hadd).1
        · exact (Prod.mk.inj hadd).2.symm
      rw [hset]
      exact hm.set (placeholder_populated hsize hneeds.1 hcontent) name
    · cases h

end ConceptLibrary

/-! ## The memory of a dry run -/

/-- The memory on which a pipe of a loaded library is run dry holds populated content. What the pipe
needs is among its inputs, so the number of values is what the pipe declares. -/
theorem Engine.dryMemory_populated {e : Engine} {p : Pipe} {m : Memory} (hl : e.library.Loaded)
    (hsize : 1 ≤ e.config.listSize) (hp : e.library.Registered p)
    (h : e.dryMemory p.code = .ok m) : m.Populated := by
  simp only [dryMemory, Library.pipe_of_get? hp, bind_eq_ok_iff, mapError_eq_ok_iff] at h
  obtain ⟨_, hp', needs, hneeds, h⟩ := h
  cases hp'
  refine ConceptLibrary.addPlaceholders_populated hsize ?_ Memory.holds_empty h
  rintro ⟨name, r⟩ hr
  have hget := Dict.get?_of_mem_entries hr
  rw [Dict.get?_merge] at hget
  cases hinput : p.inputs.get? name with
  | some declared =>
    rw [hinput] at hget
    cases hget
    exact (hl.sized hp).inputs name r hinput
  | none =>
    rw [hinput] at hget
    have hneeded : e.library.NeedsName name p := ⟨needs, hneeds, Dict.contains_of_get? hget⟩
    have hdeclared := ((hl.settled.declared p hp).inputs name).2 hneeded
    unfold Dict.contains at hdeclared
    rw [hinput] at hdeclared
    cases hdeclared

end Conduit
