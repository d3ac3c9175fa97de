import Conduit.Proofs.Content.Conforms
import Conduit.Proofs.Memory.Holds

/-!
# Typed memories

A memory is typed (`Memory.Typed`) if every value in it conforms to the structure of its concept.
Writing a value that conforms and making aliases keep a memory typed. `Memory.Latest` says what the
latest result conforms to, as far as that is known; the ways to store the result of a pipe decide it
(`Engine.storeResult_typed`, `Engine.storeAs_typed`).
-/

namespace Conduit

variable {r : Registry}

namespace Memory

variable {m m' : Memory} {s : Stuff} {name target : String}

/-- Every value in a memory conforms to the structure of its concept. -/
def Typed (r : Registry) (m : Memory) : Prop :=
  ∀ name s, m.entries.get? name = some s → s.content.Conforms r s.concept.shape

/-- The latest result conforms to a structure, if one is given. -/
def Latest (r : Registry) (m : Memory) (shape? : Option String) : Prop :=
  ∀ shape ∈ shape?, ∃ s, m.find? mainAlias = some s ∧ s.content.Conforms r shape

theorem typed_iff_holds :
    m.Typed r ↔ m.Holds fun concept content => content.Conforms r concept.shape :=
  Iff.rfl

theorem typed_empty : empty.Typed r := typed_iff_holds.2 holds_empty

/-- Nothing need be known about the latest result. -/
theorem latest_none : m.Latest r none := nofun

/-- What a name stands for conforms to the structure of its concept. -/
theorem Typed.conforms (h : m.Typed r) (hs : m.find? name = some s) :
    s.content.Conforms r s.concept.shape :=
  (typed_iff_holds.1 h).find hs

/-- A value that conforms may be stored. -/
theorem Typed.set (h : m.Typed r) (hs : s.content.Conforms r s.concept.shape) (name : String) :
    (m.set name s).Typed r :=
  typed_iff_holds.2 ((typed_iff_holds.1 h).set hs name)

/-- A value that is stored and becomes the latest result conforms to what it conformed to. -/
theorem latest_of_set {shape : String} (h : (m.set name s).setAlias mainAlias name = .ok m')
    (hs : s.content.Conforms r shape) : m'.Latest r (some shape) := by
  intro shape' hshape'
  cases hshape'
  exact ⟨_, find?_set_setAlias h, hs⟩

end Memory

namespace Engine

variable {m m' : Memory} {name : Option String}

/-- Content that is stored as the result of a pipe keeps a memory typed if it conforms to the
structure of its concept, and conforms to what it conformed to. -/
theorem storeResult_typed {pipe stored : String} {concept : Concept} {content : Content}
    (hm : m.Typed r) (hc : content.Conforms r concept.shape)
    (h : storeResult m pipe concept content name = .ok (stored, m')) :
    m'.Typed r ∧ ∀ shape, content.Conforms r shape → m'.Latest r (some shape) :=
  ⟨storeResult_holds (Memory.typed_iff_holds.1 hm) hc h,
    fun _ hshape => Memory.latest_of_set (storeResult_ok h).2 hshape⟩

/-- The result of a pipe is what it was when it is stored under another name as well. -/
theorem storeAs_typed {shape? : Option String} (hm : m.Typed r) (hlatest : m.Latest r shape?)
    (h : storeAs m name = .ok m') : m'.Typed r ∧ m'.Latest r shape? := by
  refine ⟨storeAs_holds (Memory.typed_iff_holds.1 hm) h, ?_⟩
  rcases storeAs_ok h with rfl | ⟨key, s, hs, halias⟩
  · exact hlatest
  · intro shape hshape
    obtain ⟨t, ht, hconforms⟩ := hlatest shape hshape
    rw [Memory.find?_of_main hs, Option.some.injEq] at ht
    subst ht
    exact Memory.latest_of_set halias hconforms shape rfl

end Engine

end Conduit
