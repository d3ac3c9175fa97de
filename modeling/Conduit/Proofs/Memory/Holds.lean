import Conduit.Proofs.Memory.Growth
import Conduit.Run.Controller

/-!
# What memories hold

`Memory.Holds` says of every value in a memory that its concept and its content satisfy a condition.
No operation of a memory changes a value that is there, so a memory goes on holding such values when
another one is stored and when aliases are made, whatever the condition is. The ways in which runs
write into memories are instances of it (`Engine.storeResult_holds`, `Engine.storeAs_holds`,
`Engine.storeResults_holds`, `Engine.aliased_holds`).
-/

namespace Conduit

variable {P : Concept → Content → Prop}

namespace Memory

variable {m m' : Memory} {s : Stuff} {key name target : String}

/-! ## What names stand for -/

theorem find?_of_get (h : m.get name = .ok s) : m.find? name = some s := by
  unfold get at h
  split at h
  · next hfind =>
    cases h
    exact hfind
  · cases h

theorem find?_of_main (h : m.main = .ok s) : m.find? mainAlias = some s := by
  unfold main at h
  split at h
  · next hfind =>
    cases h
    exact hfind
  · cases h

theorem main_of_find? (h : m.find? mainAlias = some s) : m.main = .ok s := by
  unfold main
  rw [h]

/-- The alias of the latest result stands for its target. -/
theorem find?_setAlias (h : m.setAlias mainAlias target = .ok m') :
    m'.find? mainAlias = m.entries.get? target := by
  obtain ⟨_, _, rfl⟩ := setAlias_eq_ok_iff.1 h
  simp [find?, Memory.target]

/-- A value that is stored and becomes the latest result is found as such. -/
theorem find?_set_setAlias (h : (m.set name s).setAlias mainAlias name = .ok m') :
    m'.find? mainAlias = some { s with name } := by
  rw [find?_setAlias h]
  simp [Memory.set]

/-! ## What all values satisfy -/

/-- The concept and the content of every value in a memory satisfy a condition. -/
def Holds (P : Concept → Content → Prop) (m : Memory) : Prop :=
  ∀ name s, m.entries.get? name = some s → P s.concept s.content

theorem holds_empty : empty.Holds P := nofun

/-- What a name stands for satisfies what all values satisfy. -/
theorem Holds.find (h : m.Holds P) (hs : m.find? name = some s) : P s.concept s.content :=
  h (m.target name) s hs

/-- A value that satisfies the condition may be stored. -/
theorem Holds.set (h : m.Holds P) (hs : P s.concept s.content) (name : String) :
    (m.set name s).Holds P := by
  intro key t ht
  simp only [Memory.set, Dict.get?_insert] at ht
  split at ht
  · cases ht
    exact hs
  · exact h key t ht

/-- An alias changes no value. -/
theorem Holds.setAlias (h : m.Holds P) (ha : m.setAlias key target = .ok m') : m'.Holds P := by
  obtain ⟨_, _, rfl⟩ := setAlias_eq_ok_iff.1 ha
  exact h

/-- A value that satisfies the condition may be stored and become the latest result. -/
theorem Holds.set_setAlias (h : m.Holds P) (hs : P s.concept s.content)
    (ha : (m.set name s).setAlias mainAlias name = .ok m') : m'.Holds P :=
  (h.set hs name).setAlias ha

end Memory

namespace Engine

variable {m m' : Memory} {c : Concept} {content : Content} {name : Option String}

theorem storeResult_holds {pipe stored : String} (hm : m.Holds P) (hc : P c content)
    (h : storeResult m pipe c content name = .ok (stored, m')) : m'.Holds P :=
  hm.set_setAlias hc (storeResult_ok h).2

theorem storeAs_holds (hm : m.Holds P) (h : storeAs m name = .ok m') : m'.Holds P := by
  rcases storeAs_ok h with rfl | ⟨key, s, hs, halias⟩
  · exact hm
  · exact hm.set_setAlias (hm.find (Memory.find?_of_main hs)) halias

theorem storeEach_holds {results : List (String × Stuff)} (hm : m.Holds P)
    (h : ∀ result ∈ results, P result.2.concept result.2.content) :
    (storeEach m results).Holds P := by
  induction results generalizing m with
  | nil => exact hm
  | cons result results ih =>
    rw [List.forall_mem_cons] at h
    exact ih (hm.set h.1 result.1) h.2

theorem storeResults_holds {results : List (String × Stuff)} (hm : m.Holds P)
    (h : ∀ result ∈ results, P result.2.concept result.2.content)
    (hm' : storeResults m results = .ok m') : m'.Holds P := by
  unfold storeResults at hm'
  split at hm'
  · cases hm'
    exact hm
  · exact (storeEach_holds hm h).setAlias (mapError_eq_ok_iff.1 hm')

theorem aliased_holds {text : String} {target? : Option String} (hm : m.Holds P)
    (h : aliased m text target? = .ok m') : m'.Holds P := by
  cases target? with
  | none =>
    cases h
    exact hm
  | some target => exact hm.setAlias (mapError_eq_ok_iff.1 h)

end Engine

end Conduit
