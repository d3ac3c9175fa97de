import Conduit.Proofs.Template.Reads
import Conduit.Run.Engine

/-!
# Memories only grow

No operation of a memory takes a value away: a name that has a value keeps having one, by an entry
of its own or as an alias. `Memory.Grows` says this of two memories, together with the names that
have been written in between; the ways to store the result of a pipe are instances of it
(`Engine.storeResult_grows`, `Engine.storeAs_grows`). What the operations do when they succeed comes
first, for the accounts of what memories hold as well.
-/

namespace Conduit

namespace Memory

variable {m m' : Memory} {s : Stuff} {key name target : String}

/-! ## What the operations do -/

/-- An alias is made for an entry of another name, and nothing else changes. -/
theorem setAlias_eq_ok_iff : m.setAlias key target = .ok m' ↔
    key ≠ target ∧ m.entries.contains target = true ∧
      m' = ⟨m.entries, m.aliases.insert key target⟩ := by
  unfold setAlias
  by_cases hk : key = target
  · simp [hk]
  · cases hc : m.entries.contains target <;> simp [hk, eq_comm]

/-- A value is stored as the latest result under the name that is given. -/
theorem setMain_ok {stored : String} {asked : Option String}
    (h : m.setMain s asked = (.ok stored, m')) :
    stored = resultName s asked ∧ (m.set stored s).setAlias mainAlias stored = .ok m' := by
  simp only [setMain] at h
  split at h
  · next m₁ hm₁ =>
    obtain ⟨hstored, rfl⟩ := Prod.mk.inj h
    cases hstored
    exact ⟨rfl, hm₁⟩
  · cases (Prod.mk.inj h).1

/-- The latest result is stored under another name as well, unless it has that name. -/
theorem storeMain_ok (h : m.storeMain name = (.ok (), m')) :
    ∃ s, m.main = .ok s ∧ (m.mainName? = some name ∧ m' = m ∨
      (m.set name s).setAlias mainAlias name = .ok m') := by
  simp only [storeMain] at h
  split at h
  · cases (Prod.mk.inj h).1
  · next s hs =>
    refine ⟨s, hs, ?_⟩
    split at h
    · next hname => exact .inl ⟨hname, (Prod.mk.inj h).2.symm⟩
    · split at h
      · next m₁ hm₁ =>
        obtain ⟨_, rfl⟩ := Prod.mk.inj h
        exact .inr hm₁
      · cases (Prod.mk.inj h).1

/-! ## Names that have values -/

/-- A name that is stored has a value. -/
theorem contains_set_self (m : Memory) (name : String) (s : Stuff) :
    (m.set name s).contains name = true := by
  simp [contains, find?, Memory.target, set]

/-- A name keeps its value when another one is stored. -/
theorem contains_set (h : m.contains name = true) (key : String) (s : Stuff) :
    (m.set key s).contains name = true := by
  by_cases hk : key = name
  · rw [hk]
    exact contains_set_self m name s
  · unfold contains find? at h ⊢
    have ht : (m.set key s).target name = m.target name := by
      simp [Memory.target, set, hk]
    rw [ht]
    by_cases hkt : key = m.target name
    · simp [set, hkt]
    · simpa [set, hkt] using h

/-- An alias that is made has a value, and the names that had one keep it. -/
theorem contains_setAlias (h : m.setAlias key target = .ok m') :
    m'.contains key = true ∧ m'.mainName? = (if key = mainAlias then some target else m.mainName?) ∧
      ∀ name, m.contains name = true → m'.contains name = true := by
  obtain ⟨_, htarget, rfl⟩ := setAlias_eq_ok_iff.1 h
  have hkey : (⟨m.entries, m.aliases.insert key target⟩ : Memory).contains key = true := by
    unfold Dict.contains at htarget
    simpa [contains, find?, Memory.target] using htarget
  refine ⟨hkey, by simp [mainName?], ?_⟩
  intro name hn
  by_cases hk : key = name
  · rw [← hk]
    exact hkey
  · simpa [contains, find?, Memory.target, hk] using hn

/-- An alias cannot be made because of its target, not because a name has no value. -/
theorem setAlias_error {e : MemoryError} (h : m.setAlias key target = .error e) :
    e.isNotFound = false := by
  unfold setAlias at h
  split at h
  · cases h
    rfl
  · split at h
    · cases h
    · cases h
      rfl

/-- Every name that has a value in the first memory has one in the second, and so have the names
that were written; the latest result of the second is one of its values. -/
structure Grows (m m' : Memory) (written : List String) : Prop where
  keeps : ∀ name, m.contains name = true → m'.contains name = true
  written : ∀ name ∈ written, m'.contains name = true
  main : ∀ name, m'.mainName? = some name → m'.contains name = true

/-- What was written in between may be forgotten, and what had a value before may be forgotten. -/
theorem Grows.imp {m₀ : Memory} {names names' : List String} (h : m.Grows m' names)
    (hm : ∀ name, m₀.contains name = true → m.contains name = true)
    (hnames : ∀ name ∈ names', name ∈ names ∨ m.contains name = true) : m₀.Grows m' names' where
  keeps name hn := h.keeps name (hm name hn)
  written name hn := (hnames name hn).elim (h.written name) (h.keeps name)
  main := h.main

/-- A value that is stored and becomes the latest result. -/
theorem set_setAlias_grows (h : (m.set name s).setAlias mainAlias name = .ok m') :
    m.Grows m' [name] := by
  obtain ⟨_, hmain, hkeeps⟩ := contains_setAlias h
  have hin : m'.contains name = true := hkeeps _ (contains_set_self m name s)
  refine ⟨fun k hk => hkeeps k (contains_set hk _ _), fun k hk => ?_, fun k hk => ?_⟩
  · rw [List.mem_singleton.1 hk]
    exact hin
  · rw [hmain, if_pos rfl, Option.some.injEq] at hk
    rw [← hk]
    exact hin

/-- A value is stored as the latest result. -/
theorem setMain_grows {stored : String} {asked : Option String}
    (h : m.setMain s asked = (.ok stored, m')) : m.Grows m' (stored :: asked.toList) := by
  obtain ⟨rfl, halias⟩ := setMain_ok h
  refine (set_setAlias_grows halias).imp (fun _ hk => hk) fun k hk => .inl ?_
  rcases List.mem_cons.1 hk with rfl | hk
  · exact List.mem_cons_self
  · rw [Option.mem_toList.1 hk]
    exact List.mem_cons_self

/-- The latest result is stored under another name as well. -/
theorem storeMain_grows (hmain : ∀ name, m.mainName? = some name → m.contains name = true)
    (h : m.storeMain name = (.ok (), m')) : m.Grows m' [name] := by
  obtain ⟨s, _, ⟨hname, rfl⟩ | halias⟩ := storeMain_ok h
  · refine ⟨fun _ hk => hk, ?_, hmain⟩
    intro k hk
    rw [List.mem_singleton.1 hk]
    exact hmain name hname
  · exact set_setAlias_grows halias

theorem setMain_error {e : MemoryError} {asked : Option String}
    (h : (m.setMain s asked).1 = .error e) : e.isNotFound = false := by
  simp only [setMain] at h
  split at h
  · cases h
  · next e' he' =>
    cases h
    exact setAlias_error he'

theorem main_error {e : MemoryError} (h : m.main = .error e) : e.isNotFound = false := by
  unfold main at h
  split at h
  · cases h
  · cases h
    rfl

theorem storeMain_error {e : MemoryError} (h : (m.storeMain name).1 = .error e) :
    e.isNotFound = false := by
  simp only [storeMain] at h
  split at h
  · next e' he' =>
    cases h
    exact main_error he'
  · split at h
    · cases h
    · split at h
      · cases h
      · next e' he' =>
        cases h
        exact setAlias_error he'

end Memory

namespace Engine

variable {m m' : Memory}

theorem stored_ok {α : Type} {r : Except MemoryError α × Memory} {a : α}
    (h : stored r = .ok (a, m')) :
    r = (.ok a, m') := by
  obtain ⟨r, m⟩ := r
  cases r with
  | error e => cases h
  | ok b =>
    cases h
    rfl

theorem stored_error {α : Type} {r : Except MemoryError α × Memory} {c : RunCause}
    (h : stored r = .error c) : ∃ e, r.1 = .error e ∧ c = .memory e := by
  obtain ⟨r, m⟩ := r
  cases r with
  | error e =>
    cases h
    exact ⟨e, rfl, rfl⟩
  | ok b => cases h

/-- What a pipe stores as its result, and where. -/
theorem storeResult_ok {pipe stored : String} {c : Concept} {content : Content}
    {name : Option String} (h : storeResult m pipe c content name = .ok (stored, m')) :
    stored = Memory.resultName (m.fresh (name.getD pipe) c content) name ∧
      (m.set stored (m.fresh (name.getD pipe) c content)).setAlias Memory.mainAlias stored =
        .ok m' :=
  Memory.setMain_ok (stored_ok h)

/-- The latest result is stored under another name as well, if one is given that is not its own. -/
theorem storeAs_ok {name : Option String} (h : storeAs m name = .ok m') :
    m' = m ∨ ∃ key s, m.main = .ok s ∧ (m.set key s).setAlias Memory.mainAlias key = .ok m' := by
  cases name with
  | none =>
    cases h
    exact .inl rfl
  | some key =>
    simp only [storeAs, map_eq_ok_iff] at h
    obtain ⟨⟨⟨⟩, m₁⟩, hstored, rfl⟩ := h
    obtain ⟨s, hs, ⟨_, rfl⟩ | halias⟩ := Memory.storeMain_ok (stored_ok hstored)
    · exact .inl rfl
    · exact .inr ⟨key, s, hs, halias⟩

/-- Content that is stored as the result of a pipe has the name that was asked for, if one was. -/
theorem storeResult_grows {pipe stored : String} {concept : Concept} {content : Content}
    {name : Option String} (h : storeResult m pipe concept content name = .ok (stored, m')) :
    m.Grows m' (stored :: name.toList) :=
  Memory.setMain_grows (stored_ok h)

/-- The result of a pipe is stored under the name that was asked for, if one was. -/
theorem storeAs_grows {name : Option String}
    (hmain : ∀ name, m.mainName? = some name → m.contains name = true)
    (h : storeAs m name = .ok m') : m.Grows m' name.toList := by
  cases name with
  | none =>
    cases h
    exact ⟨fun _ hn => hn, fun _ hn => absurd hn List.not_mem_nil, hmain⟩
  | some name =>
    simp only [storeAs, map_eq_ok_iff] at h
    obtain ⟨⟨⟨⟩, m₁⟩, hstored, rfl⟩ := h
    exact Memory.storeMain_grows hmain (stored_ok hstored)

end Engine

end Conduit
