import Conduit.Proofs.Memory.Calls

/-!
# Hidden entries

An entry is hidden when an alias has its name: looking up the name gives what the alias stands for
(`Memory.Hides`). A value that is stored drops an alias of its name, so storing hides nothing. But
no operation that makes an alias looks whether there is an entry of that name.

What a call does to the names of a memory is said by the name under which it stores a value
(`Memory.Call.stores?`) and the names that it makes aliases (`Memory.Call.aliases`). So an entry is
hidden after calls exactly if one of them made an alias of its name when it was there, and none of
those that followed stored a value under it (`Memory.hides_after_iff`).
-/

namespace Conduit

namespace Memory

variable {m : Memory} {c : Call} {calls : List Call} {n name target : String} {s : Stuff}

/-- There are an entry and an alias of one name. -/
def Hides (m : Memory) (n : String) : Prop :=
  m.entries.contains n = true ∧ m.aliases.contains n = true

/-! ## What a call stores and makes aliases -/

namespace Call

/-- The name under which a call stores a value, if it does. -/
def stores? (m : Memory) : Call → Option String
  | .set name _ => some name
  | .add name s _ => if (m.holder? name s.code).isNone then some name else none
  | .setAlias .. => none
  | .setMain s name => some (resultName s name)
  | .storeMain name =>
    if m.contains mainAlias && m.mainName? != some name then some name else none

/-- The names that a call makes aliases: those that are asked for, up to the first that is that of
the entry for which they are to stand. -/
def aliases (m : Memory) : Call → List String
  | .set .. => []
  | .add name s aliases =>
    if (m.holder? name s.code).isNone then aliases.takeWhile (· != name) else []
  | .setAlias name target => if name != target && m.entries.contains target then [name] else []
  | .setMain s name => [mainAlias].takeWhile (· != resultName s name)
  | .storeMain name =>
    if m.contains mainAlias && m.mainName? != some name then [mainAlias].takeWhile (· != name)
    else []

/-- A call makes an alias of the name of an entry. -/
def Shadows (m : Memory) (c : Call) (n : String) : Prop :=
  n ∈ c.aliases m ∧ m.entries.contains n = true

end Call

/-! ## The names of a memory after a call -/

/-- Aliases are made up to the first that is the name for which they are to stand. -/
theorem setAliases_names (h : m.entries.contains target = true) (names : List String) :
    (m.setAliases target names).2.entries = m.entries ∧
      ((m.setAliases target names).2.aliases.contains n = true ↔
        n ∈ names.takeWhile (· != target) ∨ m.aliases.contains n = true) := by
  induction names generalizing m with
  | nil => simp [setAliases]
  | cons name names ih =>
    by_cases hname : name = target
    · simp [setAliases, setAlias, hname]
    · have halias : m.setAlias name target = .ok ⟨m.entries, m.aliases.insert name target⟩ :=
        setAlias_eq_ok_iff.2 ⟨hname, h, rfl⟩
      have hrest := ih (m := ⟨m.entries, m.aliases.insert name target⟩) h
      simp only [setAliases, halias]
      refine ⟨hrest.1, hrest.2.trans ?_⟩
      rw [List.takeWhile_cons_of_pos (by simpa using hname), List.mem_cons, Dict.contains_insert,
        Bool.or_eq_true, decide_eq_true_iff, eq_comm (a := n)]
      tauto

/-- A value is stored, and names are made to stand for it. -/
theorem set_setAliases_names (m : Memory) (name : String) (s : Stuff) (names : List String) :
    let m' := ((m.set name s).setAliases name names).2
    (m'.entries.contains n = true ↔ m.entries.contains n = true ∨ some name = some n) ∧
      (m'.aliases.contains n = true ↔ n ∈ names.takeWhile (· != name) ∨
        m.aliases.contains n = true ∧ some name ≠ some n) := by
  have hentry : (m.set name s).entries.contains name = true := by
    simp [set]
  obtain ⟨hentries, haliases⟩ := setAliases_names (n := n) hentry names
  refine ⟨?_, haliases.trans ?_⟩
  · rw [hentries, set, Dict.contains_insert, Bool.or_eq_true, decide_eq_true_iff, or_comm,
      Option.some.injEq]
  · rw [set, Dict.contains_erase, Bool.and_eq_true, Bool.not_eq_true', decide_eq_false_iff_not,
      and_comm, Ne, Option.some.injEq]

theorem perform_setAlias :
    (m.perform (.setAlias name target)).2 = (m.setAliases target [name]).2 := by
  cases halias : m.setAlias name target <;> simp only [perform, setAliases, halias]

theorem perform_setMain {asked : Option String} : (m.perform (.setMain s asked)).2 =
    ((m.set (resultName s asked) s).setAliases (resultName s asked) [mainAlias]).2 := by
  cases halias : (m.set (resultName s asked) s).setAlias mainAlias (resultName s asked) <;>
    simp only [perform, setMain, setAliases, halias]

theorem perform_storeMain (hs : m.find? mainAlias = some s) (hname : m.mainName? ≠ some name) :
    (m.perform (.storeMain name)).2 = ((m.set name s).setAliases name [mainAlias]).2 := by
  simp only [perform, storeMain, main, hs, if_neg hname, setAliases]

/-- Which names are those of entries and which are aliases after a call. -/
theorem perform_names (m : Memory) (c : Call) (n : String) :
    ((m.perform c).2.entries.contains n = true ↔
      m.entries.contains n = true ∨ c.stores? m = some n) ∧
    ((m.perform c).2.aliases.contains n = true ↔
      n ∈ c.aliases m ∨ m.aliases.contains n = true ∧ c.stores? m ≠ some n) := by
  cases c with
  | set name s => exact set_setAliases_names m name s []
  | add name s aliases =>
    cases hholder : m.holder? name s.code with
    | some holder => simp [perform, add, Call.stores?, Call.aliases, hholder]
    | none =>
      simpa [perform, add, Call.stores?, Call.aliases, hholder] using
        set_setAliases_names (n := n) m name s aliases
  | setAlias name target =>
    cases hentry : m.entries.contains target with
    | false =>
      by_cases hname : name = target <;>
        simp [perform, setAlias, Call.stores?, Call.aliases, hname, hentry]
    | true =>
      obtain ⟨hentries, haliases⟩ := setAliases_names (n := n) hentry [name]
      rw [perform_setAlias, hentries, haliases]
      by_cases hname : name = target <;> simp [Call.stores?, Call.aliases, hname, hentry]
  | setMain s asked =>
    rw [perform_setMain]
    exact set_setAliases_names m _ s [mainAlias]
  | storeMain name =>
    cases hmain : m.find? mainAlias with
    | none => simp [perform, storeMain, main, hmain, Call.stores?, Call.aliases, contains]
    | some s =>
      by_cases hname : m.mainName? = some name
      · simp [perform, storeMain, main, hmain, hname, Call.stores?, Call.aliases]
      · rw [perform_storeMain hmain hname]
        simpa [Call.stores?, Call.aliases, contains, hmain, hname] using
          set_setAliases_names (n := n) m name s [mainAlias]

/-- A name that is made an alias is not the one under which a value is stored. -/
theorem stores?_ne_of_mem_aliases (h : n ∈ c.aliases m) : c.stores? m ≠ some n := by
  intro hstores
  cases c with
  | set name s => cases h
  | setAlias name target => cases hstores
  | setMain s asked =>
    cases hstores
    exact absurd (List.mem_takeWhile_imp h) (by simp)
  | add name s aliases | storeMain name =>
    simp only [Call.stores?, Option.ite_none_right_eq_some, Option.some.injEq] at hstores
    obtain ⟨hstored, rfl⟩ := hstores
    rw [Call.aliases, if_pos hstored] at h
    exact absurd (List.mem_takeWhile_imp h) (by simp)

/-- An entry is hidden after a call if the call makes an alias of its name, or if it was hidden and
the call stores no value under it. -/
theorem hides_perform_iff : (m.perform c).2.Hides n ↔
    c.Shadows m n ∨ m.Hides n ∧ c.stores? m ≠ some n := by
  have hnot : n ∈ c.aliases m → c.stores? m ≠ some n := stores?_ne_of_mem_aliases
  obtain ⟨hentries, haliases⟩ := perform_names m c n
  rw [Hides, hentries, haliases, Call.Shadows, Hides]
  tauto

/-! ## Calls one after another -/

/-- No call stores a value under a name. -/
def Spares (m : Memory) (calls : List Call) (n : String) : Prop :=
  ∀ before c later, calls = before ++ c :: later → c.stores? (m.after before) ≠ some n

/-- A call makes an alias of the name of an entry, and no later one stores a value under it. -/
def HidesAfter (m : Memory) (calls : List Call) (n : String) : Prop :=
  ∃ before c later, calls = before ++ c :: later ∧ c.Shadows (m.after before) n ∧
    (m.after (before ++ [c])).Spares later n

theorem spares_cons_iff : m.Spares (c :: calls) n ↔
    c.stores? m ≠ some n ∧ (m.perform c).2.Spares calls n := by
  constructor
  · intro h
    refine ⟨h [] c calls rfl, ?_⟩
    rintro before c' later rfl
    exact h (c :: before) c' later rfl
  · rintro ⟨hhead, htail⟩ before c' later heq
    rcases List.cons_eq_append_iff.1 heq with ⟨rfl, hcons⟩ | ⟨before, rfl, rfl⟩
    · cases hcons
      exact hhead
    · exact htail before c' later rfl

theorem hidesAfter_cons_iff : m.HidesAfter (c :: calls) n ↔
    c.Shadows m n ∧ (m.perform c).2.Spares calls n ∨ (m.perform c).2.HidesAfter calls n := by
  constructor
  · rintro ⟨before, c', later, heq, hshadows, hspares⟩
    rcases List.cons_eq_append_iff.1 heq with ⟨rfl, hcons⟩ | ⟨before, rfl, rfl⟩
    · cases hcons
      exact .inl ⟨hshadows, hspares⟩
    · exact .inr ⟨before, c', later, rfl, hshadows, hspares⟩
  · rintro (⟨hshadows, hspares⟩ | ⟨before, c', later, rfl, hshadows, hspares⟩)
    · exact ⟨[], c, calls, rfl, hshadows, hspares⟩
    · exact ⟨c :: before, c', later, rfl, hshadows, hspares⟩

/-- An entry is hidden after calls if they hide it, or if it was hidden and none of them stores a
value under its name. -/
theorem hides_after_iff (m : Memory) (calls : List Call) (n : String) :
    (m.after calls).Hides n ↔ m.HidesAfter calls n ∨ m.Hides n ∧ m.Spares calls n := by
  induction calls generalizing m with
  | nil => simp [HidesAfter, Spares]
  | cons c calls ih =>
    rw [after_cons, ih, hides_perform_iff, hidesAfter_cons_iff, spares_cons_iff]
    tauto

/-- After calls on a memory that was empty, looking up the name of an entry gives the entry exactly
if the calls do not hide it. -/
theorem find?_after_iff (hs : (empty.after calls).entries.get? n = some s) :
    (empty.after calls).find? n = some s ↔ ¬ empty.HidesAfter calls n := by
  have hwritten := after_written empty calls
  have hentry : (empty.after calls).entries.contains n = true := Dict.contains_of_get? hs
  have hiff : (empty.after calls).aliases.contains n = true ↔ empty.HidesAfter calls n := by
    have hempty : empty.entries.contains n = false := rfl
    simpa [Hides, hentry, hempty] using hides_after_iff empty calls n
  rw [find?_eq_iff_not_alias (hwritten.named named_empty) (hwritten.anchored anchored_empty) hs,
    ← hiff, Bool.not_eq_true]

end Memory

end Conduit
