import Conduit.Proofs.Dict
import Conduit.Proofs.Memory.Hidden

/-!
# Calls that fail

A call that changes a memory does so in two steps: it stores a value under a name
(`Memory.Call.stores?`, `Memory.Call.value?`), and then it makes the names that are asked for
(`Memory.Call.asked`) aliases of that name, one after another. Whatever a call looks at before it
stores lets it fail without a trace: the code of a value, the target of an alias, the latest result.
But that an alias would have the name for which it is to stand is only found when it is its turn. So
a call that stores fails exactly if the name under which it stores is among those that are asked
for, and then the value is stored, an alias of that name is gone, and the aliases that came first
are made (`Memory.perform_stores`).

Such a failure changes nothing if all of this was so before, and only then
(`Memory.perform_failed`). A result that is stored under the name `main` is the plainest case: the
alias for the latest result is gone.
-/

namespace Conduit

namespace Memory

variable {m : Memory} {c : Call} {n target : String} {s : Stuff}

/-- A memory in which names are made to stand for one name, whatever they stood for. -/
def withAliases (m : Memory) (target : String) (names : List String) : Memory :=
  ⟨m.entries, names.foldl (fun aliases name => aliases.insert name target) m.aliases⟩

namespace Call

/-- The value that a call stores, if it stores one. -/
def value? (m : Memory) : Call → Option Stuff
  | .set _ s | .add _ s _ | .setMain s _ => some s
  | .setAlias .. => none
  | .storeMain _ => m.find? mainAlias

/-- The names that a call that stores a value is asked to make aliases of its name. -/
def asked : Call → List String
  | .set .. | .setAlias .. => []
  | .add _ _ aliases => aliases
  | .setMain .. | .storeMain _ => [mainAlias]

end Call

/-! ## Aliases, up to the first that cannot be made -/

theorem get?_withAliases (m : Memory) (target : String) (names : List String) (n : String) :
    (m.withAliases target names).aliases.get? n =
      if n ∈ names then some target else m.aliases.get? n := by
  induction names generalizing m with
  | nil => simp [withAliases]
  | cons name names ih =>
    have hrest := ih ⟨m.entries, m.aliases.insert name target⟩
    rw [Dict.get?_insert] at hrest
    refine hrest.trans ?_
    by_cases hn : n ∈ names
    · simp [hn]
    · simp [hn, eq_comm (a := n)]

/-- The names before the first that is the target become aliases; if there is such a name, making
it an alias fails. -/
theorem setAliases_eq (h : m.entries.contains target = true) (names : List String) :
    m.setAliases target names =
      (if target ∈ names then .error (.selfAlias target) else .ok (),
        m.withAliases target (names.takeWhile (· != target))) := by
  induction names generalizing m with
  | nil => rfl
  | cons name names ih =>
    by_cases hname : name = target
    · simp [setAliases, setAlias, hname, withAliases]
    · have halias : m.setAlias name target = .ok ⟨m.entries, m.aliases.insert name target⟩ :=
        setAlias_eq_ok_iff.2 ⟨hname, h, rfl⟩
      have hmem : target ∈ name :: names ↔ target ∈ names := by
        rw [List.mem_cons, or_iff_right (Ne.symm hname)]
      rw [setAliases, halias, List.takeWhile_cons_of_pos (by simpa using hname)]
      simp only [hmem]
      exact ih (m := ⟨m.entries, m.aliases.insert name target⟩) h

/-! ## Calls that store -/

/-- A call that stores a value goes on with the aliases that are asked for. -/
theorem perform_eq_of_stores (h : c.stores? m = some n) :
    ∃ s, c.value? m = some s ∧ m.perform c = (m.set n s).setAliases n c.asked ∧
      c.aliases m = c.asked.takeWhile (· != n) := by
  cases c with
  | set name s =>
    cases h
    exact ⟨s, rfl, rfl, rfl⟩
  | add name s aliases =>
    simp only [Call.stores?, Option.ite_none_right_eq_some, Option.some.injEq] at h
    obtain ⟨hholder, rfl⟩ := h
    refine ⟨s, rfl, ?_, if_pos hholder⟩
    rw [perform, add, Option.isNone_iff_eq_none.1 hholder]
    rfl
  | setAlias name target => cases h
  | setMain s asked =>
    cases h
    refine ⟨s, rfl, ?_, rfl⟩
    simp only [perform, setMain, Call.asked, setAliases]
    split <;> rfl
  | storeMain name =>
    simp only [Call.stores?, Option.ite_none_right_eq_some, Option.some.injEq] at h
    obtain ⟨hcond, rfl⟩ := h
    have hmain := (Bool.and_eq_true_iff.1 hcond).1
    have hname : m.mainName? ≠ some name := by
      simpa using (Bool.and_eq_true_iff.1 hcond).2
    obtain ⟨s, hs⟩ := Option.isSome_iff_exists.1 hmain
    refine ⟨s, hs, ?_, if_pos hcond⟩
    simp only [perform, storeMain, main, hs, if_neg hname, Call.asked, setAliases]

/-- A call that stores a value under a name fails exactly if the name is among the aliases that are
asked for. The value is stored in any case, and the aliases are made up to that name. -/
theorem perform_stores (h : c.stores? m = some n) :
    ∃ s, c.value? m = some s ∧ m.perform c =
      (if n ∈ c.asked then .error (.selfAlias n) else .ok (),
        (m.set n s).withAliases n (c.aliases m)) := by
  obtain ⟨s, hs, hperform, haliases⟩ := perform_eq_of_stores h
  have hentry : (m.set n s).entries.contains n = true := by
    simp [set]
  exact ⟨s, hs, by rw [hperform, setAliases_eq hentry, haliases]⟩

/-- A call that stores nothing and fails changes nothing. -/
theorem perform_eq_self {e : MemoryError} (h : c.stores? m = none)
    (he : (m.perform c).1 = .error e) : (m.perform c).2 = m := by
  cases c with
  | set name s => cases h
  | add name s aliases =>
    cases hholder : m.holder? name s.code with
    | none => simp [Call.stores?, hholder] at h
    | some holder => simp [perform, add, hholder]
  | setAlias name target =>
    cases halias : m.setAlias name target with
    | ok m' => simp [perform, halias] at he
    | error e => simp [perform, halias]
  | setMain s asked => cases h
  | storeMain name =>
    cases hmain : m.find? mainAlias with
    | none => simp [perform, storeMain, main, hmain]
    | some s =>
      have hname : m.mainName? = some name := by
        simpa [Call.stores?, contains, hmain] using h
      simp [perform, storeMain, main, hmain, hname]

/-! ## What changes nothing -/

/-- Storing a value and making aliases of its name changes nothing exactly if the value and the
aliases are there and no alias has the name. -/
theorem set_withAliases_eq_self_iff {names : List String} (hn : n ∉ names) :
    (m.set n s).withAliases n names = m ↔
      m.entries.get? n = some { s with name := n } ∧ m.aliases.contains n = false ∧
        ∀ k ∈ names, m.aliases.get? k = some n := by
  constructor
  · intro heq
    have hentry : ((m.set n s).withAliases n names).entries.get? n = some { s with name := n } := by
      simp [withAliases, set]
    have haliases := get?_withAliases (m.set n s) n names
    rw [heq] at hentry haliases
    refine ⟨hentry, ?_, fun k hk => ?_⟩
    · rw [Dict.contains, haliases n, if_neg hn]
      simp [set]
    · rw [haliases k, if_pos hk]
  · rintro ⟨hentry, halias, hnames⟩
    have hset : m.set n s = m := by
      rw [set, Dict.insert_eq_self hentry, Dict.erase_eq_self halias]
    rw [hset]
    -- each alias that is made is there, so the table stays as it is at every step
    clear hn
    induction names with
    | nil => rfl
    | cons k names ih =>
      have hkeep := ih fun k' hk' => hnames k' (List.mem_cons_of_mem _ hk')
      rw [withAliases, List.foldl_cons, Dict.insert_eq_self (hnames k List.mem_cons_self)]
      exact hkeep

/-- A call that fails before it stores a value changes nothing. One that stores a value under a name
fails exactly if it is asked to make that name an alias of itself; then the value is stored all the
same, an alias of the name is dropped and the aliases that were asked for before it are made. So
such a failure changes nothing exactly if the value was stored under the name, no alias had the
name, and those aliases stood for it. -/
theorem perform_failed (m : Memory) (c : Call) :
    (∀ e, (m.perform c).1 = .error e → c.stores? m = none → (m.perform c).2 = m) ∧
    ∀ n, c.stores? m = some n → ∃ s, c.value? m = some s ∧
      (m.perform c).1 = (if n ∈ c.asked then .error (.selfAlias n) else .ok ()) ∧
      (m.perform c).2 = (m.set n s).withAliases n (c.aliases m) ∧
      ((m.perform c).2 = m ↔
        m.entries.get? n = some { s with name := n } ∧ m.aliases.contains n = false ∧
          ∀ k ∈ c.aliases m, m.aliases.get? k = some n) := by
  refine ⟨fun e he hstores => perform_eq_self hstores he, fun n hstores => ?_⟩
  obtain ⟨s, hs, hperform⟩ := perform_stores hstores
  have hself : n ∉ c.aliases m := fun hmem => stores?_ne_of_mem_aliases hmem hstores
  rw [hperform]
  exact ⟨s, hs, rfl, rfl, set_withAliases_eq_self_iff hself⟩

/-- A text is stored as the latest result. -/
def drafted : List Call := [.setMain (nameless "1" "red") (some "draft")]

/-- Not every call that fails changes nothing: a result is stored as `draft`, and when it is to be
stored as `main` too, the call fails and there is no latest result any more. -/
theorem not_forall_perform_failed :
    ¬ ∀ (before : List Call) (c : Call) (e : MemoryError),
      ((empty.after before).perform c).1 = .error e →
        ((empty.after before).perform c).2 = empty.after before := by
  intro h
  have hsame := h drafted (.storeMain mainAlias) (.selfAlias mainAlias) rfl
  have hbefore : (empty.after drafted).mainName? = some "draft" := by decide
  have hafter : ((empty.after drafted).perform (.storeMain mainAlias)).2.mainName? = none := by
    decide
  rw [hsame, hbefore] at hafter
  cases hafter

end Memory

end Conduit
