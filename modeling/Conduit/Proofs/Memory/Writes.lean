import Conduit.Proofs.Memory.Growth
import Mathlib.Logic.Relation

/-!
# Writes of a memory

However a result is stored, what happens to the memory is a chain of two kinds of writes: a value is
stored under a name, and a name is made to stand for an entry (`Memory.Write`). So what holds of a
memory and is kept by both holds of every memory that is reached from it (`Memory.Written`). Names
that have values are such a thing, and so are aliases that stand for entries (`Memory.Anchored`) and
values that have the names of their entries (`Memory.Named`).

Each operation of a memory is such a chain, also one that fails and leaves what it has written.
-/

namespace Conduit

namespace Memory

variable {m m' : Memory} {s : Stuff} {name target : String}

/-- One write of a memory: a value is stored under a name, or a name is made to stand for an
entry. -/
inductive Write : Memory → Memory → Prop
  | stored (m : Memory) (name : String) (s : Stuff) : Write m (m.set name s)
  | aliased {m m' : Memory} {name target : String} (h : m.setAlias name target = .ok m') :
    Write m m'

/-- A memory is reached from another by writes. -/
abbrev Written : Memory → Memory → Prop :=
  Relation.ReflTransGen Write

/-- A value is stored and becomes the latest result. -/
theorem set_setAlias_written (h : (m.set name s).setAlias mainAlias target = .ok m') :
    m.Written m' :=
  .tail (.single (.stored m name s)) (.aliased h)

/-! ## Operations as writes -/

theorem setAliases_written (m : Memory) (target : String) (names : List String) :
    m.Written (m.setAliases target names).2 := by
  induction names generalizing m with
  | nil => exact .refl
  | cons name names ih =>
    rw [setAliases]
    split
    · next m₁ halias => exact .head (.aliased halias) (ih m₁)
    · exact .refl

theorem add_written (m : Memory) (name : String) (s : Stuff) (aliases : List String) :
    m.Written (m.add name s aliases).2 := by
  unfold add
  split
  · exact .refl
  · exact .head (.stored m name s) (setAliases_written _ name aliases)

theorem setMain_written (m : Memory) (s : Stuff) (name : Option String) :
    m.Written (m.setMain s name).2 := by
  unfold setMain
  dsimp only
  split
  · next halias => exact set_setAlias_written halias
  · exact .single (.stored m _ s)

theorem storeMain_written (m : Memory) (name : String) : m.Written (m.storeMain name).2 := by
  unfold storeMain
  split
  · exact .refl
  · next s _ =>
    split
    · exact .refl
    · dsimp only
      split
      · next halias => exact set_setAlias_written halias
      · exact .single (.stored m name s)

/-! ## What writes keep -/

/-- Every alias stands for an entry of another name. -/
def Anchored (m : Memory) : Prop :=
  ∀ name target, m.aliases.get? name = some target →
    name ≠ target ∧ m.entries.contains target = true

/-- Every value has the name of its entry. -/
def Named (m : Memory) : Prop :=
  ∀ name s, m.entries.get? name = some s → s.name = name

theorem anchored_empty : empty.Anchored := nofun

theorem named_empty : empty.Named := nofun

/-- An entry stays an entry when a value is stored. -/
theorem contains_entries_set (h : m.entries.contains target = true) (name : String) (s : Stuff) :
    (m.set name s).entries.contains target = true := by
  simp [Memory.set, h]

/-- A name that has a value keeps one in each write. -/
theorem Write.contains (h : m.Write m') (hn : m.contains name = true) :
    m'.contains name = true := by
  cases h with
  | stored key s => exact contains_set hn key s
  | aliased halias => exact (contains_setAlias halias).2.2 name hn

/-- Aliases stand for entries after each write. -/
theorem Write.anchored (h : m.Write m') (hm : m.Anchored) : m'.Anchored := by
  intro name target htarget
  cases h with
  | stored key s =>
    -- a stored value drops the alias of its own name, so the ones that are left are old
    simp only [Memory.set, Dict.get?_erase] at htarget
    split at htarget
    · cases htarget
    · have hold := hm name target htarget
      exact ⟨hold.1, contains_entries_set hold.2 key s⟩
  | aliased halias =>
    obtain ⟨hne, hentry, rfl⟩ := setAlias_eq_ok_iff.1 halias
    rw [Dict.get?_insert] at htarget
    split at htarget
    · next hkey =>
      cases htarget
      exact ⟨hkey ▸ hne, hentry⟩
    · exact hm name target htarget

/-- Values have the names of their entries after each write. -/
theorem Write.named (h : m.Write m') (hm : m.Named) : m'.Named := by
  cases h with
  | stored key s =>
    intro name s' hs'
    simp only [Memory.set, Dict.get?_insert] at hs'
    split at hs'
    · next hkey =>
      cases hs'
      exact hkey
    · exact hm name s' hs'
  | aliased halias =>
    obtain ⟨_, _, rfl⟩ := setAlias_eq_ok_iff.1 halias
    exact hm

/-- A name that has a value keeps one, whatever is written. -/
theorem Written.contains (h : m.Written m') (hn : m.contains name = true) :
    m'.contains name = true := by
  induction h with
  | refl => exact hn
  | tail _ hwrite ih => exact hwrite.contains ih

/-- Aliases stand for entries, whatever is written. -/
theorem Written.anchored (h : m.Written m') (hm : m.Anchored) : m'.Anchored := by
  induction h with
  | refl => exact hm
  | tail _ hwrite ih => exact hwrite.anchored ih

/-- Values have the names of their entries, whatever is written. -/
theorem Written.named (h : m.Written m') (hm : m.Named) : m'.Named := by
  induction h with
  | refl => exact hm
  | tail _ hwrite ih => exact hwrite.named ih

/-- The entry of a name is found under it exactly if there is no alias of the name besides: what an
alias stands for has another name. -/
theorem find?_eq_iff_not_alias (hnamed : m.Named) (hanchored : m.Anchored)
    (hs : m.entries.get? name = some s) :
    m.find? name = some s ↔ m.aliases.contains name = false := by
  rw [find?, Memory.target, Dict.contains]
  cases halias : m.aliases.get? name with
  | none => simp [hs]
  | some target =>
    have hother : m.entries.get? target ≠ some s := by
      intro htarget
      have hsame : name = target := (hnamed name s hs).symm.trans (hnamed target s htarget)
      exact (hanchored name target halias).1 hsame
    simp [hother]

end Memory

end Conduit
