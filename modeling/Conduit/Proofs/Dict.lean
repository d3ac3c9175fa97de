import Mathlib.Data.List.Nodup
import Conduit.Dict

/-!
# Entries of dictionaries

Two dictionaries have the same entries in some order exactly if every name has the same value in
both (`Dict.perm_iff`), so all that is looked up is the same in both. A dictionary is put together
from its own entries (`Dict.ofList_entries`). `Dict.rename` gives one of its names another name.
-/

namespace Conduit.Dict

variable {α β : Type} {d e : Dict α} {name : String} {value : α}

/-- The values that are found are the entries. -/
theorem get?_eq_some_iff : d.get? name = some value ↔ (name, value) ∈ d.entries :=
  ⟨mem_entries_of_get?, get?_of_mem_entries⟩

/-- Every value is found under some name. -/
theorem exists_get?_of_mem_values (h : value ∈ d.values) : ∃ name, d.get? name = some value := by
  obtain ⟨⟨name, value⟩, he, rfl⟩ := List.mem_map.1 h
  exact ⟨name, get?_of_mem_entries he⟩

/-- Putting the value of a name in its place again changes nothing. -/
theorem put_eq_self {es : List (String × α)} (h : lookup? name es = some value) :
    put name value es = es := by
  induction es with
  | nil => cases h
  | cons e es ih =>
    obtain ⟨key, old⟩ := e
    rw [lookup?] at h
    by_cases hkey : key = name
    · rw [if_pos hkey] at h
      cases h
      simp [put, hkey]
    · rw [if_neg hkey] at h
      simp [put, hkey, ih h]

theorem insert_eq_self (h : d.get? name = some value) : d.insert name value = d :=
  ext (put_eq_self h)

/-- Erasing a name that has no value changes nothing. -/
theorem erase_eq_self (h : d.contains name = false) : d.erase name = d := by
  refine filter_eq_self fun key value hvalue => ?_
  rw [bne_iff_ne]
  rintro rfl
  rw [contains_of_get? hvalue] at h
  cases h

/-- No name comes twice in a list of entries whose names are distinct. -/
theorem comeOnce_of_nodup {es : List (String × α)} (names : List String)
    (h : (es.map Prod.fst).Nodup) : comeOnce names es = true := by
  simp only [comeOnce, List.all_eq_true, decide_eq_true_eq]
  intro name _
  have hcount := List.nodup_iff_count_le_one.1 h name
  rw [List.count, List.countP_map] at hcount
  exact hcount

/-- What is found among the entries that satisfy a condition. -/
theorem get?_filter (d : Dict α) (p : String → α → Bool) (name : String) :
    (d.filter p).get? name = (d.get? name).filter (p name) := by
  ext value
  rw [get?_eq_some_iff, Option.filter_eq_some_iff, get?_eq_some_iff]
  exact List.mem_filter

/-- What one dictionary has another one has as well, after the same value is put into both. -/
theorem get?_insert_of_imp (h : ∀ name value, d.get? name = some value → e.get? name = some value)
    {key name : String} {a value : α} (hname : (d.insert key a).get? name = some value) :
    (e.insert key a).get? name = some value := by
  rw [get?_insert] at hname ⊢
  split at hname
  · next hkey => rwa [if_pos hkey]
  · next hkey =>
    rw [if_neg hkey]
    exact h name value hname

/-- What is found in a union: the second dictionary goes first. -/
theorem get?_union_eq (d e : Dict α) (name : String) :
    (d.union e).get? name = (e.get? name).or (d.get? name) := by
  have hnodup := e.nodup
  unfold union
  show _ = (lookup? name e.entries).or _
  generalize e.entries = es at hnodup
  induction es generalizing d with
  | nil => rfl
  | cons x es ih =>
    obtain ⟨k, v⟩ := x
    rw [List.map_cons, List.nodup_cons] at hnodup
    rw [List.foldl_cons, ih _ hnodup.2, get?_insert, lookup?]
    split
    · next hk =>
      subst hk
      have hnone : lookup? k es = none := by
        rw [← Option.not_isSome_iff_eq_none, ← mem_map_fst_iff_lookup?]
        exact hnodup.1
      rw [hnone]
      rfl
    · rfl

/-- What is found after every value is replaced. -/
@[simp] theorem get?_mapValues (f : String → α → β) (d : Dict α) (name : String) :
    (d.mapValues f).get? name = (d.get? name).map (f name) := by
  unfold get? mapValues
  dsimp only
  induction d.entries with
  | nil => rfl
  | cons e es ih =>
    obtain ⟨k, v⟩ := e
    by_cases hk : k = name
    · subst hk
      simp [lookup?]
    · simpa [lookup?, hk] using ih

/-- Entries with new names come after those that were there. -/
theorem entries_foldl_insert {es : List (String × α)} (hn : (es.map Prod.fst).Nodup)
    (hnew : ∀ key ∈ es.map Prod.fst, key ∉ d.keys) :
    (es.foldl (fun d (k, v) => d.insert k v) d).entries = d.entries ++ es := by
  induction es generalizing d with
  | nil => exact (List.append_nil _).symm
  | cons e es ih =>
    obtain ⟨k, v⟩ := e
    rw [List.map_cons, List.nodup_cons] at hn
    rw [List.map_cons, List.forall_mem_cons] at hnew
    have hinsert := entries_insert_of_not_mem hnew.1 v
    rw [List.foldl_cons, ih hn.2, hinsert, List.append_assoc, List.singleton_append]
    intro key hkey hmem
    rw [keys, hinsert, List.map_append, List.mem_append] at hmem
    rcases hmem with hmem | hmem
    · exact hnew.2 key hkey hmem
    · rw [List.map_singleton, List.mem_singleton] at hmem
      exact hn.1 (hmem ▸ hkey)

/-- A dictionary is put together from its own entries. -/
theorem ofList_entries (d : Dict α) : ofList d.entries = d :=
  ext (entries_foldl_insert d.nodup fun _ _ => List.not_mem_nil)

/-- Merging adds nothing to a dictionary that has all names of the other one. -/
theorem merge_eq_self (h : ∀ name, e.contains name = true → d.contains name = true) :
    d.merge e = d := by
  have hnames : ∀ entry ∈ e.entries, d.contains entry.1 = true :=
    fun entry hentry => h entry.1 (contains_of_get? (get?_of_mem_entries hentry))
  unfold merge
  generalize e.entries = es at hnames
  induction es with
  | nil => rfl
  | cons entry es ih =>
    obtain ⟨k, v⟩ := entry
    rw [List.forall_mem_cons] at hnames
    have hkeep : d.insertNew k v = d := if_pos hnames.1
    simp only [List.foldl_cons, hkeep]
    exact ih hnames.2

/-- Names have the same values in two dictionaries exactly if these have the same entries. -/
theorem perm_iff : d.entries.Perm e.entries ↔ ∀ name, d.get? name = e.get? name := by
  have hd := List.Nodup.of_map _ d.nodup
  have he := List.Nodup.of_map _ e.nodup
  rw [List.perm_ext_iff_of_nodup hd he]
  constructor
  · intro h name
    ext value
    rw [get?_eq_some_iff, get?_eq_some_iff, h]
  · rintro h ⟨name, value⟩
    rw [← get?_eq_some_iff, ← get?_eq_some_iff, h]

/-! ## Other names -/

section

variable {old new : String} {a : α} {before after : List (String × α)}

/-- The dictionary with another name in the place of one of its names. -/
def rename (old new : String) (d : Dict α) : Dict α :=
  ofList (d.entries.map fun (k, a) => (if k = old then new else k, a))

/-- A new name takes the place of the old one. -/
theorem entries_rename (hnew : new ∉ d.keys) (h : d.entries = before ++ (old, a) :: after) :
    (d.rename old new).entries = before ++ (new, a) :: after := by
  have hnodup := d.nodup
  rw [keys] at hnew
  rw [h] at hnew hnodup
  simp only [List.map_append, List.map_cons, List.nodup_append, List.nodup_cons, List.mem_append,
    List.mem_cons, not_or] at hnew hnodup
  have hothers : ∀ es : List (String × α), old ∉ es.map Prod.fst →
      es.map (fun (k, a) => (if k = old then new else k, a)) = es := by
    intro es hold
    refine (List.map_congr_left fun e he => ?_).trans (List.map_id es)
    have hne : e.1 ≠ old := fun heq => hold (heq ▸ List.mem_map_of_mem he)
    simp [hne]
  have hbefore : old ∉ before.map Prod.fst := fun hmem => hnodup.2.2 _ hmem _ (.inl rfl) rfl
  have hentries : d.entries.map (fun (k, a) => (if k = old then new else k, a)) =
      before ++ (new, a) :: after := by
    rw [h, List.map_append, List.map_cons, hothers before hbefore, hothers after hnodup.2.1.1]
    simp
  rw [rename, hentries]
  refine entries_foldl_insert ?_ fun _ _ => List.not_mem_nil
  simp only [List.map_append, List.map_cons, List.nodup_append, List.nodup_cons, List.mem_cons]
  refine ⟨hnodup.1, ⟨hnew.2.2, hnodup.2.1.2⟩, ?_⟩
  rintro key hkey _ (rfl | hmem)
  · rintro rfl
    exact hnew.1 hkey
  · exact hnodup.2.2 key hkey _ (.inr hmem)

end

end Conduit.Dict
