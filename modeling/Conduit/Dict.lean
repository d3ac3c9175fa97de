/-!
# Dictionaries in insertion order

A `Dict` maps names to values and remembers the order in which the names came in. Putting a value
under a name that is present replaces the value and keeps the name's place; erasing a name keeps the
order of the others. The names of a dictionary are distinct by its type. The lemmas say what each
operation does to `get?`, and `entries_insert_of_not_mem` and `erase_insert_of_not_mem` what
insertion and erasure do to the order.
-/

namespace Conduit

/-- A finite map from names to values, in insertion order. -/
structure Dict (α : Type) where
  entries : List (String × α)
  nodup : (entries.map Prod.fst).Nodup
  deriving DecidableEq

namespace Dict

variable {α β : Type}

/-- The dictionary without entries. -/
def empty : Dict α := ⟨[], .nil⟩

instance : Inhabited (Dict α) := ⟨empty⟩

/-- The names, in insertion order. -/
def keys (d : Dict α) : List String := d.entries.map Prod.fst

/-- The values, in the order of their names. -/
def values (d : Dict α) : List α := d.entries.map Prod.snd

/-- How many names there are. -/
def size (d : Dict α) : Nat := d.entries.length

/-- The value of a name in a list of entries. -/
def lookup? (name : String) : List (String × α) → Option α
  | [] => none
  | (k, v) :: rest => if k = name then some v else lookup? name rest

/-- The value of a name. -/
def get? (d : Dict α) (name : String) : Option α := lookup? name d.entries

/-- Whether a name has a value. -/
def contains (d : Dict α) (name : String) : Bool := (d.get? name).isSome

/-- Whether none of some names comes twice in a list of entries. -/
def comeOnce (names : List String) (es : List (String × α)) : Bool :=
  names.all fun name => es.countP (·.1 == name) ≤ 1

/-- Puts a value into a list of entries, in the place of its name or at the end. -/
def put (name : String) (value : α) : List (String × α) → List (String × α)
  | [] => [(name, value)]
  | (k, v) :: rest => if k = name then (k, value) :: rest else (k, v) :: put name value rest

/-- The names of a list of entries after a value is put into it. -/
theorem keys_put (name : String) (value : α) (es : List (String × α)) :
    (put name value es).map Prod.fst =
      if name ∈ es.map Prod.fst then es.map Prod.fst else es.map Prod.fst ++ [name] := by
  induction es with
  | nil => simp [put]
  | cons e es ih =>
    obtain ⟨k, v⟩ := e
    by_cases h : k = name
    · simp [put, h]
    · by_cases hm : name ∈ es.map Prod.fst
      · simp_all [put, eq_comm]
      · simp_all [put, eq_comm]

/-- Putting a value into a list of entries keeps their names distinct. -/
theorem nodup_put {es : List (String × α)} (h : (es.map Prod.fst).Nodup) (name : String)
    (value : α) : ((put name value es).map Prod.fst).Nodup := by
  rw [keys_put]
  split
  · exact h
  · next hm =>
    refine List.nodup_append.2 ⟨h, by simp, fun a ha b hb hab => hm ?_⟩
    rw [← List.mem_singleton.1 hb, ← hab]
    exact ha

/-- Puts a value under a name: in the name's place, or at the end if the name is new. -/
def insert (d : Dict α) (name : String) (value : α) : Dict α :=
  ⟨put name value d.entries, nodup_put d.nodup name value⟩

/-- The entries that satisfy a condition. -/
def filter (d : Dict α) (p : String → α → Bool) : Dict α :=
  ⟨d.entries.filter fun (k, v) => p k v, by
    have hs : ((d.entries.filter fun (k, v) => p k v).map Prod.fst).Sublist
        (d.entries.map Prod.fst) := List.filter_sublist.map _
    exact hs.nodup d.nodup⟩

/-- The dictionary without a name. -/
def erase (d : Dict α) (name : String) : Dict α :=
  d.filter fun k _ => k != name

/-- The entries of a list, a later value of a name in the place of an earlier one. -/
def ofList (es : List (String × α)) : Dict α :=
  es.foldl (fun d (k, v) => d.insert k v) empty

/-- The dictionary with every value replaced. -/
def mapValues (f : String → α → β) (d : Dict α) : Dict β :=
  ⟨d.entries.map fun (k, v) => (k, f k v), by
    have h : (d.entries.map fun (k, v) => (k, f k v)).map Prod.fst = d.entries.map Prod.fst := by
      simp [Function.comp_def]
    rw [h]; exact d.nodup⟩

/-- Every entry of the second dictionary put into the first. -/
def union (d e : Dict α) : Dict α :=
  e.entries.foldl (fun d (k, v) => d.insert k v) d

/-- Puts a value under a name that has none yet; a name that has one keeps it. -/
def insertNew (d : Dict α) (name : String) (value : α) : Dict α :=
  if d.contains name then d else d.insert name value

/-- The first dictionary with those entries of the second whose names are new. -/
def merge (d e : Dict α) : Dict α :=
  e.entries.foldl (fun d (k, v) => d.insertNew k v) d

/-! ## Lookups after each operation -/

/-- Two dictionaries with the same entries are equal. -/
theorem ext {d e : Dict α} (h : d.entries = e.entries) : d = e := by
  cases d; cases e; simp_all

/-- Nothing is found in the empty dictionary. -/
@[simp] theorem get?_empty (name : String) : (empty : Dict α).get? name = none := rfl

/-- What is found after a value is put under a name. -/
theorem lookup?_put (name key : String) (value : α) (es : List (String × α)) :
    lookup? name (put key value es) = if key = name then some value else lookup? name es := by
  induction es with
  | nil => simp [put, lookup?]
  | cons e es ih =>
    obtain ⟨k, v⟩ := e
    by_cases h : k = key
    · subst h; by_cases hn : k = name <;> simp [put, lookup?, hn]
    · by_cases hn : k = name
      · have hk : ¬key = name := fun hk => h (hn.trans hk.symm)
        simp [put, lookup?, hn, hk, show ¬name = key from fun e => hk e.symm]
      · simp [put, lookup?, h, hn, ih]

/-- A value that was put under a name is found under it, and other names keep theirs. -/
@[simp] theorem get?_insert (d : Dict α) (key name : String) (value : α) :
    (d.insert key value).get? name = if key = name then some value else d.get? name :=
  lookup?_put name key value d.entries

/-- A value under a new name is found under it, and every name that had a value keeps it. -/
theorem get?_insertNew (d : Dict α) (key name : String) (value : α) :
    (d.insertNew key value).get? name =
      if key = name then some ((d.get? name).getD value) else d.get? name := by
  unfold insertNew contains
  by_cases h : key = name
  · subst h
    cases hd : d.get? key <;> simp [hd]
  · cases d.get? key <;> simp [h]

/-- What is found after the entries under a name are taken out. -/
theorem lookup?_filter_ne (name key : String) (es : List (String × α)) :
    lookup? name (es.filter fun e => e.1 != key) =
      if key = name then none else lookup? name es := by
  induction es with
  | nil => simp [lookup?]
  | cons e es ih =>
    obtain ⟨k, v⟩ := e
    by_cases h : k = key
    · subst h
      by_cases hn : k = name <;> simp_all [lookup?]
    · by_cases hn : k = name
      · have hk : ¬key = name := fun hk => h (hn.trans hk.symm)
        simp [lookup?, hn, hk, show ¬name = key from fun e => hk e.symm]
      · simp [lookup?, h, hn, ih]

/-- An erased name has no value, and other names keep theirs. -/
@[simp] theorem get?_erase (d : Dict α) (key name : String) :
    (d.erase key).get? name = if key = name then none else d.get? name :=
  lookup?_filter_ne name key d.entries

/-- The values that are found are the entries. -/
theorem mem_entries_of_get? {d : Dict α} {name : String} {value : α}
    (h : d.get? name = some value) : (name, value) ∈ d.entries := by
  unfold get? at h
  generalize d.entries = es at h
  induction es with
  | nil => simp [lookup?] at h
  | cons e es ih =>
    obtain ⟨k, v⟩ := e
    by_cases hk : k = name
    · simp_all [lookup?]
    · simp only [lookup?, hk, if_false] at h
      exact List.mem_cons_of_mem _ (ih h)

/-- What is listed under distinct names is found. -/
theorem lookup?_of_mem {name : String} {value : α} {es : List (String × α)}
    (hn : (es.map Prod.fst).Nodup) (h : (name, value) ∈ es) : lookup? name es = some value := by
  induction es with
  | nil => exact absurd h List.not_mem_nil
  | cons e es ih =>
    obtain ⟨k, v⟩ := e
    rw [List.map_cons, List.nodup_cons] at hn
    rcases List.mem_cons.1 h with heq | h
    · cases heq
      simp [lookup?]
    · have hk : k ≠ name := by
        rintro rfl
        exact hn.1 (List.mem_map.2 ⟨_, h, rfl⟩)
      simp only [lookup?, hk, if_false]
      exact ih hn.2 h

/-- The entries of a dictionary are found. -/
theorem get?_of_mem_entries {d : Dict α} {name : String} {value : α}
    (h : (name, value) ∈ d.entries) : d.get? name = some value :=
  lookup?_of_mem d.nodup h

/-- What is found after other entries are put into a dictionary comes from one of the two. -/
theorem get?_union {d e : Dict α} {name : String} {value : α}
    (h : (d.union e).get? name = some value) :
    d.get? name = some value ∨ (name, value) ∈ e.entries := by
  unfold union at h
  generalize e.entries = es at h
  induction es generalizing d with
  | nil => exact .inl h
  | cons x es ih =>
    obtain ⟨k, v⟩ := x
    rcases ih h with h | h
    · rw [get?_insert] at h
      split at h
      · next hk =>
        cases h
        rw [hk]
        exact .inr List.mem_cons_self
      · exact .inl h
    · exact .inr (List.mem_cons_of_mem _ h)

/-- The values that are found are values. -/
theorem mem_values_of_get? {d : Dict α} {name : String} {value : α}
    (h : d.get? name = some value) : value ∈ d.values :=
  List.mem_map_of_mem (mem_entries_of_get? h)

/-! ## Names after each operation -/

/-- The names of a list of entries are those under which something is found. -/
theorem mem_map_fst_iff_lookup? (name : String) (es : List (String × α)) :
    name ∈ es.map Prod.fst ↔ (lookup? name es).isSome = true := by
  induction es with
  | nil => simp [lookup?]
  | cons e es ih =>
    obtain ⟨k, v⟩ := e
    by_cases h : k = name
    · simp [lookup?, h]
    · simp only [lookup?, h, if_false, ← ih, List.map_cons, List.mem_cons]
      exact ⟨fun hm => hm.resolve_left (Ne.symm h), .inr⟩

/-- The names of a dictionary are those that have a value. -/
theorem mem_keys_iff {d : Dict α} {name : String} : name ∈ d.keys ↔ d.contains name = true :=
  mem_map_fst_iff_lookup? name d.entries

/-- No name has a value in the empty dictionary. -/
@[simp] theorem contains_empty (name : String) : (empty : Dict α).contains name = false := rfl

/-- A name has a value if something is found under it. -/
theorem contains_of_get? {d : Dict α} {name : String} {value : α} (h : d.get? name = some value) :
    d.contains name = true := by
  simp [contains, h]

/-- A value that is put under a new name leaves those of the others as they are. -/
theorem get?_insert_of_get? {d : Dict α} {key name : String} {value a : α}
    (hnew : ¬ d.contains key = true) (h : d.get? name = some a) :
    (d.insert key value).get? name = some a := by
  have hne : key ≠ name := by
    rintro rfl
    exact hnew (contains_of_get? h)
  rw [get?_insert, if_neg hne]
  exact h

/-- What is found after a value was put under a name was there before, or is that value. -/
theorem get?_or_eq_of_get?_insert {d : Dict α} {key name : String} {value a : α}
    (h : (d.insert key value).get? name = some a) :
    d.get? name = some a ∨ key = name ∧ a = value := by
  rw [get?_insert] at h
  split at h
  · next hname => exact .inr ⟨hname, (Option.some.inj h).symm⟩
  · exact .inl h

/-- What has a value is found. -/
theorem exists_of_contains {d : Dict α} {name : String} (h : d.contains name = true) :
    ∃ value, d.get? name = some value :=
  Option.isSome_iff_exists.1 h

/-- Putting a value under a name adds the name. -/
@[simp] theorem contains_insert (d : Dict α) (key name : String) (value : α) :
    (d.insert key value).contains name = (decide (key = name) || d.contains name) := by
  by_cases h : key = name <;> simp [contains, h]

/-- Putting a value under a new name adds the name. -/
@[simp] theorem contains_insertNew (d : Dict α) (key name : String) (value : α) :
    (d.insertNew key value).contains name = (decide (key = name) || d.contains name) := by
  by_cases h : key = name <;> simp [contains, get?_insertNew, h]

/-- Erasing takes one name out. -/
@[simp] theorem contains_erase (d : Dict α) (key name : String) :
    (d.erase key).contains name = (!decide (key = name) && d.contains name) := by
  by_cases h : key = name <;> simp [contains, h]

/-- What is found among the entries whose names satisfy a condition. -/
theorem lookup?_filter_fst (name : String) (p : String → Bool) (es : List (String × α)) :
    lookup? name (es.filter fun e => p e.1) = if p name then lookup? name es else none := by
  induction es with
  | nil => simp [lookup?]
  | cons e es ih =>
    obtain ⟨k, v⟩ := e
    by_cases h : k = name
    · subst h
      by_cases hp : p k
      · simp [lookup?, hp]
      · simp [hp, ih]
    · by_cases hp : p k <;> simp [lookup?, hp, h, ih]

/-- The names that satisfy a condition stay, and the others do not. -/
@[simp] theorem contains_filter (d : Dict α) (p : String → Bool) (name : String) :
    (d.filter fun k _ => p k).contains name = (p name && d.contains name) := by
  have h := lookup?_filter_fst name p d.entries
  by_cases hp : p name <;> simp_all [contains, get?, filter]

/-- After merging, a name has the value that it had in the first dictionary, else the one of the
second. -/
theorem get?_merge (d e : Dict α) (name : String) :
    (d.merge e).get? name = (d.get? name).or (e.get? name) := by
  have hfold : ∀ es : List (String × α), (es.foldl (fun d (k, v) => d.insertNew k v) d).get? name =
      (d.get? name).or (lookup? name es) := by
    intro es
    induction es generalizing d with
    | nil => simp [lookup?]
    | cons x es ih =>
      obtain ⟨k, v⟩ := x
      rw [List.foldl_cons, ih, get?_insertNew]
      by_cases h : k = name
      · cases d.get? name <;> simp [lookup?, h]
      · simp [lookup?, h]
  exact hfold e.entries

/-- Merging joins the names of two dictionaries. -/
@[simp] theorem contains_merge (d e : Dict α) (name : String) :
    (d.merge e).contains name = (d.contains name || e.contains name) := by
  simp [contains, get?_merge]

/-- Putting the entries of one dictionary into another joins their names. -/
@[simp] theorem contains_union (d e : Dict α) (name : String) :
    (d.union e).contains name = (d.contains name || e.contains name) := by
  rw [Bool.eq_iff_iff, Bool.or_eq_true, ← mem_keys_iff (d := e)]
  unfold union keys
  generalize e.entries = es
  induction es generalizing d with
  | nil => simp
  | cons x es ih =>
    simp only [List.foldl_cons, ih, contains_insert, List.map_cons, List.mem_cons,
      Bool.or_eq_true, decide_eq_true_eq]
    rw [@eq_comm _ x.1 name, @or_comm (name = x.1), or_assoc]

/-- One more name to avoid leaves fewer names. -/
theorem length_keys_filter_cons_lt {d : Dict α} {name : String} {seen : List String}
    (h : d.contains name = true) (hseen : name ∉ seen) :
    (d.keys.filter fun k => k ∉ name :: seen).length <
      (d.keys.filter fun k => k ∉ seen).length := by
  have hfilter : (d.keys.filter fun k => k ∉ name :: seen) =
      (d.keys.filter fun k => k ∉ seen).filter fun k => k ≠ name := by
    rw [List.filter_filter]
    congr 1
    funext k
    simp
  rw [hfilter, List.length_filter_lt_length_iff_exists]
  exact ⟨name, by simp [mem_keys_iff, h, hseen], by simp⟩

/-- What is found among the entries whose names satisfy a condition. -/
theorem get?_filter_fst (d : Dict α) (p : String → Bool) (name : String) :
    (d.filter fun k _ => p k).get? name = if p name then d.get? name else none :=
  lookup?_filter_fst name p d.entries

/-! ## Order -/

/-- A new name comes last. -/
theorem entries_insert_of_not_mem {d : Dict α} {name : String} (h : name ∉ d.keys) (value : α) :
    (d.insert name value).entries = d.entries ++ [(name, value)] := by
  unfold insert keys at *
  simp only
  generalize d.entries = es at h
  induction es with
  | nil => rfl
  | cons e es ih =>
    obtain ⟨k, v⟩ := e
    simp only [List.map_cons, List.mem_cons, not_or] at h
    simp [put, Ne.symm h.1, ih h.2]

/-- What is put under a name makes no difference to the entries that satisfy a condition, if neither
it nor what it replaces does. -/
theorem filter_put {p : String → α → Bool} {key : String} {value : α} {es : List (String × α)}
    (hnew : p key value = false) (hold : ∀ v, (key, v) ∈ es → p key v = false) :
    (put key value es).filter (fun e => p e.1 e.2) = es.filter fun e => p e.1 e.2 := by
  induction es with
  | nil => simp [put, hnew]
  | cons e es ih =>
    obtain ⟨k, v⟩ := e
    by_cases h : k = key
    · subst h
      simp [put, hnew, hold v List.mem_cons_self]
    · simp only [put, h, if_false, List.filter_cons]
      rw [ih fun v hv => hold v (List.mem_cons_of_mem _ hv)]

/-- What is put under a name makes no difference to the entries that satisfy a condition, if neither
it nor what it replaces does. -/
theorem filter_insert {d : Dict α} {p : String → α → Bool} {key : String} {value : α}
    (hnew : p key value = false) (hold : ∀ v, d.get? key = some v → p key v = false) :
    (d.insert key value).filter p = d.filter p :=
  ext (filter_put hnew fun v hv => hold v (get?_of_mem_entries hv))

/-- Conditions one after another. -/
theorem filter_filter (d : Dict α) (p q : String → α → Bool) :
    (d.filter p).filter q = d.filter fun k v => q k v && p k v :=
  ext (List.filter_filter ..)

/-- Erasing a name makes no difference to the entries of other names. -/
theorem filter_erase {d : Dict α} {p : String → Bool} {key : String} (h : p key = false) :
    ((d.erase key).filter fun k _ => p k) = d.filter fun k _ => p k := by
  unfold erase
  rw [filter_filter]
  congr 1
  funext k _
  by_cases hk : k = key
  · simp [hk, h]
  · simp [hk]

/-- Erasing a name that was new gives the dictionary back. -/
theorem erase_insert_of_not_mem {d : Dict α} {name : String} (h : name ∉ d.keys) (value : α) :
    (d.insert name value).erase name = d := by
  apply ext
  simp only [erase, filter, entries_insert_of_not_mem h, List.filter_append]
  have h1 : d.entries.filter (fun e => e.1 != name) = d.entries := by
    rw [List.filter_eq_self]
    intro e he
    simp only [bne_iff_ne, ne_eq]
    exact fun hk => h (hk ▸ List.mem_map_of_mem he)
  simp [h1]

/-- Entries that all satisfy a condition stay. -/
theorem filter_eq_self {d : Dict α} {p : String → α → Bool}
    (h : ∀ name value, d.get? name = some value → p name value = true) : d.filter p = d :=
  ext (List.filter_eq_self.2 fun e he => h e.1 e.2 (get?_of_mem_entries he))

/-- Conditions that are the same for every entry. -/
theorem filter_congr {d : Dict α} {p q : String → α → Bool}
    (h : ∀ name value, d.get? name = some value → p name value = q name value) :
    d.filter p = d.filter q :=
  ext (List.filter_congr fun e he => h e.1 e.2 (get?_of_mem_entries he))

/-- What is in a dictionary whose entries that satisfy a condition are those of another one. -/
theorem get?_of_filter_eq {d d' : Dict α} {p : String → α → Bool} {name : String}
    {value : α} (h : d'.filter p = d.filter p) (hvalue : d'.get? name = some value) :
    d.get? name = some value ∨ p name value = false := by
  cases hp : p name value with
  | false => exact .inr rfl
  | true =>
    have hmem : (name, value) ∈ (d'.filter p).entries :=
      List.mem_filter.2 ⟨mem_entries_of_get? hvalue, hp⟩
    rw [h] at hmem
    exact .inl (get?_of_mem_entries (List.mem_filter.1 hmem).1)

/-- A part of a list of entries, in their order, consists of the entries of its names. -/
theorem filter_mem_of_sublist {es fs : List (String × α)} (h : es.Sublist fs)
    (hn : (fs.map Prod.fst).Nodup) : (fs.filter fun e => e.1 ∈ es.map Prod.fst) = es := by
  induction h with
  | slnil => rfl
  | @cons es fs e h ih =>
    rw [List.map_cons, List.nodup_cons] at hn
    have hnot : e.1 ∉ es.map Prod.fst := fun hmem => hn.1 ((h.map Prod.fst).subset hmem)
    rw [List.filter_cons_of_neg (by simpa using hnot)]
    exact ih hn.2
  | @cons_cons es fs e h ih =>
    rw [List.map_cons, List.nodup_cons] at hn
    rw [List.filter_cons_of_pos (by simp)]
    congr 1
    refine Eq.trans (List.filter_congr fun f hf => ?_) (ih hn.2)
    have hne : f.1 ≠ e.1 := fun heq => hn.1 (heq ▸ List.mem_map_of_mem hf)
    simp [hne]

/-- Two parts of a dictionary, in its order, are equal if they have the same names. -/
theorem eq_of_sublist {d e f : Dict α} (hd : d.entries.Sublist f.entries)
    (he : e.entries.Sublist f.entries) (h : ∀ name, d.contains name = e.contains name) : d = e := by
  apply ext
  rw [← filter_mem_of_sublist hd f.nodup, ← filter_mem_of_sublist he f.nodup]
  refine List.filter_congr fun x _ => ?_
  rw [decide_eq_decide, ← keys, ← keys, mem_keys_iff, mem_keys_iff, h]

end Dict

end Conduit
