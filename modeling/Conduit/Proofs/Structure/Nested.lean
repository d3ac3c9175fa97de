import Mathlib.Logic.Relation
import Conduit.Proofs.Content.Placeholder
import Conduit.Proofs.Structure.Filled
import Conduit.Proofs.Structure.Larger

/-!
# Defaults of nested records

The values of a valid record have a value for every field with a default, but a record that is
nested in one of them is checked and stays as it is. So whether a nested record is complete
(`Registry.Complete`) depends on what was given, and on the defaults that were filled in, which may
lack fields as well. `Registry.validate_complete_iff` says so of each record, and of each structure
that all nested records of its valid records are complete exactly if no structure whose records they
may be has a field with a default.

Which these are is read off the types of the fields (`Registry.MayHold`): a dictionary has entries
only if a text can be a key of it. That a field is left out somewhere takes a valid record in which
it is: the placeholder of the structure, with another value for one field on each level
(`Registry.exists_nested`).
-/

namespace Conduit

namespace FieldType

/-- Whether some text is a value of a type. -/
def takesText : FieldType → Bool
  | text | date => true
  | _ => false

/-- The structures whose records a value of a type may hold. -/
def held : FieldType → List String
  | nested name => [name]
  | listOf item => item.held
  | dictOf key value => if key.takesText then value.held else []
  | _ => []

end FieldType

namespace Registry

variable {r : Registry} {n : Nat} {name inner key owner field : String} {type : FieldType}
  {v : Json} {f : Field} {record members : List (String × Json)} {values d d' : Dict Json}

/-! ## Nested records -/

/-- A value holds a record of a structure: it is the record, or an item or an entry of it holds
it. -/
inductive Holds : FieldType → Json → String → List (String × Json) → Prop where
  | record {name : String} {members : List (String × Json)} :
      Holds (.nested name) (.object members) name members
  | item {type : FieldType} {items : List Json} {v : Json} {name : String}
      {members : List (String × Json)} (hv : v ∈ items) (h : Holds type v name members) :
      Holds (.listOf type) (.array items) name members
  | entry {key type : FieldType} {entries : List (String × Json)} {k : String} {v : Json}
      {name : String} {members : List (String × Json)} (hv : (k, v) ∈ entries)
      (h : Holds type v name members) :
      Holds (.dictOf key type) (.object entries) name members

/-- The first record, of the structure named with it, is held by the value of a field of the
second. -/
def Inside (r : Registry) (inner outer : String × List (String × Json)) : Prop :=
  ∃ key f v, (r.allFields outer.1).get? key = some f ∧ Json.member? outer.2 key = some v ∧
    Holds f.type v inner.1 inner.2

/-- A record has a value for every field with a default. -/
def Complete (r : Registry) (x : String × List (String × Json)) : Prop :=
  ∀ key f, (r.allFields x.1).get? key = some f → f.default.isSome = true →
    (given? x.2 key).isSome = true

/-- A field of the second structure may hold a record of the first. -/
def MayHold (r : Registry) (inner outer : String) : Prop :=
  ∃ f ∈ (r.allFields outer).values, inner ∈ f.type.held

theorem Holds.ne_null (h : Holds type v name members) : v ≠ .null := by
  rintro rfl
  cases h

/-! ## What is nested in a valid record -/

/-- Only types with texts among their values take the keys of a dictionary. -/
theorem takesText_of_checked {nested : String → List (String × Json) → Except RecordError Unit}
    {s : String} (h : checkValue nested owner field type (.string s) = .ok ()) :
    type.takesText = true := by
  cases type with
  | text | date => rfl
  | _ => cases h

/-- A record that an accepted value holds is valid, and of a structure that the type names. -/
theorem Holds.checked (h : Holds type v name members)
    (hv : checkValue (r.nestedWithin n) owner field type v = .ok ()) :
    name ∈ type.held ∧ r.Valid name members := by
  induction h with
  | record =>
    obtain ⟨values, hvalid⟩ := nestedWithin_eq_ok_iff.1 (mapError_eq_ok_iff.1 hv)
    exact ⟨List.mem_singleton_self _, values, validate_of_validateWithin hvalid⟩
  | item hmem _ ih => exact ih (forM_eq_ok_iff.1 hv _ hmem)
  | entry hmem _ ih =>
    obtain ⟨_, hkey, hvalue⟩ := bind_eq_ok_iff.1 (forM_eq_ok_iff.1 hv _ hmem)
    rw [FieldType.held, if_pos (takesText_of_checked hkey)]
    exact ih hvalue

/-- What is in a valid record is valid, and of a structure that the fields name. -/
theorem Inside.valid {x y : String × List (String × Json)} (h : r.Inside x y)
    (hy : r.Valid y.1 y.2) : r.MayHold x.1 y.1 ∧ r.Valid x.1 x.2 := by
  obtain ⟨key, f, v, hf, hv, hholds⟩ := h
  obtain ⟨values, hvalid⟩ := hy
  obtain ⟨_, _, htakes, _⟩ := validateWithin_eq_ok_iff.1 hvalid
  have htake := htakes (key, f) (Dict.mem_entries_of_get? hf)
  have hchosen : chosen? { f with name := key } y.2 = some v := by
    rw [chosen?_eq, given?_of_member? hv hholds.ne_null]
    rfl
  rw [Takes, hchosen] at htake
  obtain ⟨hheld, hx⟩ := hholds.checked htake.1
  exact ⟨⟨f, Dict.mem_values_of_get? hf, hheld⟩, hx⟩

/-- Records that are nested in a valid record, at any depth, are of structures that may be held. -/
theorem mayHold_of_inside {x y : String × List (String × Json)}
    (h : Relation.TransGen r.Inside x y) (hy : r.Valid y.1 y.2) :
    Relation.TransGen r.MayHold x.1 y.1 ∧ r.Valid x.1 x.2 := by
  induction h using Relation.TransGen.head_induction_on with
  | single h =>
    obtain ⟨hhold, hx⟩ := h.valid hy
    exact ⟨.single hhold, hx⟩
  | head h _ ih =>
    obtain ⟨hhold, hx⟩ := h.valid ih.2
    exact ⟨.head hhold ih.1, hx⟩

/-! ## Valid records with other values -/

/-- What a field takes it takes where records may be nested deeper. -/
theorem Takes.mono {k : Nat} (h : Takes (r.nestedWithin n) record name f) (hnk : n ≤ k) :
    Takes (r.nestedWithin k) record name f := by
  refine h.imp fun v _ s members _ hs => ?_
  obtain ⟨values, hs⟩ := nestedWithin_eq_ok_iff.1 hs
  exact nestedWithin_eq_ok_iff.2 ⟨values, validateWithin_mono hnk hs⟩

/-- A valid record stays valid if one field takes what it is given instead. -/
theorem valid_of_takes (hd : r.Valid name d.entries) (hf : (r.allFields name).get? key = some f)
    (hothers : ∀ k, k ≠ key → d'.get? k = d.get? k)
    (htakes : Takes (r.nestedWithin n) d'.entries key f) : r.Valid name d'.entries := by
  obtain ⟨values, hvalid⟩ := hd
  obtain ⟨hname, hmembers, hold, _⟩ := validateWithin_eq_ok_iff.1 hvalid
  refine ⟨_, validate_of_validateWithin (n := n + ((Json.object d.entries).depth + r.budget) + 1)
    (validateWithin_eq_ok_iff.2 ⟨hname, fun e he => ?_, fun e he => ?_, rfl⟩)⟩
  · by_cases hkey : e.1 = key
    · rw [hkey]
      exact Dict.contains_of_get? hf
    · have hget : d.get? e.1 = some e.2 :=
        (hothers e.1 hkey).symm.trans (Dict.get?_of_mem_entries he)
      exact hmembers (e.1, e.2) (Dict.mem_entries_of_get? hget)
  · obtain ⟨k, g⟩ := e
    by_cases hkey : k = key
    · subst hkey
      obtain rfl : g = f := Option.some.inj ((Dict.get?_of_mem_entries he).symm.trans hf)
      exact htakes.mono (Nat.le_add_right _ _)
    · have hchosen : chosen? { g with name := k } d'.entries =
          chosen? { g with name := k } d.entries := by
        rw [chosen?_eq, chosen?_eq, given?, given?, member?_entries, member?_entries,
          hothers k hkey]
      exact (takes_congr hchosen).2 ((hold (k, g) he).mono (Nat.le_add_left _ _))

/-- A field may be given another value of its type. -/
theorem valid_insert (hd : r.Valid name d.entries) (hf : (r.allFields name).get? key = some f)
    (hv : checkValue (r.nestedWithin n) owner field f.type v = .ok ())
    (hadmits : f.admits v = true) : r.Valid name (d.insert key v).entries := by
  have hnull : v ≠ .null := by
    rintro rfl
    exact checkValue_null hv
  have hgiven : given? (d.insert key v).entries key = some v :=
    given?_of_member? (by rw [member?_entries, Dict.get?_insert, if_pos rfl]) hnull
  refine valid_of_takes hd hf (fun k hk => by rw [Dict.get?_insert, if_neg (Ne.symm hk)]) (n := n) ?_
  rw [Takes, chosen?_eq, hgiven]
  exact ⟨checkValue_imp (fun _ _ _ hs => hs) hv, hadmits⟩

/-- A field with a default may be left out. -/
theorem valid_erase (hg : r.Grounded) (hd : r.Valid name d.entries)
    (hf : (r.allFields name).get? key = some f) (hdefault : f.default = some v) :
    r.Valid name (d.erase key).entries := by
  have hgiven : given? (d.erase key).entries key = none := by
    rw [given?, member?_entries, Dict.get?_erase, if_pos rfl]
    rfl
  refine valid_of_takes hd hf (fun k hk => by rw [Dict.get?_erase, if_neg (Ne.symm hk)])
    (n := r.budget + r.budget) ?_
  rw [Takes, chosen?_eq, hgiven, Option.none_or, hdefault]
  exact ⟨checkValue_imp (fun _ _ _ hs => hs) (hg.defaultWithin hf v hdefault),
    (hg.anchored hf).admitted v hdefault⟩

/-! ## Records with a given record in them -/

/-- A type with texts among its values takes one. -/
theorem exists_text {nested : String → List (String × Json) → Except RecordError Unit}
    (h : type.takesText = true) :
    ∃ s, checkValue nested owner field type (.string s) = .ok () := by
  cases type with
  | text => exact ⟨"", rfl⟩
  | date =>
    refine ⟨Placeholder.date, ?_⟩
    rw [checkValue, if_pos (by decide)]
  | _ => cases h

/-- Some value of a type holds a given valid record. -/
theorem exists_value (hheld : inner ∈ type.held) (hvalid : r.Valid inner members) :
    ∃ n v, Holds type v inner members ∧ checkValue (r.nestedWithin n) "" "" type v = .ok () := by
  induction type with
  | text | integer | boolean | number | date | anyList | anyDict => cases hheld
  | nested s =>
    obtain rfl := List.mem_singleton.1 hheld
    obtain ⟨values, hvalid⟩ := hvalid
    exact ⟨_, .object members, .record,
      mapError_eq_ok_iff.2 (nestedWithin_eq_ok_iff.2 ⟨values, hvalid⟩)⟩
  | listOf item ih =>
    obtain ⟨n, v, hholds, hv⟩ := ih hheld
    exact ⟨n, .array [v], .item (List.mem_singleton_self v) hholds,
      forM_eq_ok_iff.2 (List.forall_mem_singleton.2 hv)⟩
  | dictOf key value _ ih =>
    rw [FieldType.held] at hheld
    split at hheld
    · next hkey =>
      obtain ⟨n, v, hholds, hv⟩ := ih hheld
      obtain ⟨k, hk⟩ := exists_text hkey
      exact ⟨n, .object [(k, v)], .entry (List.mem_singleton_self _) hholds,
        forM_eq_ok_iff.2 (List.forall_mem_singleton.2 (bind_eq_ok_iff.2 ⟨(), hk, hv⟩))⟩
    · cases hheld

/-- The placeholder of a structure is valid as it is. -/
theorem valid_placeholder (h : r.Compiled) (hname : r.contains name = true) :
    r.Valid name (Placeholder.fieldsWithin r 0 r.structures.size name).entries :=
  valid_entries (Placeholder.validate_fieldsWithin h.sound h.grounded hname (rank_lt_size hname).le)

/-- Some valid record has a given valid record in it. -/
theorem exists_inside (h : r.Compiled) {x : String × List (String × Json)}
    (hhold : r.MayHold x.1 name) (hx : r.Valid x.1 x.2) :
    ∃ members, r.Valid name members ∧ r.Inside x (name, members) := by
  obtain ⟨f, hmem, hheld⟩ := hhold
  obtain ⟨key, hf⟩ := Dict.exists_get?_of_mem_values hmem
  obtain ⟨n, v, hholds, hv⟩ := exists_value hheld hx
  have hadmits : f.admits v = true := by
    have hchoices : f.choices = [] := by
      by_contra hne
      rw [(h.grounded.anchored hf).choices hne] at hheld
      cases hheld
    simp [Field.admits, hchoices]
  have hname : r.contains name = true := contains_of_allFields (Dict.contains_of_get? hf)
  refine ⟨_, valid_insert (valid_placeholder h hname) hf hv hadmits, key, f, v, hf, ?_, hholds⟩
  rw [member?_entries, Dict.get?_insert, if_pos rfl]

/-- What may be held is in some valid record at some depth. -/
theorem exists_nested (h : r.Compiled) {x : String × List (String × Json)}
    (hhold : Relation.TransGen r.MayHold x.1 name) (hx : r.Valid x.1 x.2) :
    ∃ members, r.Valid name members ∧ Relation.TransGen r.Inside x (name, members) := by
  induction hhold with
  | single hhold =>
    obtain ⟨members, hvalid, hinside⟩ := exists_inside h hhold hx
    exact ⟨members, hvalid, .single hinside⟩
  | tail _ hhold ih =>
    obtain ⟨members, hvalid, hinside⟩ := ih
    obtain ⟨members', hvalid', hinside'⟩ := exists_inside h (x := (_, members)) hhold hvalid
    exact ⟨members', hvalid', .tail hinside hinside'⟩

/-! ## Complete records -/

/-- What is in the values of a valid record is in what is given to a field, or in the default of a
field to which nothing is given. -/
theorem inside_values_iff (h : r.validate name record = .ok values)
    {x : String × List (String × Json)} :
    r.Inside x (name, values.entries) ↔
      ∃ key f v, (r.allFields name).get? key = some f ∧
        (given? record key).or f.default = some v ∧ Holds f.type v x.1 x.2 := by
  have hvalue : ∀ key f, (r.allFields name).get? key = some f →
      Json.member? values.entries key = (given? record key).or f.default :=
    fun key f hf => (member?_entries values key).trans (get?_of_validate h hf)
  constructor
  · rintro ⟨key, f, v, hf, hv, hholds⟩
    exact ⟨key, f, v, hf, (hvalue key f hf).symm.trans hv, hholds⟩
  · rintro ⟨key, f, v, hf, hv, hholds⟩
    exact ⟨key, f, v, hf, (hvalue key f hf).trans hv, hholds⟩

/-- The values of a valid record are complete. -/
theorem complete_values (h : r.validate name record = .ok values) :
    r.Complete (name, values.entries) := by
  intro key f hf hdefault
  obtain ⟨_, hnull, _⟩ := validate_filled h
  obtain ⟨v, hv⟩ : ∃ v, values.get? key = some v := by
    obtain ⟨w, hw⟩ := Option.isSome_iff_exists.1 hdefault
    rw [get?_of_validate h hf, hw]
    cases given? record key with
    | none => exact ⟨w, rfl⟩
    | some v => exact ⟨v, rfl⟩
  have hgiven : given? values.entries key = some v :=
    given?_of_member? ((member?_entries values key).trans hv)
      (hnull (key, v) (Dict.mem_entries_of_get? hv))
  rw [hgiven]
  rfl

/-- What is in a record is in its values. -/
theorem Inside.filled {x : String × List (String × Json)} (hx : r.Inside x (name, record))
    (h : r.validate name record = .ok values) : r.Inside x (name, values.entries) := by
  obtain ⟨key, f, v, hf, hv, hholds⟩ := hx
  refine (inside_values_iff h).2 ⟨key, f, v, hf, ?_, hholds⟩
  rw [given?_of_member? hv hholds.ne_null]
  rfl

/-- All records in a value of a type are complete, at any depth. -/
def AllComplete (r : Registry) (type : FieldType) (v : Json) : Prop :=
  ∀ x : String × List (String × Json), Holds type v x.1 x.2 →
    ∀ y, Relation.ReflTransGen r.Inside y x → r.Complete y

/-- Validation fills in the defaults of a record, and no defaults of the records in it: these are
all complete if and only if they are so in the values that are given and in the defaults that are
filled in. So for a structure they are complete in all valid records if and only if no structure
whose records may be in them has a field with a default. -/
theorem validate_complete_iff (h : r.Compiled) (name : String) :
    (∀ record values, r.validate name record = .ok values →
      r.Complete (name, values.entries) ∧
      ((∀ y, Relation.TransGen r.Inside y (name, values.entries) → r.Complete y) ↔
        ∀ key f v, (r.allFields name).get? key = some f →
          (given? record key).or f.default = some v → r.AllComplete f.type v)) ∧
    ((∀ record values, r.validate name record = .ok values →
        ∀ y, Relation.TransGen r.Inside y (name, values.entries) → r.Complete y) ↔
      ∀ inner, Relation.TransGen r.MayHold inner name →
        ∀ f ∈ (r.allFields inner).values, f.default = none) := by
  refine ⟨fun record values hvalid => ⟨complete_values hvalid, ?_⟩, ?_, ?_⟩
  · simp only [Relation.TransGen.tail'_iff, inside_values_iff hvalid]
    constructor
    · intro hall key f v hf hv x hholds y hy
      exact hall y ⟨x, hy, key, f, v, hf, hv, hholds⟩
    · rintro hall y ⟨x, hy, key, f, v, hf, hv, hholds⟩
      exact hall key f v hf hv x hholds y hy
  · intro hall inner hhold f hmem
    -- a record without this field is in some valid record of the structure
    by_contra hne
    obtain ⟨v, hv⟩ := Option.ne_none_iff_exists'.1 hne
    obtain ⟨key, hf⟩ := Dict.exists_get?_of_mem_values hmem
    have hinner : r.contains inner = true := contains_of_allFields (Dict.contains_of_get? hf)
    have hlacks := valid_erase h.grounded (valid_placeholder h hinner) hf hv
    obtain ⟨members, ⟨values, hvalid⟩, hinside⟩ := exists_nested h (x := (inner, _)) hhold hlacks
    obtain ⟨x, hx, hlast⟩ := Relation.TransGen.tail'_iff.1 hinside
    have hsome := hall members values hvalid _
      (Relation.TransGen.tail'_iff.2 ⟨x, hx, hlast.filled hvalid⟩) key f hf (by rw [hv]; rfl)
    rw [given?, member?_entries, Dict.get?_erase, if_pos rfl] at hsome
    cases hsome
  · intro hnone record values hvalid y hy key f hf hdefault
    have hhold := (mayHold_of_inside hy ⟨values, validate_entries hvalid⟩).1
    rw [hnone y.1 hhold f (Dict.mem_values_of_get? hf)] at hdefault
    cases hdefault

/-- Addresses may be in the records of persons, and have a field with a default, so some person has
an address that lacks it. -/
theorem validate_complete_iff_person : mailroom.Compiled ∧
    mailroom.MayHold "Address" "Person" ∧
    ¬ ∀ record values, mailroom.validate "Person" record = .ok values →
      ∀ y, Relation.TransGen mailroom.Inside y ("Person", values.entries) →
        mailroom.Complete y := by
  have hheld : mailroom.MayHold "Address" "Person" :=
    ⟨bareField "home" (.nested "Address") true none, by decide +kernel, by decide⟩
  refine ⟨mailroom_compiled, hheld, fun hall => ?_⟩
  have hnone := (validate_complete_iff mailroom_compiled "Person").2.1 hall "Address" (.single hheld)
    (bareField "country" .text true (some (.string "France"))) (by decide +kernel)
  cases hnone

/-- The records in a valid record need not be complete: the home of a person has no country. -/
theorem not_forall_validate_complete :
    ¬ ∀ r : Registry, r.Compiled → ∀ name record values, r.validate name record = .ok values →
      ∀ y, Relation.TransGen r.Inside y (name, values.entries) → r.Complete y := by
  intro hall
  have hinside : mailroom.Inside ("Address", [("city", .string "Paris")])
      ("Person", adaValues.entries) :=
    ⟨"home", bareField "home" (.nested "Address") true none, .object [("city", .string "Paris")],
      by decide +kernel, by decide +kernel, .record⟩
  have hsome := hall mailroom mailroom_compiled "Person" adaRecord adaValues validate_adaRecord
    _ (.single hinside) "country" (bareField "country" .text true (some (.string "France")))
    (by decide +kernel) rfl
  cases hsome

end Registry

end Conduit
