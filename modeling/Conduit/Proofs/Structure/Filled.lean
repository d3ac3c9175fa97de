import Conduit.Proofs.Json.Members
import Conduit.Proofs.Structure.Grounded

/-!
# What validation fills in

The values of a valid record are, in the order of the fields of its structure, those that the record
gives (`Registry.given?`) and the defaults of the fields to which it gives nothing
(`Registry.entries_valuesOf`). None of them is null, and as a record of its own, with its members
sorted, they are valid again with the same values (`Registry.validate_filled`). This holds in every
registry, for a default is checked like a value that was given.
-/

namespace Conduit.Registry

variable {r : Registry} {n : Nat} {name key : String} {record record' : List (String × Json)}
  {values : Dict Json} {f : Field} {v : Json}
  {nested : String → List (String × Json) → Except RecordError Unit}

/-! ## Given values -/

/-- The value that a record gives under a name: null gives none. -/
def given? (record : List (String × Json)) (name : String) : Option Json :=
  (Json.member? record name).filter (· ≠ .null)

/-- A field takes what it is given, else its default. -/
theorem chosen?_eq (f : Field) (record : List (String × Json)) :
    chosen? f record = (given? record f.name).or f.default := by
  unfold chosen? given?
  cases Json.member? record f.name with
  | none => rfl
  | some v => cases v <;> simp [Option.filter]

/-- A member that is not null is given. -/
theorem given?_of_member? (h : Json.member? record name = some v) (hv : v ≠ .null) :
    given? record name = some v := by
  rw [given?, h, Option.filter_some, if_pos (by simpa using hv)]

/-- What is given under a new name comes after what was there, in the order of the fields. -/
theorem entries_valuesOf {fields : List (String × Field)} (hn : (fields.map Prod.fst).Nodup)
    (hnew : ∀ key ∈ fields.map Prod.fst, key ∉ values.keys) :
    (valuesOf record fields values).entries = values.entries ++
      fields.filterMap fun e => ((given? record e.1).or e.2.default).map (e.1, ·) := by
  induction fields generalizing values with
  | nil => exact (List.append_nil _).symm
  | cons e fields ih =>
    obtain ⟨k, f⟩ := e
    rw [List.map_cons, List.nodup_cons] at hn
    rw [List.map_cons, List.forall_mem_cons] at hnew
    have hcons : valuesOf record ((k, f) :: fields) values = valuesOf record fields
        (((given? record k).or f.default).elim values (values.insert k)) := by
      rw [← chosen?_eq { f with name := k }]
      rfl
    rw [hcons, List.filterMap_cons]
    cases (given? record k).or f.default with
    | none => exact ih hn.2 hnew.2
    | some v =>
      have hinsert : (values.insert k v).entries = values.entries ++ [(k, v)] :=
        Dict.entries_insert_of_not_mem hnew.1 v
      rw [Option.elim_some, ih hn.2, hinsert, List.append_assoc]
      · rfl
      · intro key hkey hmem
        rw [Dict.keys, hinsert, List.map_append, List.mem_append] at hmem
        rcases hmem with hmem | hmem
        · exact hnew.2 key hkey hmem
        · rw [List.map_singleton, List.mem_singleton] at hmem
          exact hn.1 (hmem ▸ hkey)

/-! ## Records with the same members -/

/-- Whether a record is valid, and with which values, depends on what is found among its members,
if these are fields. -/
theorem validateWithin_congr (h : r.validateWithin n name record = .ok values)
    (hmembers : ∀ e ∈ record', (r.allFields name).contains e.1 = true)
    (hfound : ∀ key, Json.member? record' key = Json.member? record key) :
    r.validateWithin n name record' = .ok values := by
  cases n with
  | zero => cases h
  | succ n =>
    have hchosen : ∀ f : Field, chosen? f record' = chosen? f record := by
      intro f
      rw [chosen?_eq, chosen?_eq, given?, given?, hfound]
    rw [validateWithin_eq_ok_iff] at h ⊢
    obtain ⟨hname, _, htakes, hvalues⟩ := h
    refine ⟨hname, hmembers, fun e he => (takes_congr (hchosen _)).2 (htakes e he), ?_⟩
    rw [hvalues]
    exact valuesOf_congr fun e _ => (hchosen _).symm

/-- The entries of a dictionary are valid as sorted members if they are valid as they are. -/
theorem validate_sortMembers {d : Dict Json} (h : r.validate name d.entries = .ok values) :
    r.validate name (Json.sortMembers d.entries) = .ok values := by
  have hmembers : ∀ e ∈ d.entries, (r.allFields name).contains e.1 = true :=
    (validateWithin_eq_ok_iff.1 h).2.1
  refine validate_of_validateWithin (validateWithin_congr h
    (fun e he => hmembers e (Json.mem_of_mem_sortMembers he)) fun key => ?_)
  rw [Json.member?_sortMembers, Dict.ofList_entries, member?_entries]

/-! ## Filled records -/

/-- What the values of a valid record hold for a field. -/
theorem get?_of_validate (h : r.validate name record = .ok values)
    (hf : (r.allFields name).get? key = some f) :
    values.get? key = (given? record key).or f.default := by
  obtain ⟨_, _, _, rfl⟩ := validateWithin_eq_ok_iff.1 h
  rw [get?_valuesOf (r.allFields name).nodup, Dict.get?_empty, Option.or_none,
    show Dict.lookup? key (r.allFields name).entries = some f from hf, Option.bind_some]
  exact chosen?_eq _ _

/-- Validation fills a record and is done with it: the values are those that are given and the
defaults of the other fields, in the order of the fields; none is null; and the record that they
make is valid, with the same values. -/
theorem validate_filled (h : r.validate name record = .ok values) :
    values.entries = (r.allFields name).entries.filterMap
      (fun e => ((given? record e.1).or e.2.default).map (e.1, ·)) ∧
    (∀ e ∈ values.entries, e.2 ≠ .null) ∧
    r.validate name (Json.sortMembers values.entries) = .ok values := by
  obtain ⟨_, _, htakes, hvalues⟩ := validateWithin_eq_ok_iff.1 h
  have hentries : values.entries = (r.allFields name).entries.filterMap
      fun e => ((given? record e.1).or e.2.default).map (e.1, ·) := by
    rw [hvalues, entries_valuesOf (r.allFields name).nodup fun _ _ => List.not_mem_nil]
    rfl
  refine ⟨hentries, fun e he hnull => ?_, validate_sortMembers (validate_entries h)⟩
  rw [hentries] at he
  obtain ⟨⟨key, f⟩, hf, hvalue⟩ := List.mem_filterMap.1 he
  obtain ⟨v, hv, rfl⟩ := Option.map_eq_some_iff.1 hvalue
  refine chosen?_ne_null (htakes (key, f) hf) ?_
  rw [chosen?_eq, hv]
  exact congrArg some hnull

/-! ## A mailroom -/

/-- A field without description and choices. -/
def bareField (name : String) (type : FieldType) (required : Bool) (default : Option Json) : Field :=
  ⟨name, type, required, default, [], none⟩

/-- Addresses have a city, and a country with a default. -/
def addressShape : Structure where
  name := "Address"
  parent := some Structure.root
  fields := .ofList [("city", bareField "city" .text true none),
    ("country", bareField "country" .text true (some (.string "France")))]
  native := false

/-- Persons have a name, an address, a tone with a default, and perhaps former addresses. -/
def personShape : Structure where
  name := "Person"
  parent := some Structure.root
  fields := .ofList [("name", bareField "name" .text true none),
    ("home", bareField "home" (.nested "Address") true none),
    ("tone", { bareField "tone" .text false (some (.string "warm")) with
                choices := ["warm", "cold"] }),
    ("former", bareField "former" (.listOf (.nested "Address")) false none)]
  native := false

/-- A registry with addresses and persons. -/
def mailroom : Registry :=
  ⟨(Registry.initial.structures.insert "Address" addressShape).insert "Person" personShape⟩

theorem mailroom_compiled : mailroom.Compiled := by
  have haddress : Registry.initial.compile "Address" "structure Address extends StructuredContent \x7b
      city: text country: text default \"\\\"France\\\"\" \x7d" = .ok addressShape :=
    eq_ok_of_toOption (by decide +kernel)
  have hperson : Registry.compile ⟨Registry.initial.structures.insert "Address" addressShape⟩ "Person"
      "structure Person extends StructuredContent \x7b
      name: text home: Address tone?: text in [\"warm\", \"cold\"] default \"\\\"warm\\\"\"
      former?: list<Address> \x7d" = .ok personShape :=
    eq_ok_of_toOption (by decide +kernel)
  exact .register (.register .initial haddress (by decide +kernel)) hperson (by decide +kernel)

/-- A person without tone, and with an address without country. -/
def adaRecord : List (String × Json) :=
  [("former", .null), ("home", .object [("city", .string "Paris")]), ("name", .string "Ada")]

/-- What the record of the person is filled to: the tone is filled in. -/
def adaValues : Dict Json :=
  .ofList [("name", .string "Ada"), ("home", .object [("city", .string "Paris")]),
    ("tone", .string "warm")]

theorem validate_adaRecord : mailroom.validate "Person" adaRecord = .ok adaValues :=
  eq_ok_of_toOption (by decide +kernel)

theorem validate_filled_adaRecord : mailroom.validate "Person" adaRecord = .ok adaValues ∧
    adaValues.entries = (mailroom.allFields "Person").entries.filterMap
      (fun e => ((given? adaRecord e.1).or e.2.default).map (e.1, ·)) ∧
    (∀ e ∈ adaValues.entries, e.2 ≠ .null) ∧
    mailroom.validate "Person" (Json.sortMembers adaValues.entries) = .ok adaValues :=
  ⟨validate_adaRecord, validate_filled validate_adaRecord⟩

end Conduit.Registry
