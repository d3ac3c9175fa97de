import Mathlib.Algebra.GroupWithZero.Nat
import Mathlib.Algebra.Order.BigOperators.Group.List
import Mathlib.Algebra.Order.Group.Nat
import Mathlib.Data.Nat.Find
import Conduit.Proofs.Structure.Ancestry
import Conduit.Structure.Record

/-!
# Valid records

A record is valid if it passes the check of its structure (`Registry.Valid`). Validation is stable:
the values that it returns are a valid record with the same values
(`Registry.validate_entries`).

Stability rests on the bound of the nesting. A record that passes the check at some depth of nesting
passes it at every greater one (`validateWithin_mono`), and the budget is never what makes a check
fail (`validate_of_validateWithin`): where a default is met in the check of a record, the records in
it pass at a smaller depth than the default itself, so the defaults on a path are all different, and
the budget counts each of them.
-/

namespace Conduit.Registry

variable {r : Registry} {n k : Nat} {name owner field : String}
  {nested nested' : String → List (String × Json) → Except RecordError Unit}
  {record : List (String × Json)} {values : Dict Json} {f : Field}

/-! ## Values -/

/-- A value passes a check if the records in it pass the checks of theirs, whatever the place at
which errors would be reported. -/
theorem checkValue_imp {owner' field' : String} {type : FieldType} {v : Json}
    (hn : ∀ s members, (Json.object members).depth ≤ v.depth → nested s members = .ok () →
      nested' s members = .ok ())
    (h : checkValue nested owner field type v = .ok ()) :
    checkValue nested' owner' field' type v = .ok () := by
  induction type generalizing v with
  | text | integer | boolean | number | anyList =>
    cases v with
    | number n => cases n <;> first | exact rfl | cases h
    | _ => first | exact rfl | cases h
  | date =>
    cases v with
    | string s =>
      simp only [checkValue] at h ⊢
      split at h
      · next hd => rw [if_pos hd]
      · cases h
    | _ => cases h
  | listOf item ih =>
    cases v with
    | array items =>
      simp only [checkValue, forM_eq_ok_iff] at h ⊢
      intro w hw
      refine ih (fun s members hd => hn s members ?_) (h w hw)
      exact hd.trans (Json.depth_lt_of_mem_items hw).le
    | _ => cases h
  | anyDict key ih =>
    cases v with
    | object members =>
      simp only [checkValue, forM_eq_ok_iff] at h ⊢
      intro e he
      exact ih (fun s members hd => hn s members (hd.trans (Nat.zero_le _))) (h e he)
    | _ => cases h
  | dictOf key value ihk ihv =>
    cases v with
    | object members =>
      simp only [checkValue, forM_eq_ok_iff, bind_eq_ok_iff] at h ⊢
      intro e he
      obtain ⟨⟨⟩, hkey, hvalue⟩ := h e he
      refine ⟨(), ihk (fun s members hd => hn s members (hd.trans (Nat.zero_le _))) hkey, ?_⟩
      refine ihv (fun s members hd => hn s members ?_) hvalue
      exact hd.trans (Json.depth_lt_of_mem_members he).le
    | _ => cases h
  | nested s =>
    cases v with
    | object members =>
      simp only [checkValue, mapError_eq_ok_iff] at h ⊢
      exact hn s members le_rfl h
    | _ => cases h

/-- Null is not a value of any type. -/
theorem checkValue_null {type : FieldType} :
    checkValue nested owner field type .null ≠ .ok () := by
  cases type <;> nofun

/-! ## Fields -/

/-- A field takes what a record gives it. -/
def Takes (nested : String → List (String × Json) → Except RecordError Unit)
    (record : List (String × Json)) (name : String) (f : Field) : Prop :=
  match chosen? { f with name } record with
  | none => f.required = false
  | some v => checkValue nested name name f.type v = .ok () ∧ f.admits v = true

/-- The values that a record gives fields. -/
def valuesOf (record : List (String × Json)) (fields : List (String × Field))
    (values : Dict Json) : Dict Json :=
  fields.foldl (fun values (name, f) =>
    (chosen? { f with name } record).elim values (values.insert name)) values

/-- A field is added if it takes what it is given. -/
theorem addField_eq_ok_iff {values' : Dict Json} :
    addField nested owner record values name f = .ok values' ↔
      Takes nested record name f ∧
        values' = (chosen? { f with name } record).elim values (values.insert name) := by
  unfold addField Takes
  cases chosen? { f with name } record with
  | none => cases f.required <;> simp [eq_comm]
  | some v =>
    simp only [bind_eq_ok_iff]
    constructor
    · rintro ⟨⟨⟩, hcheck, h⟩
      split at h
      · next ha =>
        cases h
        exact ⟨⟨checkValue_imp (fun _ _ _ h => h) hcheck, ha⟩, rfl⟩
      · cases h
    · rintro ⟨⟨hcheck, ha⟩, rfl⟩
      refine ⟨(), checkValue_imp (fun _ _ _ h => h) hcheck, ?_⟩
      simp only [ha, if_true]
      rfl

/-- Fields are added if each takes what it is given. -/
theorem addFields_eq_ok_iff {fields : List (String × Field)} {values' : Dict Json} :
    fields.foldlM (fun values (e : String × Field) =>
        addField nested owner record values e.1 e.2) values = .ok values' ↔
      (∀ e ∈ fields, Takes nested record e.1 e.2) ∧ values' = valuesOf record fields values := by
  induction fields generalizing values with
  | nil => simp [valuesOf, pure, Except.pure, eq_comm]
  | cons e fields ih =>
    simp only [List.foldlM_cons, bind_eq_ok_iff, addField_eq_ok_iff, ih, List.forall_mem_cons]
    constructor
    · rintro ⟨_, ⟨hhead, rfl⟩, htail, rfl⟩
      exact ⟨⟨hhead, htail⟩, rfl⟩
    · rintro ⟨⟨hhead, htail⟩, rfl⟩
      exact ⟨_, ⟨hhead, rfl⟩, htail, rfl⟩

/-- What is found among the values that a record gives fields. -/
theorem get?_valuesOf {fields : List (String × Field)} (hn : (fields.map Prod.fst).Nodup)
    (key : String) :
    (valuesOf record fields values).get? key =
      ((Dict.lookup? key fields).bind fun f => chosen? { f with name := key } record).or
        (values.get? key) := by
  induction fields generalizing values with
  | nil => rfl
  | cons e fields ih =>
    obtain ⟨k, f⟩ := e
    rw [List.map_cons, List.nodup_cons] at hn
    simp only [valuesOf, List.foldl_cons] at ih ⊢
    rw [ih hn.2]
    by_cases hk : k = key
    · subst hk
      have hnone : Dict.lookup? k fields = none := by
        rw [← Option.not_isSome_iff_eq_none, ← Dict.mem_map_fst_iff_lookup?]
        exact hn.1
      cases hc : chosen? { f with name := k } record <;> simp [Dict.lookup?, hnone, hc]
    · cases chosen? { f with name := k } record <;> simp [Dict.lookup?, hk]

/-- What a field takes depends on what it is given. -/
theorem takes_congr {record' : List (String × Json)}
    (h : chosen? { f with name } record = chosen? { f with name } record') :
    Takes nested record name f ↔ Takes nested record' name f := by
  simp only [Takes, h]

/-! ## Records -/

/-- The check of the records in a value, nested at most `n` deep. -/
def nestedWithin (r : Registry) (n : Nat) (s : String) (members : List (String × Json)) :
    Except RecordError Unit :=
  (r.validateWithin n s members).map fun _ => ()

theorem nestedWithin_eq_ok_iff {s : String} {members : List (String × Json)} :
    r.nestedWithin n s members = .ok () ↔ ∃ values, r.validateWithin n s members = .ok values := by
  simp [nestedWithin]

/-- A record is valid at some depth if its structure is registered, its members are fields and each
field takes what it is given. -/
theorem validateWithin_eq_ok_iff :
    r.validateWithin (n + 1) name record = .ok values ↔
      r.contains name = true ∧ (∀ e ∈ record, (r.allFields name).contains e.1 = true) ∧
      (∀ e ∈ (r.allFields name).entries, Takes (r.nestedWithin n) record e.1 e.2) ∧
      values = valuesOf record (r.allFields name).entries .empty := by
  rw [validateWithin]
  cases hc : r.contains name with
  | false => simp
  | true =>
    simp only [Bool.not_true, Bool.false_eq_true, if_false, true_and]
    cases hf : record.find? fun e => !(r.allFields name).contains e.1 with
    | some e =>
      have hunknown : (r.allFields name).contains e.1 = false := by
        simpa using List.find?_some hf
      refine ⟨nofun, ?_⟩
      rintro ⟨hall, _⟩
      rw [hall e (List.mem_of_find?_eq_some hf)] at hunknown
      cases hunknown
    | none =>
      have hall : ∀ e ∈ record, (r.allFields name).contains e.1 = true := by
        simpa using hf
      exact ⟨fun h => ⟨hall, addFields_eq_ok_iff.1 h⟩, fun h => addFields_eq_ok_iff.2 h.2⟩

/-- A field takes what it is given if the records in it pass another check. -/
theorem Takes.imp (h : Takes nested record name f)
    (hn : ∀ v, chosen? { f with name } record = some v → ∀ s members,
      (Json.object members).depth ≤ v.depth → nested s members = .ok () →
        nested' s members = .ok ()) :
    Takes nested' record name f := by
  unfold Takes at h ⊢
  cases hc : chosen? { f with name } record with
  | none =>
    rw [hc] at h
    exact h
  | some v =>
    rw [hc] at h
    exact ⟨checkValue_imp (hn v hc) h.1, h.2⟩

/-! ## The depth of nesting -/

/-- A record that is valid at some depth is valid at every greater one. -/
theorem validateWithin_mono (hnk : n ≤ k) (h : r.validateWithin n name record = .ok values) :
    r.validateWithin k name record = .ok values := by
  induction n generalizing k name record values with
  | zero => cases h
  | succ n ih =>
    obtain ⟨k, rfl⟩ : ∃ j, k = j + 1 := ⟨k - 1, by omega⟩
    rw [validateWithin_eq_ok_iff] at h ⊢
    obtain ⟨hcontains, hmembers, htakes, hvalues⟩ := h
    refine ⟨hcontains, hmembers, ?_, hvalues⟩
    intro e he
    refine (htakes e he).imp fun v _ s members _ hs => ?_
    obtain ⟨values', hs⟩ := nestedWithin_eq_ok_iff.1 hs
    exact nestedWithin_eq_ok_iff.2 ⟨values', ih (by omega) hs⟩

/-- Every field that a structure declares. -/
def declared (r : Registry) : List Field :=
  r.structures.values.flatMap fun s => s.fields.values

/-- What the default of a field adds to the budget. -/
def share (f : Field) : Nat :=
  f.default.elim 0 Json.depth + 1

/-- The budget is the sum of the shares of all fields. -/
theorem budget_eq (r : Registry) : r.budget = (r.declared.map share).sum := by
  simp only [budget, declared, List.map_flatMap]
  rfl

/-- The fields of a structure are declared by it or by an ancestor. -/
theorem mem_declared_of_allFields {key : String}
    (h : (r.allFields name).get? key = some f) : f ∈ r.declared := by
  obtain ⟨x, _, s, hs, hf⟩ := exists_of_get?_fieldsOf h
  exact List.mem_flatMap.2 ⟨s, Dict.mem_values_of_get? hs, Dict.mem_values_of_get? hf⟩

/-- The default of a field passes the check of its type where records are nested at most `n` deep.
-/
def DefaultWithin (r : Registry) (n : Nat) (f : Field) : Prop :=
  ∀ d ∈ f.default, checkValue (r.nestedWithin n) "" "" f.type d = .ok ()

open Classical in
/-- The shares of the fields whose defaults pass the check of their type at a depth below `n`. -/
noncomputable def spent (r : Registry) (n : Nat) : Nat :=
  ((r.declared.filter fun f => ∃ k < n, r.DefaultWithin k f).map share).sum

/-- What is spent is within the budget. -/
theorem spent_le_budget (r : Registry) (n : Nat) : r.spent n ≤ r.budget := by
  rw [budget_eq]
  exact (List.filter_sublist.map share).sum_le_sum fun _ _ => Nat.zero_le _

/-- More is spent at a greater depth. -/
theorem spent_mono (hkn : k ≤ n) : r.spent k ≤ r.spent n := by
  refine List.Sublist.sum_le_sum (List.Sublist.map share ?_) fun _ _ => Nat.zero_le _
  refine List.monotone_filter_right _ ?_
  intro f hf
  simp only [decide_eq_true_eq] at hf ⊢
  obtain ⟨j, hj, hf⟩ := hf
  exact ⟨j, by omega, hf⟩

/-- Sums over the members of a list that satisfy a condition, with one more member. -/
theorem sum_filter_add_le {α : Type} {w : α → Nat} {p q : α → Bool} {as : List α} {a : α}
    (hpq : ∀ a, p a = true → q a = true) (ha : a ∈ as) (hp : p a = false) (hq : q a = true) :
    ((as.filter p).map w).sum + w a ≤ ((as.filter q).map w).sum := by
  induction as with
  | nil => exact absurd ha List.not_mem_nil
  | cons b as ih =>
    rcases List.mem_cons.1 ha with rfl | ha
    · have hle : ((as.filter p).map w).sum ≤ ((as.filter q).map w).sum :=
        ((List.monotone_filter_right as hpq).map w).sum_le_sum fun _ _ => Nat.zero_le _
      simp only [List.filter_cons, hp, hq, if_true, Bool.false_eq_true, if_false, List.map_cons,
        List.sum_cons]
      omega
    · have hrest := ih ha
      cases hb : p b with
      | true =>
        simp only [List.filter_cons, hb, hpq b hb, if_true, List.map_cons, List.sum_cons]
        omega
      | false =>
        simp only [List.filter_cons, hb, Bool.false_eq_true, if_false]
        split
        · rw [List.map_cons, List.sum_cons]
          omega
        · exact hrest

/-- A default that first passes at a depth is spent above it and not at it. -/
theorem spent_add_share_le (hf : f ∈ r.declared) (hk : r.DefaultWithin k f)
    (hmin : ∀ j < k, ¬ r.DefaultWithin j f) (hkn : k < n) : r.spent k + share f ≤ r.spent n := by
  refine sum_filter_add_le (fun g hg => ?_) hf ?_ ?_
  · simp only [decide_eq_true_eq] at hg ⊢
    obtain ⟨j, hj, hg⟩ := hg
    exact ⟨j, by omega, hg⟩
  · simp only [decide_eq_false_iff_not, not_exists, not_and]
    exact hmin
  · simp only [decide_eq_true_eq]
    exact ⟨k, hkn, hk⟩

/-- A value that a record gives a field is that of a member, or the default of the field. -/
theorem mem_or_default_of_chosen? {v : Json} (h : chosen? f record = some v) :
    (f.name, v) ∈ record ∨ f.default = some v := by
  unfold chosen? at h
  split at h
  · exact .inr h
  · exact .inr h
  · next hm =>
    cases h
    exact .inl (Json.mem_of_member? hm)

/-- Where records are nested at most `n` deep, the depth of a record and what is spent on defaults
suffice for its check. -/
def Enough (r : Registry) (n : Nat) : Prop :=
  ∀ name record values, r.validateWithin n name record = .ok values →
    r.validateWithin ((Json.object record).depth + r.spent n) name record = .ok values

theorem Enough.within {s : String} {members : List (String × Json)} (h : r.Enough n)
    (hk : (Json.object members).depth + r.spent n ≤ k) (hs : r.nestedWithin n s members = .ok ()) :
    r.nestedWithin k s members = .ok () := by
  obtain ⟨values, hs⟩ := nestedWithin_eq_ok_iff.1 hs
  exact nestedWithin_eq_ok_iff.2 ⟨values, validateWithin_mono hk (h s members values hs)⟩

/-- A member is given to a field: the records in it are less deep than the record. -/
theorem Enough.takes_member {v : Json} (h : r.Enough n)
    (htakes : Takes (r.nestedWithin n) record name f)
    (hv : chosen? { f with name } record = some v) (hk : v.depth + r.spent n ≤ k) :
    Takes (r.nestedWithin k) record name f := by
  refine htakes.imp fun w hw s members hd hs => ?_
  rw [hv, Option.some.injEq] at hw
  subst hw
  exact h.within (by omega) hs

/-- The records in a default pass at the least depth at which the default does, so that what is spent
below that depth does not contain the share of its field. -/
theorem checkValue_default {v : Json} (h : ∀ j ≤ n, r.Enough j) (hf : f ∈ r.declared)
    (hdefault : f.default = some v)
    (hcheck : checkValue (r.nestedWithin n) owner field f.type v = .ok ())
    (hk : r.spent (n + 1) ≤ k + 1) : checkValue (r.nestedWithin k) owner field f.type v = .ok () := by
  have hpass : r.DefaultWithin n f := by
    intro d hd
    rw [hdefault, Option.mem_some_iff] at hd
    rw [← hd]
    exact checkValue_imp (fun _ _ _ hs => hs) hcheck
  obtain ⟨j, hj, hmin⟩ : ∃ j, r.DefaultWithin j f ∧ ∀ i < j, ¬ r.DefaultWithin i f := by
    classical
    have hex : ∃ j, r.DefaultWithin j f := ⟨n, hpass⟩
    exact ⟨Nat.find hex, Nat.find_spec hex, fun _ => Nat.find_min hex⟩
  have hjn : j ≤ n := by
    by_contra hlt
    exact hmin n (by omega) hpass
  have hspent : r.spent j + share f ≤ r.spent (n + 1) := spent_add_share_le hf hj hmin (by omega)
  have hshare : share f = v.depth + 1 := by
    rw [share, hdefault]
    rfl
  refine checkValue_imp ?_ (hj v hdefault)
  intro s members hd hs
  exact (h j hjn).within (by omega) hs

/-- A default is given to a field. -/
theorem takes_default {v : Json} (h : ∀ j ≤ n, r.Enough j) (hf : f ∈ r.declared)
    (htakes : Takes (r.nestedWithin n) record name f)
    (hv : chosen? { f with name } record = some v) (hdefault : f.default = some v)
    (hk : r.spent (n + 1) ≤ k + 1) : Takes (r.nestedWithin k) record name f := by
  unfold Takes at htakes ⊢
  rw [hv] at htakes ⊢
  exact ⟨checkValue_default h hf hdefault htakes.1 hk, htakes.2⟩

/-- The depth of a record and what is spent on defaults suffice for its check. -/
theorem enough (r : Registry) (n : Nat) : r.Enough n := by
  induction n using Nat.strong_induction_on with
  | _ n ih =>
    intro name record values h
    cases n with
    | zero => cases h
    | succ n =>
      have hdepth : 0 < (Json.object record).depth := Nat.succ_pos _
      obtain ⟨k, hk⟩ : ∃ k, (Json.object record).depth + r.spent (n + 1) = k + 1 :=
        ⟨(Json.object record).depth + r.spent (n + 1) - 1, by omega⟩
      rw [validateWithin_eq_ok_iff] at h
      obtain ⟨hcontains, hmembers, htakes, hvalues⟩ := h
      rw [hk, validateWithin_eq_ok_iff]
      refine ⟨hcontains, hmembers, ?_, hvalues⟩
      rintro ⟨key, f⟩ he
      have htake : Takes (r.nestedWithin n) record key f := htakes _ he
      cases hc : chosen? { f with name := key } record with
      | none => exact htake.imp fun v hv => by simp [hc] at hv
      | some v =>
        rcases mem_or_default_of_chosen? hc with hmem | hdefault
        · have hlt : v.depth < (Json.object record).depth := Json.depth_lt_of_mem_members hmem
          have hspent : r.spent n ≤ r.spent (n + 1) := spent_mono n.le_succ
          exact (ih n n.lt_succ_self).takes_member htake hc (by omega)
        · have hf : f ∈ r.declared := mem_declared_of_allFields (Dict.get?_of_mem_entries he)
          exact takes_default (fun j hj => ih j (Nat.lt_succ_of_le hj)) hf htake hc hdefault
            (by omega)

/-- The budget is never what makes a check fail: a record that is valid at some depth is valid. -/
theorem validate_of_validateWithin (h : r.validateWithin n name record = .ok values) :
    r.validate name record = .ok values := by
  have hbudget := r.spent_le_budget n
  exact validateWithin_mono (by omega) (r.enough n name record values h)

/-! ## The values of a valid record -/

/-- A value whose records pass at some depth of nesting is accepted. -/
theorem check_of_checkValue {type : FieldType} {v : Json}
    (h : checkValue (r.nestedWithin n) owner field type v = .ok ()) :
    r.check owner field type v = .ok () := by
  refine checkValue_imp (fun s members hd hs => ?_) h
  have hspent := r.spent_le_budget n
  exact (r.enough n).within (by omega) hs

/-- A field is given no value by a record that has none for it, or null, and only if it has no
default. -/
theorem chosen?_eq_none_iff :
    chosen? f record = none ↔ f.default = none ∧
      (Json.member? record f.name = none ∨ Json.member? record f.name = some .null) := by
  unfold chosen?
  cases Json.member? record f.name with
  | none => simp
  | some v => cases v <;> simp

/-- What the values of a valid record hold for a field: a value that its type accepts, or nothing if
the field is optional without default and the record gives it nothing. -/
theorem value_of_validate {key : String} (h : r.validate name record = .ok values)
    (hf : (r.allFields name).get? key = some f) :
    (∀ v, values.get? key = some v → r.check name key f.type v = .ok ()) ∧
      (values.get? key = none → f.required = false ∧ f.default = none ∧
        (Json.member? record key = none ∨ Json.member? record key = some .null)) := by
  have hwithin : r.validateWithin ((Json.object record).depth + r.budget + 1) name record =
    .ok values := h
  rw [validateWithin_eq_ok_iff] at hwithin
  obtain ⟨_, _, htakes, rfl⟩ := hwithin
  have htake := htakes (key, f) (Dict.mem_entries_of_get? hf)
  have hget : (valuesOf record (r.allFields name).entries .empty).get? key =
      chosen? { f with name := key } record := by
    rw [get?_valuesOf (r.allFields name).nodup]
    simp [show Dict.lookup? key (r.allFields name).entries = some f from hf]
  unfold Takes at htake
  rw [hget]
  constructor
  · intro v hv
    rw [hv] at htake
    exact check_of_checkValue (checkValue_imp (fun _ _ _ hs => hs) htake.1)
  · intro hnone
    rw [hnone] at htake
    exact ⟨htake, chosen?_eq_none_iff.1 hnone⟩

/-! ## Validation is stable -/

/-- A record passes the check of its structure. -/
def Valid (r : Registry) (name : String) (record : List (String × Json)) : Prop :=
  ∃ values, r.validate name record = .ok values

/-- The values of a dictionary are those of its entries as members. -/
theorem member?_entries (d : Dict Json) (key : String) :
    Json.member? d.entries key = d.get? key := by
  unfold Json.member? Dict.get?
  induction d.entries with
  | nil => rfl
  | cons e es ih =>
    obtain ⟨k, v⟩ := e
    by_cases hk : k = key
    · simp [Dict.lookup?, hk]
    · simpa [Dict.lookup?, List.find?_cons, hk] using ih

/-- Null is never what a field takes. -/
theorem chosen?_ne_null (h : Takes nested record name f) :
    chosen? { f with name } record ≠ some .null := by
  intro hc
  unfold Takes at h
  rw [hc] at h
  exact checkValue_null h.1

/-- A field is given the same value by a record and by the values that the record gives. -/
theorem chosen?_entries {fields : Dict Field} (hf : fields.get? name = some f)
    (htakes : Takes nested record name f) :
    chosen? { f with name } (valuesOf record fields.entries .empty).entries =
      chosen? { f with name } record := by
  have hget : (valuesOf record fields.entries .empty).get? name =
      chosen? { f with name } record := by
    rw [get?_valuesOf fields.nodup]
    simp [show Dict.lookup? name fields.entries = some f from hf]
  have hnull := chosen?_ne_null htakes
  cases hc : chosen? { f with name } record with
  | none =>
    have hdefault : f.default = none := by
      unfold chosen? at hc
      split at hc
      · exact hc
      · exact hc
      · cases hc
    rw [hc] at hget
    unfold chosen?
    simp only [member?_entries, hget, hdefault]
  | some v =>
    have hv : v ≠ .null := fun hv => hnull (hv ▸ hc)
    rw [hc] at hget
    unfold chosen?
    simp only [member?_entries, hget]

/-- The values that a record gives are the values that they give themselves. -/
theorem valuesOf_congr {record' : List (String × Json)} {fields : List (String × Field)}
    (h : ∀ e ∈ fields, chosen? { e.2 with name := e.1 } record =
      chosen? { e.2 with name := e.1 } record') :
    valuesOf record fields values = valuesOf record' fields values := by
  induction fields generalizing values with
  | nil => rfl
  | cons e fields ih =>
    rw [List.forall_mem_cons] at h
    simp only [valuesOf, List.foldl_cons, h.1] at ih ⊢
    exact ih h.2

/-- Validation is stable: the values that it returns are valid, with the same values. -/
theorem validate_entries (h : r.validate name record = .ok values) :
    r.validate name values.entries = .ok values := by
  have hwithin : r.validateWithin ((Json.object record).depth + r.budget + 1) name record =
    .ok values := h
  rw [validateWithin_eq_ok_iff] at hwithin
  obtain ⟨hcontains, _, htakes, rfl⟩ := hwithin
  have hchosen : ∀ e ∈ (r.allFields name).entries,
      chosen? { e.2 with name := e.1 } (valuesOf record (r.allFields name).entries .empty).entries =
        chosen? { e.2 with name := e.1 } record :=
    fun e he => chosen?_entries (Dict.get?_of_mem_entries he) (htakes e he)
  refine validate_of_validateWithin (validateWithin_eq_ok_iff.2
    ⟨hcontains, fun ⟨key, v⟩ he => ?_, fun e he => (takes_congr (hchosen e he)).2 (htakes e he),
      (valuesOf_congr hchosen).symm⟩)
  have hget := Dict.get?_of_mem_entries he
  rw [get?_valuesOf (r.allFields name).nodup] at hget
  unfold Dict.contains Dict.get?
  cases hl : Dict.lookup? key (r.allFields name).entries with
  | none => simp [hl] at hget
  | some f => rfl

/-- The values of a valid record are valid. -/
theorem valid_entries (h : r.validate name record = .ok values) : r.Valid name values.entries :=
  ⟨values, validate_entries h⟩

end Conduit.Registry
