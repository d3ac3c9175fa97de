import Conduit.Proofs.Structure.Filled

/-!
# Faults of records

What is wrong with a record whose members are fields of its structure is wrong with one of these
fields (`Registry.validate_error`): it is required and has no value, or its value is not of its type
or not among its choices. The value is the one that the record gives, else the default; a default
that passes the check of its field is never at fault, however deep the record is
(`Registry.checkValue_of_check`).
-/

namespace Conduit.Registry

variable {r : Registry} {name owner field key : String} {type : FieldType} {v : Json} {f : Field}
  {record : List (String × Json)} {values : Dict Json} {e : RecordError}
  {nested : String → List (String × Json) → Except RecordError Unit}

/-- The errors with which a value of a field is refused: it is not of its type, or there is a fault
in a record in it, at a field of that record. -/
inductive Refusal (owner field : String) : RecordError → Prop
  | type (type : FieldType) (v : Json) : Refusal owner field ⟨owner, field, .expectedType type v⟩
  | record (name : String) (v : Json) : Refusal owner field ⟨owner, field, .expectedRecordOf name v⟩
  | inside (e : RecordError) : Refusal owner field ⟨owner, s!"{field}.{e.field}", e.fault⟩

theorem checkValue_error (h : checkValue nested owner field type v = .error e) :
    Refusal owner field e := by
  induction type generalizing v e with
  | text | integer | boolean | number | anyList =>
    cases v with
    | number n => cases n <;> cases h <;> exact .type _ _
    | _ => cases h <;> exact .type _ _
  | date =>
    cases v with
    | string s =>
      rw [checkValue] at h
      split at h <;> cases h
      exact .type _ _
    | _ =>
      cases h
      exact .type _ _
  | listOf item ih =>
    cases v with
    | array items =>
      rw [checkValue] at h
      obtain ⟨w, _, hw⟩ := exists_of_forM_error h
      exact ih hw
    | _ =>
      cases h
      exact .type _ _
  | anyDict key ih =>
    cases v with
    | object members =>
      rw [checkValue] at h
      obtain ⟨w, _, hw⟩ := exists_of_forM_error h
      exact ih hw
    | _ =>
      cases h
      exact .type _ _
  | dictOf key value ihk ihv =>
    cases v with
    | object members =>
      rw [checkValue] at h
      obtain ⟨w, _, hw⟩ := exists_of_forM_error h
      rcases bind_eq_error_iff.1 hw with hkey | ⟨_, _, hvalue⟩
      · exact ihk hkey
      · exact ihv hvalue
    | _ =>
      cases h
      exact .type _ _
  | nested s =>
    cases v with
    | object members =>
      rw [checkValue, mapError_eq_error_iff] at h
      obtain ⟨e, _, rfl⟩ := h
      exact .inside e
    | _ =>
      cases h
      exact .record _ _

/-- A value that a field is given passes the check of a record if it passes its own, be it a member
of the record or the default of the field. -/
theorem checkValue_of_check (hf : (r.allFields name).get? key = some f)
    (hv : chosen? { f with name := key } record = some v)
    (hcheck : r.check name key f.type v = .ok ()) :
    checkValue (r.nestedWithin ((Json.object record).depth + r.budget)) name key f.type v =
      .ok () := by
  rcases mem_or_default_of_chosen? hv with hmem | hdefault
  · have hdepth : v.depth < (Json.object record).depth := Json.depth_lt_of_mem_members hmem
    have hspent := r.spent_le_budget (v.depth + r.budget + 1)
    exact checkValue_imp (fun s members hd hs => (r.enough _).within (by omega) hs) hcheck
  · have hspent := r.spent_le_budget (v.depth + r.budget + 1 + 1)
    exact checkValue_default (fun j _ => r.enough j) (mem_declared_of_allFields hf) hdefault hcheck
      (by omega)

/-- What can be wrong with the fields of a record. -/
inductive Unfilled (r : Registry) (name : String) (record : List (String × Json)) :
    RecordError → Prop
  | missing {key : String} {f : Field} (hf : (r.allFields name).get? key = some f)
    (hrequired : f.required = true) (hdefault : f.default = none)
    (hgiven : given? record key = none) : Unfilled r name record ⟨name, key, .missing⟩
  | value {key : String} {f : Field} {v : Json} {e : RecordError}
    (hf : (r.allFields name).get? key = some f) (hv : (given? record key).or f.default = some v)
    (hcheck : r.check name key f.type v ≠ .ok ()) (he : Refusal name key e) :
    Unfilled r name record e
  | choice {key : String} {f : Field} {v : Json} (hf : (r.allFields name).get? key = some f)
    (hv : (given? record key).or f.default = some v) (hchoice : f.admits v = false) :
    Unfilled r name record ⟨name, key, .notAChoice v f.choices⟩

/-- A field that is not added is not filled. -/
theorem unfilled_of_addField (hf : (r.allFields name).get? key = some f)
    (h : addField (r.nestedWithin ((Json.object record).depth + r.budget)) name record values key
      f = .error e) : Unfilled r name record e := by
  have hchosen : chosen? { f with name := key } record = (given? record key).or f.default :=
    chosen?_eq _ _
  unfold addField at h
  rw [hchosen] at h
  split at h
  · next hnone =>
    obtain ⟨hgiven, hdefault⟩ := Option.or_eq_none_iff.1 hnone
    split at h
    · next hrequired =>
      cases h
      exact .missing hf hrequired hdefault hgiven
    · cases h
  · next v hv =>
    rcases bind_eq_error_iff.1 h with hvalue | ⟨_, _, h⟩
    · refine .value hf hv (fun hcheck => ?_) (checkValue_error hvalue)
      rw [checkValue_of_check hf (hchosen.trans hv) hcheck] at hvalue
      cases hvalue
    · split at h
      · cases h
      · next hadmits =>
        cases h
        exact .choice hf hv (Bool.eq_false_iff.2 hadmits)

/-- A record of a registered structure whose members are fields is refused because of a field that
it does not fill. -/
theorem validate_error (hname : r.contains name = true)
    (hmembers : ∀ e ∈ record, (r.allFields name).contains e.1 = true)
    (h : r.validate name record = .error e) : Unfilled r name record e := by
  have hknown : record.find? (fun e => !(r.allFields name).contains e.1) = none := by
    simpa using hmembers
  rw [validate, validateWithin] at h
  simp only [hname, hknown, Bool.not_true, Bool.false_eq_true, if_false] at h
  obtain ⟨⟨key, f⟩, hf, values, hadd⟩ := exists_of_foldlM_error h
  exact unfilled_of_addField (Dict.get?_of_mem_entries hf) hadd

/-- In a registry of compiled structures no default is at fault. -/
theorem Grounded.default_check (hg : r.Grounded) (hf : (r.allFields name).get? key = some f)
    (hdefault : f.default = some v) : r.check name key f.type v = .ok () ∧ f.admits v = true := by
  have hanchored := hg.anchored hf
  obtain ⟨n, hn⟩ := hanchored.default
  exact ⟨check_of_checkValue (checkValue_imp (fun _ _ _ hs => hs) (hn v hdefault)),
    hanchored.admitted v hdefault⟩

end Conduit.Registry
