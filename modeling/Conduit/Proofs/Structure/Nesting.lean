import Mathlib.Logic.Relation
import Conduit.Proofs.Content.Placeholder
import Conduit.Proofs.Structure.Larger

/-!
# Acyclic registries

A registry is acyclic (`Registry.Acyclic`) if no structure comes to be nested in itself, along the
fields of structures, inherited ones as well. Then all work on its structures ends
(`Registry.Acyclic.ends`): the making of placeholders, and the check of every record, whatever is
filled in for it. Neither of the two bounds that the definitions have is ever what ends them.

Both bounds count what is below a structure (`Registry.weightBelow`), and this goes down from a
structure to those nested in it. For placeholders it counts the structures (`Registry.height`). For
records it adds up the shares of the fields (`Registry.cost`): the records in the default of a field
are of structures that the field mentions, so the field is not below them again.
-/

namespace Conduit.Registry

open Placeholder (Calls)
open Relation (ReflTransGen TransGen)

variable {r : Registry} {n k : Nat} {name inner key owner field : String} {f : Field} {v : Json}
  {type : FieldType} {record : List (String × Json)} {e : RecordError}
  {nested nested' : String → List (String × Json) → Except RecordError Unit}

/-- No structure has records of its own nested in its records, at any depth. -/
def Acyclic (r : Registry) : Prop :=
  ∀ name, ¬ TransGen (Calls r) name name

/-- The structures of a grounded registry are nested by rank. -/
theorem Grounded.acyclic (hg : r.Grounded) : r.Acyclic :=
  fun name hcycle => (WellFounded.transGen ⟨Placeholder.acc_calls hg⟩).asymmetric name name hcycle hcycle

/-! ## What is below a structure -/

open Classical in
/-- The weights of all that is found at a structure or at one that is nested in it. -/
noncomputable def weightBelow {α : Type} (r : Registry) (p : String → α → Prop) (w : α → Nat)
    (as : List α) (name : String) : Nat :=
  ((as.filter fun a => ∃ x, ReflTransGen (Calls r) x name ∧ p x a).map w).sum

/-- What is found at a structure, and neither at a nested one nor below it, weighs on the former
only. -/
theorem weightBelow_add_le {α : Type} {p : String → α → Prop} {w : α → Nat} {as : List α} {a : α}
    (hcalls : Calls r inner name) (ha : a ∈ as) (hfound : p name a)
    (hnot : ∀ x, ReflTransGen (Calls r) x inner → ¬ p x a) :
    r.weightBelow p w as inner + w a ≤ r.weightBelow p w as name := by
  refine sum_filter_add_le (fun b hb => ?_) ha ?_ ?_
  · simp only [decide_eq_true_eq] at hb ⊢
    obtain ⟨x, hx, hb⟩ := hb
    exact ⟨x, hx.tail hcalls, hb⟩
  · simp only [decide_eq_false_iff_not, not_exists, not_and]
    exact hnot
  · simp only [decide_eq_true_eq]
    exact ⟨name, .refl, hfound⟩

theorem weightBelow_le {α : Type} (p : String → α → Prop) (w : α → Nat) (as : List α) :
    r.weightBelow p w as name ≤ (as.map w).sum :=
  (List.filter_sublist.map w).sum_le_sum fun _ _ => Nat.zero_le _

/-- How many structures a structure and those nested in it are. -/
noncomputable def height (r : Registry) (name : String) : Nat :=
  r.weightBelow (fun x a => a = x) (fun _ => 1) r.structures.keys name

theorem height_le_size (r : Registry) (name : String) : r.height name ≤ r.structures.size := by
  refine (weightBelow_le _ _ _).trans ?_
  rw [List.map_const', List.sum_replicate, size_eq_length_keys]
  exact (Nat.mul_one _).le

/-- What has a structure nested in it is registered. -/
theorem contains_of_calls (h : Calls r inner name) : r.contains name = true := by
  obtain ⟨f, hf, _⟩ := h
  obtain ⟨key, hf⟩ := Dict.exists_get?_of_mem_values hf
  exact contains_of_allFields (Dict.contains_of_get? hf)

theorem Acyclic.height_lt (h : r.Acyclic) (hcalls : Calls r inner name) :
    r.height inner < r.height name := by
  have hmem : name ∈ r.structures.keys := Dict.mem_keys_iff.2 (contains_of_calls hcalls)
  refine weightBelow_add_le (p := fun x a => a = x) (w := fun _ => 1) hcalls hmem rfl
    fun x hx hname => ?_
  subst hname
  exact h inner (.head' hcalls hx)

/-- The shares of the fields of a structure and of those nested in it. -/
noncomputable def cost (r : Registry) (name : String) : Nat :=
  r.weightBelow (fun x f => f ∈ (r.allFields x).values) share r.declared name

theorem cost_le_budget (r : Registry) (name : String) : r.cost name ≤ r.budget := by
  rw [budget_eq]
  exact weightBelow_le _ _ _

/-- A field of a structure is not below the structures that it mentions. -/
theorem Acyclic.cost_add_le (h : r.Acyclic) (hf : (r.allFields name).get? key = some f)
    (hinner : inner ∈ f.type.mentions) : r.cost inner + share f ≤ r.cost name := by
  have hmem : f ∈ (r.allFields name).values := Dict.mem_values_of_get? hf
  refine weightBelow_add_le ⟨f, hmem, hinner⟩ (mem_declared_of_allFields hf) hmem fun x hx hx' => ?_
  exact h inner (.head' ⟨f, hx', hinner⟩ hx)

/-! ## Checks that end -/

/-- The check of a value is without end only if that of a record in it is, of a structure that the
type mentions. -/
theorem exists_of_checkValue_endless (h : checkValue nested owner field type v = .error e)
    (he : e.fault = .endless) : ∃ s ∈ type.mentions, ∃ members e',
      (Json.object members).depth ≤ v.depth ∧ nested s members = .error e' ∧
        e'.fault = .endless := by
  induction type generalizing v with
  | text | integer | boolean | number | anyList =>
    cases v with
    | number n => cases n <;> cases h <;> cases he
    | _ => cases h <;> cases he
  | date =>
    cases v with
    | string s =>
      rw [checkValue] at h
      split at h
      · cases h
      · cases h
        cases he
    | _ => cases h; cases he
  | listOf item ih =>
    cases v with
    | array items =>
      rw [checkValue] at h
      obtain ⟨w, hw, h⟩ := exists_of_forM_error h
      obtain ⟨s, hs, members, e', hd, hnested⟩ := ih h
      exact ⟨s, hs, members, e', hd.trans (Json.depth_lt_of_mem_items hw).le, hnested⟩
    | _ => cases h; cases he
  | anyDict key ih =>
    cases v with
    | object members =>
      rw [checkValue] at h
      obtain ⟨x, _, h⟩ := exists_of_forM_error h
      obtain ⟨s, hs, members, e', hd, hnested⟩ := ih h
      exact ⟨s, hs, members, e', hd.trans (Nat.zero_le _), hnested⟩
    | _ => cases h; cases he
  | dictOf key value ihk ihv =>
    cases v with
    | object members =>
      rw [checkValue] at h
      obtain ⟨x, hx, h⟩ := exists_of_forM_error h
      rcases bind_eq_error_iff.1 h with h | ⟨_, _, h⟩
      · obtain ⟨s, hs, members, e', hd, hnested⟩ := ihk h
        exact ⟨s, List.mem_append_left _ hs, members, e', hd.trans (Nat.zero_le _), hnested⟩
      · obtain ⟨s, hs, members, e', hd, hnested⟩ := ihv h
        exact ⟨s, List.mem_append_right _ hs, members, e',
          hd.trans (Json.depth_lt_of_mem_members hx).le, hnested⟩
    | _ => cases h; cases he
  | nested s =>
    cases v with
    | object members =>
      obtain ⟨e', hnested, rfl⟩ := mapError_eq_error_iff.1 h
      exact ⟨s, List.mem_singleton_self s, members, e', le_rfl, hnested, he⟩
    | _ => cases h; cases he

/-- The check of a value depends on the checks of records of the structures that its type mentions.
-/
theorem checkValue_congr (h : ∀ s ∈ type.mentions, ∀ members,
      (Json.object members).depth ≤ v.depth → nested s members = nested' s members) :
    checkValue nested owner field type v = checkValue nested' owner field type v := by
  induction type generalizing v with
  | text | integer | boolean | number | anyList | date =>
    cases v with
    | number n => cases n <;> rfl
    | _ => rfl
  | listOf item ih =>
    cases v with
    | array items =>
      refine forM_congr fun w hw => ih fun s hs members hd => h s hs members ?_
      exact hd.trans (Json.depth_lt_of_mem_items hw).le
    | _ => rfl
  | anyDict key ih =>
    cases v with
    | object members =>
      exact forM_congr fun x _ => ih fun s hs members hd => h s hs members (hd.trans (Nat.zero_le _))
    | _ => rfl
  | dictOf key value ihk ihv =>
    cases v with
    | object members =>
      refine forM_congr fun x hx => ?_
      dsimp only
      rw [ihk fun s hs members hd => ?key, ihv fun s hs members hd => ?value]
      case key => exact h s (List.mem_append_left _ hs) members (hd.trans (Nat.zero_le _))
      case value =>
        exact h s (List.mem_append_right _ hs) members
          (hd.trans (Json.depth_lt_of_mem_members hx).le)
    | _ => rfl
  | nested s =>
    cases v with
    | object members =>
      rw [checkValue, checkValue, h s (List.mem_singleton_self s) members le_rfl]
    | _ => rfl

/-- The records in the value of a field, be it given or the default, are less deep or have less
below them than the record of the field. -/
theorem Acyclic.depth_add_cost_lt (h : r.Acyclic) (hf : (r.allFields name).get? key = some f)
    (hv : chosen? { f with name := key } record = some v) {members : List (String × Json)}
    (hinner : inner ∈ f.type.mentions) (hd : (Json.object members).depth ≤ v.depth) :
    (Json.object members).depth + r.cost inner < (Json.object record).depth + r.cost name := by
  have hcost := h.cost_add_le hf hinner
  rcases mem_or_default_of_chosen? hv with hgiven | hdefault
  · have hlt := Json.depth_lt_of_mem_members hgiven
    omega
  · have hshare : share f = v.depth + 1 := by
      rw [share, show f.default = some v from hdefault]
      rfl
    omega

/-- The bound of the nesting is never reached: above the depth of a record and what is below its
structure it makes no difference. -/
theorem Acyclic.validateWithin_eq (h : r.Acyclic)
    (hn : (Json.object record).depth + r.cost name < n)
    (hk : (Json.object record).depth + r.cost name < k) :
    r.validateWithin n name record = r.validateWithin k name record := by
  induction n generalizing k name record with
  | zero => omega
  | succ n ih =>
    obtain ⟨k, rfl⟩ : ∃ j, k = j + 1 := ⟨k - 1, by omega⟩
    rw [validateWithin, validateWithin]
    split
    · rfl
    split
    · rfl
    refine foldlM_congr ?_
    rintro ⟨key, f⟩ he values
    have hf : (r.allFields name).get? key = some f := Dict.get?_of_mem_entries he
    dsimp only [addField]
    cases hv : chosen? { f with name := key } record with
    | none => rfl
    | some v =>
      dsimp only
      rw [checkValue_congr fun s hs members hd => ?_]
      have hlt := h.depth_add_cost_lt hf hv hs hd
      rw [ih (k := k) (by omega) (by omega)]

/-- A check that is without end at a depth meets the bound in the value of a field. -/
theorem exists_of_validateWithin_endless (h : r.validateWithin (n + 1) name record = .error e)
    (he : e.fault = .endless) : ∃ key f v, (r.allFields name).get? key = some f ∧
      chosen? { f with name := key } record = some v ∧ ∃ s ∈ f.type.mentions, ∃ members e',
        (Json.object members).depth ≤ v.depth ∧ r.validateWithin n s members = .error e' ∧
          e'.fault = .endless := by
  rw [validateWithin] at h
  split at h
  · cases h
    cases he
  split at h
  · cases h
    cases he
  obtain ⟨⟨key, f⟩, hmem, values, h⟩ := exists_of_foldlM_error h
  dsimp only [addField] at h
  cases hv : chosen? { f with name := key } record with
  | none =>
    rw [hv] at h
    dsimp only at h
    split at h
    · cases h
      cases he
    · cases h
  | some v =>
    rw [hv] at h
    dsimp only at h
    rcases bind_eq_error_iff.1 h with h | ⟨_, _, h⟩
    · obtain ⟨s, hs, members, e', hd, hnested, he'⟩ := exists_of_checkValue_endless h he
      exact ⟨key, f, v, Dict.get?_of_mem_entries hmem, hv, s, hs, members, e', hd,
        map_eq_error_iff.1 hnested, he'⟩
    · split at h
      · cases h
      · cases h
        cases he

/-- No check is without end. -/
theorem Acyclic.validateWithin_ne_endless (h : r.Acyclic)
    (hn : (Json.object record).depth + r.cost name < n)
    (herror : r.validateWithin n name record = .error e) : e.fault ≠ .endless := by
  induction n generalizing name record e with
  | zero => omega
  | succ n ih =>
    intro he
    obtain ⟨key, f, v, hf, hv, s, hs, members, e', hd, hnested, he'⟩ :=
      exists_of_validateWithin_endless herror he
    have hlt := h.depth_add_cost_lt hf hv hs hd
    exact ih (by omega) hnested he'

/-! ## All work ends -/

/-- Work on the structures of a registry ends. Structures are not nested without end; placeholders
are made of the values of their fields all the way down; and what is valid is found out above some
depth of nesting, and it is not that there is no end. -/
structure Ends (r : Registry) : Prop where
  nesting : ∀ name, Acc (Calls r) name
  placeholder : ∀ size name, Placeholder.record r size name =
    Placeholder.ofFields (Placeholder.record r size) size (r.allFields name).values
  validation : ∀ name record n, (Json.object record).depth + r.budget < n →
    r.validateWithin n name record = r.validate name record
  fault : ∀ name record e, r.validate name record = .error e → e.fault ≠ .endless

/-- In an acyclic registry all work ends. -/
theorem Acyclic.ends (h : r.Acyclic) : r.Ends where
  nesting name :=
    (Subrelation.wf (fun hcalls => h.height_lt hcalls) (measure r.height).wf).apply name
  placeholder := Placeholder.record_eq_of_measure (fun _ _ hcalls => h.height_lt hcalls)
    r.height_le_size
  validation name record n hn := by
    have hcost := r.cost_le_budget name
    exact h.validateWithin_eq (by omega) (by omega)
  fault name record e herror := by
    have hcost := r.cost_le_budget name
    exact h.validateWithin_ne_endless (by omega) herror

end Conduit.Registry
