import Mathlib.Data.List.Induction
import Conduit.Proofs.Dict
import Conduit.Proofs.Except
import Conduit.Structure.Registry

/-!
# Ancestors and inherited fields

The ancestry of a structure goes as far as parents are declared (`Registry.parent_mem_ancestry`), so
that a structure has a field under every name under which one of its ancestors has one
(`Registry.contains_allFields_of_isSubtype`), in every registry: parents may be unknown and may be
in a circle. The bound of the recursion is never what ends it, for it counts the structures that the
ancestry may still come to.

Structures that are added change neither the ancestors nor the fields of those that were there, if
the parents of these are known (`Registry.Closed`): `Registry.ancestry_within`,
`Registry.allFields_within`.
-/

namespace Conduit.Registry

variable {r r' : Registry} {name x y key : String} {seen : List String} {n k : Nat} {f : Field}

/-! ## Ancestors -/

/-- How many structures have not been seen. -/
def unseen (r : Registry) (seen : List String) : Nat :=
  (r.structures.keys.filter fun name => name ∉ seen).length

theorem unseen_le_size (r : Registry) (seen : List String) : r.unseen seen ≤ r.structures.size := by
  unfold unseen Dict.size
  have hlen : r.structures.keys.length = r.structures.entries.length := List.length_map _
  rw [← hlen]
  exact List.length_filter_le _ _

/-- A structure that is seen is one less that has not been. -/
theorem unseen_cons_lt (hx : r.contains x = true) (hseen : x ∉ seen) :
    r.unseen (x :: seen) < r.unseen seen :=
  Dict.length_keys_filter_cons_lt hx hseen

/-- What declares a parent is there. -/
theorem contains_of_parent? (h : r.parent? x = some y) : r.contains x = true := by
  unfold parent? at h
  obtain ⟨s, hs, _⟩ := Option.bind_eq_some_iff.1 h
  exact Dict.contains_of_get? hs

/-- A name that has not been seen is in its own ancestry. -/
theorem mem_ancestryFrom_self (hx : x ∉ seen) : x ∈ r.ancestryFrom (n + 1) seen x := by
  rw [ancestryFrom, if_neg hx]
  exact List.mem_cons_self

/-- A parent of a name in an ancestry is in it as well or has been seen, if the ancestry may be as
long as there are structures that have not been seen. -/
theorem parent_mem_ancestryFrom (hn : r.unseen seen < n) (hx : x ∈ r.ancestryFrom n seen name)
    (hy : r.parent? x = some y) : y ∈ r.ancestryFrom n seen name ∨ y ∈ seen := by
  induction n generalizing seen name with
  | zero => omega
  | succ n ih =>
    rw [ancestryFrom] at hx ⊢
    by_cases hseen : name ∈ seen
    · rw [if_pos hseen] at hx
      exact absurd hx List.not_mem_nil
    rw [if_neg hseen] at hx ⊢
    cases hparent : r.parent? name with
    | none =>
      rw [hparent] at hx
      rw [List.mem_singleton.1 hx, hparent] at hy
      cases hy
    | some parent =>
      rw [hparent] at hx
      have hlt := unseen_cons_lt (contains_of_parent? hparent) hseen
      rcases List.mem_cons.1 hx with rfl | hx
      · rw [hparent] at hy
        cases hy
        by_cases hmem : y ∈ x :: seen
        · rcases List.mem_cons.1 hmem with rfl | hmem
          · exact .inl List.mem_cons_self
          · exact .inr hmem
        · obtain ⟨n, rfl⟩ : ∃ i, n = i + 1 := ⟨n - 1, by omega⟩
          exact .inl (List.mem_cons_of_mem _ (mem_ancestryFrom_self hmem))
      · rcases ih (by omega) hx with hmem | hmem
        · exact .inl (List.mem_cons_of_mem _ hmem)
        · rcases List.mem_cons.1 hmem with rfl | hmem
          · exact .inl List.mem_cons_self
          · exact .inr hmem

/-- An ancestry goes as far as parents are declared. -/
theorem parent_mem_ancestry (hx : x ∈ r.ancestry name) (hy : r.parent? x = some y) :
    y ∈ r.ancestry name := by
  have hn : r.unseen [] < r.structures.size + 1 := Nat.lt_succ_of_le (r.unseen_le_size [])
  exact (parent_mem_ancestryFrom hn hx hy).resolve_right List.not_mem_nil

/-- What holds of a structure, and of the parent of whatever it holds of, holds of all ancestors. -/
theorem forall_mem_ancestryFrom {P : String → Prop} (hx : P x)
    (hparent : ∀ y parent, P y → r.parent? y = some parent → P parent) :
    ∀ y ∈ r.ancestryFrom n seen x, P y := by
  induction n generalizing seen x with
  | zero => exact fun y hy => absurd hy List.not_mem_nil
  | succ n ih =>
    intro y hy
    rw [ancestryFrom] at hy
    split at hy
    · exact absurd hy List.not_mem_nil
    · rcases List.mem_cons.1 hy with rfl | hy
      · exact hx
      · split at hy
        · exact absurd hy List.not_mem_nil
        · next parent hdeclared => exact ih (hparent x parent hx hdeclared) y hy

/-- The ancestors of an ancestor are ancestors. -/
theorem ancestryFrom_subset (hx : x ∈ r.ancestry name) :
    ∀ y ∈ r.ancestryFrom n seen x, y ∈ r.ancestry name :=
  forall_mem_ancestryFrom hx fun _ _ hy hdeclared => parent_mem_ancestry hy hdeclared

/-! ## Fields -/

/-- The fields of some structures and of one more, whose fields override theirs. -/
theorem fieldsOf_concat (r : Registry) (names : List String) (name : String) :
    r.fieldsOf (names ++ [name]) =
      (r.get? name).elim (r.fieldsOf names) fun s => (r.fieldsOf names).union s.fields := by
  simp only [fieldsOf, List.foldl_concat]
  cases r.get? name <;> rfl

/-- The nearest structure that declares a field decides on it. -/
theorem get?_fieldsOf_cons (r : Registry) (name : String) (names : List String) (key : String) :
    (r.fieldsOf (name :: names).reverse).get? key =
      ((r.get? name).bind fun s => s.fields.get? key).or ((r.fieldsOf names.reverse).get? key) := by
  rw [List.reverse_cons, fieldsOf_concat]
  cases r.get? name with
  | none => rfl
  | some s => exact Dict.get?_union_eq _ _ _

/-- The fields of some structures have the names under which one of them declares a field. -/
theorem contains_fieldsOf {names : List String} :
    (r.fieldsOf names).contains key = true ↔
      ∃ name ∈ names, ∃ s, r.get? name = some s ∧ s.fields.contains key = true := by
  induction names using List.reverseRecOn with
  | nil => simp [fieldsOf]
  | append_singleton names name ih =>
    rw [fieldsOf_concat]
    cases hs : r.get? name with
    | none => simp [hs, ih, or_and_right, exists_or]
    | some s => simp [hs, ih, or_and_right, exists_or]

/-- A structure has a field under every name under which one of its ancestors has one. -/
theorem contains_allFields_of_isSubtype (h : r.isSubtype x y = true)
    (hkey : (r.allFields y).contains key = true) : (r.allFields x).contains key = true := by
  rw [allFields, contains_fieldsOf] at hkey ⊢
  obtain ⟨z, hz, hs⟩ := hkey
  have hmem : z ∈ r.ancestry x :=
    ancestryFrom_subset (List.contains_iff_mem.1 h) z (List.mem_reverse.1 hz)
  exact ⟨z, List.mem_reverse.2 hmem, hs⟩

/-- A field of some structures is declared by one of them. -/
theorem exists_of_get?_fieldsOf {names : List String}
    (h : (r.fieldsOf names).get? key = some f) :
    ∃ name ∈ names, ∃ s, r.get? name = some s ∧ s.fields.get? key = some f := by
  induction names using List.reverseRecOn with
  | nil => cases h
  | append_singleton names name ih =>
    have hearlier : (r.fieldsOf names).get? key = some f →
        ∃ z ∈ names ++ [name], ∃ s, r.get? z = some s ∧ s.fields.get? key = some f := by
      intro h
      obtain ⟨z, hz, hs⟩ := ih h
      exact ⟨z, List.mem_append_left _ hz, hs⟩
    rw [fieldsOf_concat] at h
    cases hs : r.get? name with
    | none =>
      rw [hs] at h
      exact hearlier h
    | some s =>
      rw [hs] at h
      rcases Dict.get?_union h with h | hmem
      · exact hearlier h
      · exact ⟨name, by simp, s, hs, Dict.get?_of_mem_entries hmem⟩

/-! ## Structures that are added -/

/-- Every structure of the first registry is in the second. -/
def Within (r r' : Registry) : Prop :=
  ∀ name s, r.get? name = some s → r'.get? name = some s

/-- The parents of the structures are there. -/
def Closed (r : Registry) : Prop :=
  ∀ name parent, r.parent? name = some parent → r.contains parent = true

theorem Within.contains (hw : r.Within r') (h : r.contains x = true) : r'.contains x = true := by
  obtain ⟨s, hs⟩ := Dict.exists_of_contains h
  exact Dict.contains_of_get? (hw x s hs)

theorem Within.get?_eq (hw : r.Within r') (h : r.contains x = true) : r'.get? x = r.get? x := by
  obtain ⟨s, hs⟩ := Dict.exists_of_contains h
  exact (hw x s hs).trans hs.symm

/-- The ancestors of a structure depend on what they declare themselves. -/
theorem ancestryFrom_congr (hget : ∀ y ∈ r.ancestryFrom n seen x, r'.get? y = r.get? y)
    (hn : r.unseen seen < n) (hk : r'.unseen seen < k) :
    r'.ancestryFrom k seen x = r.ancestryFrom n seen x := by
  induction n generalizing k seen x with
  | zero => omega
  | succ n ih =>
    obtain ⟨k, rfl⟩ : ∃ i, k = i + 1 := ⟨k - 1, by omega⟩
    rw [ancestryFrom] at hget ⊢
    rw [ancestryFrom]
    by_cases hseen : x ∈ seen
    · rw [if_pos hseen, if_pos hseen]
    rw [if_neg hseen] at hget ⊢
    rw [if_neg hseen]
    have hparent : r'.parent? x = r.parent? x := by
      unfold parent?
      rw [hget x List.mem_cons_self]
    rw [hparent]
    cases hp : r.parent? x with
    | none => rfl
    | some parent =>
      rw [hp] at hget hparent
      have hlt := unseen_cons_lt (contains_of_parent? hp) hseen
      have hlt' := unseen_cons_lt (contains_of_parent? hparent) hseen
      exact congrArg _ (ih (fun y hy => hget y (List.mem_cons_of_mem _ hy)) (by omega) (by omega))

theorem ancestry_congr (hget : ∀ y ∈ r.ancestry x, r'.get? y = r.get? y) :
    r'.ancestry x = r.ancestry x :=
  ancestryFrom_congr hget (Nat.lt_succ_of_le (r.unseen_le_size []))
    (Nat.lt_succ_of_le (r'.unseen_le_size []))

/-- The fields of a structure depend on what its ancestors declare. -/
theorem allFields_congr (hget : ∀ y ∈ r.ancestry x, r'.get? y = r.get? y) :
    r'.allFields x = r.allFields x := by
  unfold allFields fieldsOf
  rw [ancestry_congr hget]
  refine List.foldl_ext _ _ _ fun fields y hy => ?_
  rw [hget y (List.mem_reverse.1 hy)]

/-- The ancestors of what is there are there. -/
theorem contains_of_mem_ancestry (hc : r.Closed) (hx : r.contains x = true) :
    ∀ y ∈ r.ancestryFrom n seen x, r.contains y = true :=
  forall_mem_ancestryFrom hx fun y parent _ hdeclared => hc y parent hdeclared

/-- Adding structures changes no ancestry of those that were there. -/
theorem ancestry_within (hc : r.Closed) (hw : r.Within r') (hx : r.contains x = true) :
    r'.ancestry x = r.ancestry x :=
  ancestry_congr fun y hy => hw.get?_eq (contains_of_mem_ancestry hc hx y hy)

/-- Adding structures changes no fields of those that were there. -/
theorem allFields_within (hc : r.Closed) (hw : r.Within r') (hx : r.contains x = true) :
    r'.allFields x = r.allFields x :=
  allFields_congr fun y hy => hw.get?_eq (contains_of_mem_ancestry hc hx y hy)

/-- A structure that is added changes no field that was found, also where it is a parent that was
missing: its own fields are hidden by those of nearer structures. -/
theorem get?_fieldsOf_within (hw : r.Within r') (hk : r'.unseen seen < k)
    (h : (r.fieldsOf (r.ancestryFrom n seen x).reverse).get? key = some f) :
    (r'.fieldsOf (r'.ancestryFrom k seen x).reverse).get? key = some f := by
  induction n generalizing k seen x with
  | zero => cases h
  | succ n ih =>
    obtain ⟨k, rfl⟩ : ∃ i, k = i + 1 := ⟨k - 1, by omega⟩
    rw [ancestryFrom] at h ⊢
    by_cases hseen : x ∈ seen
    · rw [if_pos hseen] at h
      cases h
    rw [if_neg hseen, get?_fieldsOf_cons] at h ⊢
    cases hs : r.get? x with
    | none =>
      rw [parent?, hs] at h
      cases h
    | some s =>
      have hparent : r'.parent? x = r.parent? x := by
        rw [parent?, parent?, hw x s hs, hs]
      rw [hs] at h
      rw [hw x s hs, hparent]
      cases hown : s.fields.get? key with
      | some g =>
        rw [Option.bind_some, hown] at h ⊢
        exact h
      | none =>
        rw [Option.bind_some, hown, Option.none_or] at h ⊢
        cases hp : r.parent? x with
        | none =>
          rw [hp] at h
          cases h
        | some parent =>
          rw [hp] at h hparent
          have hlt := unseen_cons_lt (contains_of_parent? hparent) hseen
          exact ih (by omega) h

theorem get?_allFields_within (hw : r.Within r') (h : (r.allFields x).get? key = some f) :
    (r'.allFields x).get? key = some f :=
  get?_fieldsOf_within hw (Nat.lt_succ_of_le (r'.unseen_le_size [])) h

/-- What is compared by structures that were there compares alike when structures are added. -/
theorem isSubtype_within (hc : r.Closed) (hw : r.Within r') (hx : r.contains x = true) :
    r'.isSubtype x y = r.isSubtype x y := by
  unfold isSubtype
  rw [ancestry_within hc hw hx]

theorem hasCompatibleFields_within (hc : r.Closed) (hw : r.Within r') (hx : r.contains x = true)
    (hy : r.contains y = true) : r'.hasCompatibleFields x y = r.hasCompatibleFields x y := by
  unfold hasCompatibleFields isNative
  rw [hw.get?_eq hx, hw.get?_eq hy, allFields_within hc hw hx, allFields_within hc hw hy]

end Conduit.Registry
