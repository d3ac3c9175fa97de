import Mathlib.Data.List.Induction
import Mathlib.Data.String.Basic
import Conduit.Json.Decode
import Conduit.Proofs.Dict

/-!
# Members of objects

The members of an object that is put together (`Json.ofMembers`) have distinct keys in their order,
and they are the entries of a dictionary if they come from one. So the readers of records find in
such an object what the dictionary holds (`Json.fields?_ofMembers`).
-/

namespace Conduit.Json

variable {members : List (String × Json)} {e : String × Json}

/-- What is found after a member is put in. -/
theorem member?_insertMember (key name : String) (v : Json) (members : List (String × Json)) :
    member? (insertMember key v members) name =
      if key = name then some v else member? members name := by
  induction members with
  | nil => by_cases h : key = name <;> simp [insertMember, member?, h]
  | cons e members ih =>
    obtain ⟨k, w⟩ := e
    unfold member? at ih ⊢
    rw [insertMember]
    split
    · by_cases h : key = name <;> simp [h]
    · split
      · next hk =>
        subst hk
        by_cases h : key = name <;> simp [h]
      · next hk =>
        by_cases h : k = name
        · subst h
          simp [hk]
        · simpa [List.find?_cons, h] using ih

/-- What is found among sorted members: of several with one key the last one. -/
theorem member?_sortMembers (members : List (String × Json)) (key : String) :
    member? (sortMembers members) key = (Dict.ofList members).get? key := by
  induction members using List.reverseRecOn with
  | nil => rfl
  | append_singleton members e ih =>
    unfold sortMembers Dict.ofList at ih ⊢
    rw [List.foldl_concat, List.foldl_concat, member?_insertMember, Dict.get?_insert, ih]

theorem mem_or_eq_of_mem_insertMember {key : String} {v : Json}
    (h : e ∈ insertMember key v members) : e ∈ members ∨ e = (key, v) := by
  induction members with
  | nil => exact .inr (List.mem_singleton.1 h)
  | cons x members ih =>
    rw [insertMember] at h
    split at h
    · rcases List.mem_cons.1 h with rfl | h
      · exact .inr rfl
      · exact .inl h
    · split at h
      · rcases List.mem_cons.1 h with rfl | h
        · exact .inr rfl
        · exact .inl (List.mem_cons_of_mem _ h)
      · rcases List.mem_cons.1 h with rfl | h
        · exact .inl List.mem_cons_self
        · exact (ih h).imp (List.mem_cons_of_mem _) id

/-- Sorting adds no member. -/
theorem mem_of_mem_sortMembers (h : e ∈ sortMembers members) : e ∈ members := by
  induction members using List.reverseRecOn with
  | nil => cases h
  | append_singleton members x ih =>
    unfold sortMembers at ih h
    rw [List.foldl_concat] at h
    rcases mem_or_eq_of_mem_insertMember h with h | rfl
    · exact List.mem_append_left _ (ih h)
    · exact List.mem_append_right _ (List.mem_singleton_self _)

/-- Putting in a member keeps keys in order. -/
theorem pairwise_insertMember {key : String} {v : Json}
    (h : (members.map Prod.fst).Pairwise (· < ·)) :
    ((insertMember key v members).map Prod.fst).Pairwise (· < ·) := by
  induction members with
  | nil => exact List.pairwise_singleton _ _
  | cons x members ih =>
    obtain ⟨k, w⟩ := x
    rw [List.map_cons, List.pairwise_cons] at h
    rw [insertMember]
    split
    · next hlt =>
      refine List.pairwise_cons.2 ⟨fun k' hk' => ?_, List.pairwise_cons.2 h⟩
      rcases List.mem_cons.1 hk' with rfl | hk'
      · exact hlt
      · exact hlt.trans (h.1 k' hk')
    · split
      · next hnot heq =>
        subst heq
        exact List.pairwise_cons.2 h
      · next hnot hne =>
        refine List.pairwise_cons.2 ⟨fun k' hk' => ?_, ih h.2⟩
        obtain ⟨e, he, rfl⟩ := List.mem_map.1 hk'
        rcases mem_or_eq_of_mem_insertMember he with he | rfl
        · exact h.1 _ (List.mem_map_of_mem he)
        · exact lt_of_le_of_ne (not_lt.1 hnot) (Ne.symm hne)

/-- Sorted members have their keys in order. -/
theorem pairwise_sortMembers (members : List (String × Json)) :
    ((sortMembers members).map Prod.fst).Pairwise (· < ·) := by
  induction members using List.reverseRecOn with
  | nil => exact .nil
  | append_singleton members x ih =>
    unfold sortMembers at ih ⊢
    rw [List.foldl_concat]
    exact pairwise_insertMember ih

/-- No key comes twice among sorted members. -/
theorem comeOnce_sortMembers (names : List String) (members : List (String × Json)) :
    Dict.comeOnce names (sortMembers members) = true :=
  Dict.comeOnce_of_nodup names ((pairwise_sortMembers members).imp ne_of_lt)

/-- The fields of a record that is put together from a dictionary are its values. -/
theorem fields?_ofMembers (names : List String) (d : Dict Json) :
    (ofMembers d.entries).fields? names = some d.get? := by
  rw [ofMembers, fields?, objectFields?, if_pos (comeOnce_sortMembers names d.entries)]
  congr 1
  funext key
  rw [member?_sortMembers, Dict.ofList_entries]

end Conduit.Json
