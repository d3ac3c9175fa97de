import Conduit.Blueprint.Field
import Conduit.Proofs.Dict
import Conduit.Proofs.Json.Members

/-!
# What is written is read again

A reader may take one thing in many forms: a record as an object or as an array, a field that is
absent, null or written out. So what matters of a writer is that the reader takes the form that is
written for the same thing (`Json.Rereads`), for all that the reader can find. This goes from items
to lists and dictionaries, and from fields to records. A field that was absent is written out
(`Json.RereadsField`), so its default has to be read again too, and what an optional field holds
must not be written as null.
-/

namespace Conduit

variable {α β : Type}

namespace Dict

/-- The entries of a dictionary that is put together are among those that it is made of. -/
theorem mem_of_mem_ofList {es : List (String × α)} {e : String × α}
    (h : e ∈ (ofList es).entries) : e ∈ es := by
  induction es using List.reverseRecOn with
  | nil => cases h
  | append_singleton es x ih =>
    have hget := get?_of_mem_entries h
    unfold ofList at ih hget
    rw [List.foldl_concat, get?_insert] at hget
    split at hget
    · next hname =>
      have heq : e = x := Prod.ext hname.symm (Option.some.inj hget).symm
      exact List.mem_append_right _ (List.mem_singleton.2 heq)
    · exact List.mem_append_left _ (ih (mem_entries_of_get? hget))

end Dict

namespace Json

/-- What is written of a thing that a reader finds is read as the same thing. -/
def Rereads (read : Json → Option α) (write : α → Json) : Prop :=
  ∀ ⦃v a⦄, read v = some a → read (write a) = some a

/-- What is written into a field, of a thing that a reader finds in it, is read as the same
thing. -/
def RereadsField (read : Option Json → Option α) (write : α → Json) : Prop :=
  ∀ ⦃field a⦄, read field = some a → read (some (write a)) = some a

section Fields

variable {read : Json → Option α} {write : α → Json}

theorem Rereads.required (h : Rereads read write) : RereadsField (required read) write := by
  intro field a hread
  obtain ⟨v, -, hv⟩ := Option.bind_eq_some_iff.1 hread
  exact h hv

theorem Rereads.defaulted {default : α} (h : Rereads read write)
    (hdefault : read (write default) = some default) :
    RereadsField (defaulted default read) write := by
  intro field a hread
  cases field with
  | none =>
    cases hread
    exact hdefault
  | some v => exact h hread

/-- An optional field is read again if what it holds is not written as null. -/
theorem Rereads.optional (h : Rereads read write)
    (hnull : ∀ ⦃v a⦄, read v = some a → v ≠ .null → write a ≠ .null) :
    RereadsField (optional read) (fun a => a.elim .null write) := by
  intro field a hread
  unfold Json.optional at hread
  split at hread
  · cases hread
    rfl
  · cases hread
    rfl
  · next v hv =>
    obtain ⟨b, hb, rfl⟩ := Option.map_eq_some_iff.1 hread
    have hne : write b ≠ .null := hnull hb fun hv' => hv (hv' ▸ rfl)
    show Json.optional read (some (write b)) = _
    unfold Json.optional
    split
    · next hnone => cases hnone
    · next hsome => exact absurd (Option.some.inj hsome) hne
    · next w _ hsome =>
      cases hsome
      rw [h hb]
      rfl

end Fields

/-! ## Texts, truth values and counts -/

theorem rereads_text : Rereads text? .string := by
  intro v s _
  rfl

theorem rereads_bool : Rereads bool? .bool := by
  intro v b _
  rfl

/-- The writer of counts, as a function: to compare it with its body at an open count would have the
bounds of an integer counted out in unary. -/
theorem ofNat_eq : ofNat = fun n : Nat => (JsonInteger.ofInt? n).elim
    (.number (.real (Double.ofNat n))) fun i => .number (.integer i) := by
  delta ofNat
  funext n
  cases JsonInteger.ofInt? n <;> rfl

/-- A count that is an integer of 64 bits is written as that integer. -/
theorem ofNat_toNat {i : JsonInteger} (h : 0 ≤ i.val) :
    ofNat i.val.toNat = .number (.integer i) := by
  have hfits : JsonInteger.ofInt? i.val = some i := dif_pos ⟨i.lower, i.upper⟩
  simp only [ofNat_eq, Int.toNat_of_nonneg h, hfits, Option.elim_some]

theorem ofNat_ne_null {n : Nat} : ofNat n ≠ .null := by
  rw [ofNat_eq]
  cases h : JsonInteger.ofInt? n <;> simp [h]

theorem rereads_count : Rereads count? ofNat := by
  intro v n h
  cases v with
  | number m =>
    cases m with
    | real x => cases h
    | integer i =>
      simp only [count?, JsonNumber.toCount?, Option.ite_none_right_eq_some,
        Option.some.injEq] at h
      obtain ⟨hpos, rfl⟩ := h
      rw [ofNat_toNat hpos]
      exact if_pos hpos
  | _ => cases h

theorem rereads_optional_text : RereadsField (optional text?) ofText? :=
  rereads_text.optional fun _ _ _ _ h => by cases h

theorem rereads_optional_bool :
    RereadsField (optional bool?) (fun b => b.elim .null .bool) :=
  rereads_bool.optional fun _ _ _ _ h => by cases h

theorem rereads_optional_count :
    RereadsField (optional count?) (fun n => n.elim .null ofNat) :=
  rereads_count.optional fun _ _ _ _ => ofNat_ne_null

/-! ## Lists and dictionaries -/

section Collections

variable {read : Json → Option α} {write : α → Json}

/-- A traversal reads each of its members. -/
theorem exists_of_mem_mapM {f : α → Option β} {as : List α} {bs : List β} {b : β}
    (h : as.mapM f = some bs) (hb : b ∈ bs) : ∃ a ∈ as, f a = some b := by
  induction as generalizing bs with
  | nil =>
    cases h
    cases hb
  | cons a as ih =>
    simp only [List.mapM_cons, Option.bind_eq_bind, Option.bind_eq_some_iff, Option.pure_def,
      Option.some.injEq] at h
    obtain ⟨b', ha, bs', has, rfl⟩ := h
    rcases List.mem_cons.1 hb with rfl | hb
    · exact ⟨a, List.mem_cons_self, ha⟩
    · obtain ⟨a', hmem, ha'⟩ := ih has hb
      exact ⟨a', List.mem_cons_of_mem a hmem, ha'⟩

/-- A traversal of members that were each written by a function that the traversal inverts. -/
theorem mapM_map_of_forall {f : α → Option β} {g : β → α} {bs : List β}
    (h : ∀ b ∈ bs, f (g b) = some b) : (bs.map g).mapM f = some bs := by
  induction bs with
  | nil => rfl
  | cons b bs ih =>
    rw [List.forall_mem_cons] at h
    simp [h.1, ih h.2]

theorem Rereads.list (h : Rereads read write) :
    Rereads (list? read) (fun as => .array (as.map write)) := by
  intro v as hread
  cases v with
  | array items =>
    refine mapM_map_of_forall fun a ha => ?_
    obtain ⟨v, -, hv⟩ := exists_of_mem_mapM hread ha
    exact h hv
  | _ => cases hread

/-- The members that are written of a dictionary are its entries, so they come in its order and
none in the place of another. -/
theorem Rereads.dict (h : Rereads read write) : Rereads (dict? read) (ofDict write) := by
  intro v d hread
  cases v with
  | object members =>
    obtain ⟨es, hes, rfl⟩ := Option.map_eq_some_iff.1 hread
    rw [ofDict, dict?, members?, mapM_map_of_forall, Option.map_some, Dict.ofList_entries]
    intro e he
    obtain ⟨⟨k, v⟩, -, hv⟩ := exists_of_mem_mapM hes (Dict.mem_of_mem_ofList he)
    obtain ⟨a, ha, rfl⟩ := Option.map_eq_some_iff.1 hv
    exact Option.map_eq_some_iff.2 ⟨a, h ha, rfl⟩
  | _ => cases hread

end Collections

/-! ## Records -/

section Records

variable {names : List String} {members : List (String × Json)}

/-- A member of an object whose keys are distinct is found. -/
theorem member?_of_mem {key : String} {v : Json} (h : (members.map Prod.fst).Nodup)
    (hv : (key, v) ∈ members) : member? members key = some v := by
  induction members with
  | nil => cases hv
  | cons e members ih =>
    rw [List.map_cons, List.nodup_cons] at h
    unfold member? at ih ⊢
    rcases List.mem_cons.1 hv with rfl | hv
    · simp
    · have hne : e.1 ≠ key := fun heq => h.1 (heq ▸ List.mem_map_of_mem hv)
      rw [List.find?_cons_of_neg (by simpa using hne)]
      exact ih h.2 hv

/-- The fields of an object whose keys are distinct are its members. -/
theorem objectFields?_of_nodup (h : (members.map Prod.fst).Nodup) :
    objectFields? names members = some (member? members) :=
  if_pos (Dict.comeOnce_of_nodup names h)

/-- A record that is an object whose keys are distinct has its members as fields. -/
theorem fields?_object (h : (members.map Prod.fst).Nodup) :
    (object members).fields? names = some (member? members) :=
  objectFields?_of_nodup h

/-- Some fields hold every member of a list. -/
def Hold (get : String → Option Json) (members : List (String × Json)) : Prop :=
  ∀ e ∈ members, get e.1 = some e.2

theorem hold_cons {get : String → Option Json} {e : String × Json} :
    Hold get (e :: members) ↔ get e.1 = some e.2 ∧ Hold get members :=
  List.forall_mem_cons

theorem hold_append {get : String → Option Json} {members' : List (String × Json)} :
    Hold get (members ++ members') ↔ Hold get members ∧ Hold get members' :=
  List.forall_mem_append

theorem hold_member? (h : (members.map Prod.fst).Nodup) : Hold (member? members) members :=
  fun _ he => member?_of_mem h he

end Records

/-! ## Canonical values -/

/-- A member that comes before all others is put in first. -/
theorem insertMember_of_lt {key : String} {v : Json} {members : List (String × Json)}
    (h : ∀ k ∈ members.map Prod.fst, k < key) :
    insertMember key v members = members ++ [(key, v)] := by
  induction members with
  | nil => rfl
  | cons e members ih =>
    rw [List.map_cons, List.forall_mem_cons] at h
    have hne : key ≠ e.1 := (h.1).ne'
    rw [insertMember, if_neg (lt_asymm h.1), if_neg hne, ih h.2]
    rfl

/-- Sorting members that are in order changes nothing. -/
theorem sortMembers_of_pairwise {members : List (String × Json)}
    (h : (members.map Prod.fst).Pairwise (· < ·)) : sortMembers members = members := by
  induction members using List.reverseRecOn with
  | nil => rfl
  | append_singleton members e ih =>
    rw [List.map_append, List.pairwise_append] at h
    unfold sortMembers at ih ⊢
    rw [List.foldl_concat, ih h.1]
    exact insertMember_of_lt fun k hk => h.2.2 k hk e.1 (List.mem_singleton_self _)

theorem canonicalItems_eq_self {items : List Json} (h : ∀ v ∈ items, v.canonical = v) :
    canonicalItems items = items := by
  induction items with
  | nil => rfl
  | cons v items ih =>
    rw [List.forall_mem_cons] at h
    rw [canonicalItems, h.1, ih h.2]

theorem canonicalMembers_eq_self {members : List (String × Json)}
    (h : ∀ e ∈ members, e.2.canonical = e.2) : canonicalMembers members = members := by
  induction members with
  | nil => rfl
  | cons e members ih =>
    rw [List.forall_mem_cons] at h
    rw [canonicalMembers, h.1, ih h.2]

mutual

/-- The canonical form of a value is its own canonical form. -/
theorem canonical_canonical : (v : Json) → v.canonical.canonical = v.canonical
  | .null | .bool _ | .number _ | .string _ => rfl
  | .array items => by
    rw [canonical, canonical, canonicalItems_eq_self (canonical_of_mem_items items)]
  | .object members => by
    have hmembers : ∀ e ∈ sortMembers (canonicalMembers members), e.2.canonical = e.2 :=
      fun e he => canonical_of_mem_members members e (mem_of_mem_sortMembers he)
    rw [canonical, canonical, canonicalMembers_eq_self hmembers,
      sortMembers_of_pairwise (pairwise_sortMembers _)]

theorem canonical_of_mem_items : (items : List Json) →
    ∀ v ∈ canonicalItems items, v.canonical = v
  | [], _, h => nomatch h
  | w :: items, v, h => by
    rcases List.mem_cons.1 h with rfl | h
    · exact canonical_canonical w
    · exact canonical_of_mem_items items v h

theorem canonical_of_mem_members : (members : List (String × Json)) →
    ∀ e ∈ canonicalMembers members, e.2.canonical = e.2
  | [], _, h => nomatch h
  | (_, w) :: members, e, h => by
    rcases List.mem_cons.1 h with rfl | h
    · exact canonical_canonical w
    · exact canonical_of_mem_members members e h

end

/-- Nothing but null has null as its canonical form. -/
theorem canonical_ne_null {v : Json} (h : v ≠ .null) : v.canonical ≠ .null := by
  cases v with
  | null => exact absurd rfl h
  | _ => nofun

theorem rereads_canonical : Rereads (fun v => some v.canonical) id := by
  intro v w h
  cases h
  exact congrArg some (canonical_canonical v)

end Json

end Conduit
