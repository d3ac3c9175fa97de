import Conduit.Proofs.Dict
import Conduit.Proofs.Structure.Grounded
import Conduit.Proofs.Structure.Rooted

/-!
# Larger registries

What a registry accepts, every larger one accepts: a subtype is one there, fields that go together
do, and a source that is compiled is compiled to the same structure (`Registry.compile_within`). The
structures that are compared may be unknown to the smaller registry, where they have no fields and
no ancestors but themselves.
-/

namespace Conduit.Registry

variable {r r' : Registry} {name x y key owner field source : String} {s : Structure} {f : Field}

/-- The parents of a rooted registry are there. -/
theorem Rooted.closed (h : r.Rooted) : r.Closed := by
  intro name parent hdeclared
  obtain ⟨root, hroot, hnone, _⟩ := h.root
  obtain ⟨s, hs, hparent⟩ := Option.bind_eq_some_iff.1 hdeclared
  rcases h.parent name s hs with rfl | hextends
  · rw [hroot, Option.some.injEq] at hs
    rw [← hs, hnone] at hparent
    cases hparent
  · rw [hextends, Option.some.injEq] at hparent
    rw [← hparent]
    exact Dict.contains_of_get? hroot

/-! ## Comparisons -/

/-- What is unknown has no ancestors. -/
theorem ancestry_of_unknown (h : r.contains x = false) : r.ancestry x = [x] := by
  have hnone : r.parent? x = none := by
    cases hparent : r.parent? x with
    | none => rfl
    | some parent =>
      rw [contains_of_parent? hparent] at h
      cases h
  unfold ancestry
  rw [ancestryFrom, if_neg List.not_mem_nil, hnone]

/-- What has a field is known. -/
theorem contains_of_allFields (h : (r.allFields x).contains key = true) :
    r.contains x = true := by
  cases hx : r.contains x with
  | true => rfl
  | false =>
    rw [allFields, ancestry_of_unknown hx, List.reverse_singleton, contains_fieldsOf] at h
    obtain ⟨y, hy, s, hs, _⟩ := h
    rw [List.mem_singleton.1 hy] at hs
    exact hx.symm.trans (Dict.contains_of_get? hs)

theorem contains_allFields_within (hc : r.Closed) (hw : r.Within r')
    (h : (r.allFields x).contains key = true) : (r'.allFields x).contains key = true := by
  rw [allFields_within hc hw (contains_of_allFields h)]
  exact h

/-- A subtype is one in a larger registry. -/
theorem isSubtype_of_within (hc : r.Closed) (hw : r.Within r') (h : r.isSubtype x y = true) :
    r'.isSubtype x y = true := by
  cases hx : r.contains x with
  | true =>
    rw [isSubtype_within hc hw hx]
    exact h
  | false =>
    rw [isSubtype, ancestry_of_unknown hx, List.contains_iff_mem, List.mem_singleton] at h
    rw [isSubtype, List.contains_iff_mem, h]
    exact mem_ancestryFrom_self List.not_mem_nil

/-- Structures that go together by their fields are known. -/
theorem contains_of_hasCompatibleFields (h : r.hasCompatibleFields x y = true) :
    r.contains x = true ∧ r.contains y = true := by
  unfold hasCompatibleFields at h
  split at h
  · cases h
  · obtain ⟨f, hf, hmatched⟩ := List.any_eq_true.1 (Bool.and_eq_true_iff.1 h).1
    obtain ⟨g, hg, _⟩ := Option.any_eq_true _ _ |>.1 hmatched
    obtain ⟨key, hkey⟩ := Dict.exists_get?_of_mem_values hf
    exact ⟨contains_of_allFields (Dict.contains_of_get? hg),
      contains_of_allFields (Dict.contains_of_get? hkey)⟩

/-- Structures that go together by their fields do so in a larger registry. -/
theorem hasCompatibleFields_of_within (hc : r.Closed) (hw : r.Within r')
    (h : r.hasCompatibleFields x y = true) : r'.hasCompatibleFields x y = true := by
  obtain ⟨hx, hy⟩ := contains_of_hasCompatibleFields h
  rw [hasCompatibleFields_within hc hw hx hy]
  exact h

/-! ## Sources -/

/-- A value that is accepted is accepted in a larger registry. -/
theorem check_within (hc : r.Closed) (hw : r.Within r') {type : FieldType} {v : Json}
    (h : r.check owner field type v = .ok ()) : r'.check owner field type v = .ok () := by
  refine check_of_checkValue (n := v.depth + r.budget + 1)
    (checkValue_imp (fun s members _ hs => ?_) h)
  obtain ⟨values, hs⟩ := nestedWithin_eq_ok_iff.1 hs
  exact nestedWithin_eq_ok_iff.2 ⟨values, validateWithin_within hc hw hs⟩

/-- A field that passes its check passes it in a larger registry. -/
theorem checkField_within (hc : r.Closed) (hw : r.Within r')
    (h : r.checkField owner f = .ok ()) : r'.checkField owner f = .ok () := by
  obtain ⟨hmentions, hchoices, hdefault⟩ := checkField_eq_ok_iff.1 h
  exact checkField_eq_ok_iff.2 ⟨fun x hx => ⟨(hmentions x hx).1, hw.contains (hmentions x hx).2⟩,
    hchoices, fun v hv => ⟨check_within hc hw (hdefault v hv).1, (hdefault v hv).2⟩⟩

/-- A parent that may be extended may be extended in a larger registry. -/
theorem checkParent_within (hroot : r.contains Structure.root = true) (hc : r.Closed)
    (hw : r.Within r') (h : r.checkParent s = .ok ()) : r'.checkParent s = .ok () := by
  obtain ⟨parent, hparent, hcontent⟩ := checkParent_ok h
  unfold checkParent
  rw [hparent]
  rcases hcontent with rfl | hcontent
  · simp
  · have hcontent' : r'.isContent parent = true := by
      unfold isContent at hcontent ⊢
      rw [ancestry_within hc hw (contains_of_isContent hroot hcontent)]
      exact hcontent
    simp [hcontent']

/-- A structure is accepted if it is the only one of its source, has the expected name and passes
the checks of its parent and its fields. -/
theorem accept_eq_ok_iff {ss : List Structure} : r.accept name ss = .ok s ↔
    ss = [s] ∧ s.name = name ∧ r.checkParent s = .ok () ∧
      ∀ f ∈ s.fields.values, r.checkField s.name f = .ok () := by
  refine ⟨accept_ok, ?_⟩
  rintro ⟨rfl, rfl, hparent, hfields⟩
  simp only [accept, bne_self_eq_false, Bool.false_eq_true, if_false, bind_eq_ok_iff]
  exact ⟨(), hparent, (), forM_eq_ok_iff.2 hfields, rfl⟩

/-- A source that is compiled is compiled to the same structure in a larger registry. -/
theorem compile_within (hroot : r.contains Structure.root = true) (hc : r.Closed)
    (hw : r.Within r') (h : r.compile name source = .ok s) : r'.compile name source = .ok s := by
  simp only [compile, bind_eq_ok_iff, mapError_eq_ok_iff] at h ⊢
  obtain ⟨declared, hdeclared, haccept⟩ := h
  obtain ⟨hone, hname, hparent, hfields⟩ := accept_eq_ok_iff.1 haccept
  exact ⟨declared, hdeclared, accept_eq_ok_iff.2 ⟨hone, hname,
    checkParent_within hroot hc hw hparent,
    fun f hf => checkField_within hc hw (hfields f hf)⟩⟩

/-- A structure whose name is new in both registries can be registered in both. -/
theorem Within.register? (hw : r.Within r') (hnew : r'.contains s.name = false) {r₁ : Registry}
    (h : r.register? s = some r₁) : ∃ r₁', r'.register? s = some r₁' ∧ r₁.Within r₁' := by
  refine ⟨⟨r'.structures.insert s.name s⟩, by simp [Registry.register?, hnew], ?_⟩
  intro key t ht
  unfold Registry.register? at h
  split at h
  · cases h
  · cases h
    exact Dict.get?_insert_of_imp hw ht

end Conduit.Registry
