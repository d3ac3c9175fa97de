import Conduit.Proofs.Concept.Sound
import Conduit.Proofs.Structure.Record

/-!
# What compatible concepts have in common

A valid record of a concept has what another concept, with which the first is compatible, requires
(`ConceptLibrary.isCompatible_sound`), up to what compatibility does not look at. It compares the
types of fields, and not whether the field of the first concept is required; so a record may lack a
field that is optional there (`ConceptLibrary.not_forall_compatible_provides`). And it accepts every
descendant of a structure, while a structure may declare the fields of its ancestors anew.
-/

namespace Conduit.ConceptLibrary

variable {l : ConceptLibrary} {t w : Concept} {name : String} {f : Field}

/-- A field that another structure requires has a partner of its name and type, if the structures
are compared by their fields. -/
theorem exists_partner {r : Registry} {tested wanted : String} (hr : r.Sound)
    (h : r.hasCompatibleFields tested wanted = true)
    (hf : (r.allFields wanted).get? name = some f) (hrequired : f.required = true) :
    ∃ g, (r.allFields tested).get? name = some g ∧ g.type = f.type := by
  unfold Registry.hasCompatibleFields at h
  split at h
  · cases h
  · simp only [Bool.and_eq_true, List.all_eq_true, List.mem_filter, and_imp] at h
    have hmatched := h.2 f (Dict.mem_values_of_get? hf) hrequired
    unfold Registry.matchedIn at hmatched
    rw [hr.allFields_named wanted name f hf, Option.any_eq_true] at hmatched
    obtain ⟨g, hg, htype⟩ := hmatched
    exact ⟨g, hg, beq_iff_eq.1 htype⟩

/-- A concept that is compatible with another one has a field for each that the other requires, of
the same type unless its structure descends from the other's. -/
theorem exists_field_of_isCompatible (hl : l.Sound) (ht : l.Has t) (hw : l.Has w)
    (htw : t.isWildcard = false) (hww : w.isWildcard = false)
    (h : l.isCompatible t w false = true)
    (hf : (l.registry.allFields w.shape).get? name = some f) (hrequired : f.required = true) :
    ∃ g, (l.registry.allFields t.shape).get? name = some g ∧
      (g.type = f.type ∨ t.shape ≠ w.shape ∧ l.registry.isSubtype t.shape w.shape = true) := by
  by_cases hshape : t.shape = w.shape
  · rw [hshape]
    exact ⟨f, hf, .inl rfl⟩
  have hname : t.name ≠ w.name := by
    intro hname
    unfold Has at ht hw
    rw [hname, hw] at ht
    exact hshape (congrArg Concept.shape (Option.some.inj ht).symm)
  have hrefines : t.refines ≠ some w.name := by
    intro hrefines
    obtain ⟨d, hd, hd'⟩ := hl.refined _ _ ht w.name hrefines
    rw [hw] at hd
    cases hd
    exact hshape hd'.symm
  unfold isCompatible at h
  simp only [htw, hww, Bool.or_self, Bool.false_eq_true, if_false, beq_iff_eq, hname, hshape,
    hrefines] at h
  split at h
  · rcases Bool.or_eq_true_iff.1 h with hsub | hfields
    · obtain ⟨g, hg⟩ := Dict.exists_of_contains
        (Registry.contains_allFields_of_isSubtype hsub (Dict.contains_of_get? hf))
      exact ⟨g, hg, .inr ⟨hshape, hsub⟩⟩
    · obtain ⟨g, hg, htype⟩ := exists_partner hl.registry hfields hf hrequired
      exact ⟨g, hg, .inl htype⟩
  · cases h

/-- A valid record of a concept that is compatible with another one has a value for each field that
the other requires, and the type of the field accepts it, with two exceptions: the first concept may
make the field optional without default, and then a record need not give it; and if its structure
descends from the other's, it may declare the field with another type, which accepts the value. -/
theorem isCompatible_sound (hl : l.Built) (ht : l.Has t) (hw : l.Has w)
    (htw : t.isWildcard = false) (hww : w.isWildcard = false)
    (h : l.isCompatible t w false = true) {record : List (String × Json)} {values : Dict Json}
    (hvalid : l.registry.validate t.shape record = .ok values)
    (hf : (l.registry.allFields w.shape).get? name = some f) (hrequired : f.required = true) :
    ∃ g, (l.registry.allFields t.shape).get? name = some g ∧
      (g.type = f.type ∨ t.shape ≠ w.shape ∧ l.registry.isSubtype t.shape w.shape = true) ∧
      (∀ value, values.get? name = some value →
        l.registry.check t.shape name g.type value = .ok ()) ∧
      (values.get? name = none → g.required = false ∧ g.default = none ∧
        (Json.member? record name = none ∨ Json.member? record name = some .null)) := by
  obtain ⟨g, hg, htype⟩ := exists_field_of_isCompatible hl.sound ht hw htw hww h hf hrequired
  exact ⟨g, hg, htype, Registry.value_of_validate hvalid hg⟩

/-! ## Members and guests -/

/-- A library with one more structure that is compiled from a source. -/
theorem Built.compile {l' : ConceptLibrary} (hl : l.Built) (name source : String)
    (h : ((l.registry.compile name source).toOption.bind l.registry.register?).map
      (fun registry => { l with registry }) = some l') : l'.Built := by
  obtain ⟨registry, hregistry, rfl⟩ := Option.map_eq_some_iff.1 h
  obtain ⟨s, hs, hregister⟩ := Option.bind_eq_some_iff.1 hregistry
  exact .compiled hl (eq_ok_of_toOption hs) hregister

/-- A library with one more concept. -/
theorem Built.define {l' : ConceptLibrary} (hl : l.Built) (domain code : String)
    (b : ConceptBlueprint)
    (h : ((l.make domain code b).toOption.bind fun made => (made.2.add made.1).toOption) =
      some l') : l'.Built := by
  obtain ⟨⟨c, l₁⟩, hmake, hadd⟩ := Option.bind_eq_some_iff.1 h
  exact .defined hl (eq_ok_of_toOption hmake) (eq_ok_of_toOption hadd)

/-- A required field without default and choices. -/
def plainField (name : String) (type : FieldType) : Field :=
  ⟨name, type, true, none, [], none⟩

/-- Members have a name, and are present or not. -/
def member : Structure where
  name := "Member"
  parent := some Structure.root
  fields := .ofList [("name", plainField "name" .text), ("present", plainField "present" .boolean)]
  native := false

/-- Guests need not have a name. -/
def guest : Structure where
  name := "Guest"
  parent := some Structure.root
  fields := .ofList [
    ("name", { plainField "name" .text with required := false }),
    ("present", plainField "present" .boolean)]
  native := false

/-- Masked members say whether they have a name. -/
def masked : Structure where
  name := "Masked"
  parent := some "Member"
  fields := .ofList [("name", plainField "name" .boolean)]
  native := false

/-- The concept of a structure. -/
def visitor (s : Structure) : Concept :=
  ⟨s.name, "club", "", s.name, none⟩

/-- A library with some structures, and with the concepts of some of them. -/
def clubOf (shapes visitors : List Structure) : ConceptLibrary where
  concepts := visitors.foldl (fun cs s => cs.insert (visitor s).name (visitor s)) initial.concepts
  registry := ⟨shapes.foldl (fun ss s => ss.insert s.name s) Registry.initial.structures⟩

/-- A library of members, guests and masked members. -/
def club : ConceptLibrary :=
  clubOf [member, guest, masked] [member, guest, masked]

theorem club_built : club.Built := by
  have h₁ : (clubOf [member] []).Built := Built.initial.compile "Member"
    "structure Member extends StructuredContent \x7b name: text present: boolean \x7d"
    (by decide +kernel)
  have h₂ : (clubOf [member, guest] []).Built := h₁.compile "Guest"
    "structure Guest extends StructuredContent \x7b name?: text present: boolean \x7d"
    (by decide +kernel)
  have h₃ : (clubOf [member, guest, masked] []).Built := h₂.compile "Masked"
    "structure Masked extends Member \x7b name: boolean \x7d" (by decide +kernel)
  have h₄ : (clubOf [member, guest, masked] [member]).Built := h₃.define "club" "Member"
    (.detailed { shape := some (.named "Member") }) (by decide +kernel)
  have h₅ : (clubOf [member, guest, masked] [member, guest]).Built := h₄.define "club" "Guest"
    (.detailed { shape := some (.named "Guest") }) (by decide +kernel)
  exact h₅.define "club" "Masked" (.detailed { shape := some (.named "Masked") })
    (by decide +kernel)

/-- Valid records of a concept have a value for each field that another concept requires without
default, and the type of the field there accepts it. -/
def Provides (l : ConceptLibrary) (t w : Concept) : Prop :=
  ∀ record values name f, l.registry.validate t.shape record = .ok values →
    (l.registry.allFields w.shape).get? name = some f → f.required = true → f.default = none →
      ∃ value, values.get? name = some value ∧
        l.registry.check w.shape name f.type value = .ok ()

/-- A valid record of a guest need have no name, and one of a masked member has a name that is no
text, but both concepts are compatible with that of members. -/
theorem compatible_not_provides : ∀ s ∈ [guest, masked],
    club.isCompatible (visitor s) (visitor member) false = true ∧
      ¬ club.Provides (visitor s) (visitor member) := by
  have hname : (club.registry.allFields "Member").get? "name" = some (plainField "name" .text) := by
    decide +kernel
  have hrecords : ∀ e ∈ [(guest, [("present", Json.bool true)]),
        (masked, [("name", .bool true), ("present", .bool true)])],
      club.isCompatible (visitor e.1) (visitor member) false = true ∧
        (club.registry.validate e.1.name e.2).toOption.any (fun values =>
          (values.get? "name").all fun value =>
            !(club.registry.check "Member" "name" .text value).isOk) = true := by
    decide +kernel
  intro s hs
  obtain ⟨record, hmem⟩ : ∃ record, (s, record) ∈ [(guest, [("present", Json.bool true)]),
      (masked, [("name", .bool true), ("present", .bool true)])] := by
    simp only [List.mem_cons, List.not_mem_nil, or_false] at hs
    rcases hs with rfl | rfl
    · exact ⟨_, List.mem_cons_self⟩
    · exact ⟨_, List.mem_cons_of_mem _ List.mem_cons_self⟩
  obtain ⟨hcompatible, hany⟩ := hrecords _ hmem
  refine ⟨hcompatible, fun hall => ?_⟩
  obtain ⟨values, hvalues, hbad⟩ := Option.any_eq_true _ _ |>.1 hany
  obtain ⟨value, hvalue, hcheck⟩ :=
    hall record values "name" _ (eq_ok_of_toOption hvalues) hname rfl rfl
  have hno := Option.all_eq_true .. |>.1 hbad value hvalue
  rw [show club.registry.check "Member" "name" .text value = .ok () from hcheck] at hno
  cases hno

/-- A record of a concept that is compatible with another one may lack what the other requires. -/
theorem not_forall_compatible_provides : ¬ ∀ (l : ConceptLibrary) (t w : Concept), l.Built →
    l.Has t → l.Has w → t.isWildcard = false → w.isWildcard = false →
      l.isCompatible t w false = true → l.Provides t w := by
  intro hall
  obtain ⟨hcompatible, hnot⟩ := compatible_not_provides guest List.mem_cons_self
  exact hnot (hall club (visitor guest) (visitor member) club_built (by unfold Has; decide)
    (by unfold Has; decide) (by decide) (by decide) hcompatible)

/-- The name of a guest that has one is a text. -/
theorem isCompatible_sound_guest :
    club.Built ∧ club.Has (visitor guest) ∧ club.Has (visitor member) ∧
    club.isCompatible (visitor guest) (visitor member) false = true ∧
    ∃ values, club.registry.validate "Guest" [("name", .string "Ann"), ("present", .bool true)] =
        .ok values ∧
      ∃ g, (club.registry.allFields "Guest").get? "name" = some g ∧
        (g.type = .text ∨ "Guest" ≠ "Member" ∧ club.registry.isSubtype "Guest" "Member" = true) ∧
        (∀ value, values.get? "name" = some value →
          club.registry.check "Guest" "name" g.type value = .ok ()) ∧
        (values.get? "name" = none → g.required = false ∧ g.default = none ∧
          (Json.member? [("name", Json.string "Ann"), ("present", .bool true)] "name" = none ∨
            Json.member? [("name", Json.string "Ann"), ("present", .bool true)] "name" =
              some .null)) := by
  have hguest : club.Has (visitor guest) := by
    unfold Has
    decide
  have hmember : club.Has (visitor member) := by
    unfold Has
    decide
  have hcompatible : club.isCompatible (visitor guest) (visitor member) false = true := by
    decide +kernel
  have hname : (club.registry.allFields "Member").get? "name" = some (plainField "name" .text) := by
    decide +kernel
  obtain ⟨values, hvalues⟩ := exists_of_isOk (show (club.registry.validate "Guest"
    [("name", .string "Ann"), ("present", .bool true)]).isOk = true by decide +kernel)
  exact ⟨club_built, hguest, hmember, hcompatible, values, hvalues,
    isCompatible_sound club_built hguest hmember (by decide) (by decide) hcompatible hvalues hname
      rfl⟩

end Conduit.ConceptLibrary
