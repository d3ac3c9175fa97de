import Conduit.Proofs.Content.RoundTrip

/-!
# Valid records are read

The fields of a built-in structure and the reader of its form of content describe the same records,
each on its own. `Registry.read_valid_iff` says where they agree: a valid record of a built-in
structure is read as content, unless it is that of a page in which the text and images have null for
images (`Registry.NullImages`). Validation leaves null out of the record itself, so that the images
of a text with images or of a prompt may be null; a nested record it only checks, and its reader,
which has a default for images that are not there, has none for null.

A reader is followed field by field. What a valid record holds for a field is one of the values of
its type (`Registry.Proper.value`), which goes on for the records in it, so that a reader that reads
every value of the type reads the field (`Registry.Proper.exists_required`,
`Registry.Proper.exists_optional`, `Registry.Proper.defaulted_iff`).
-/

namespace Conduit

/-- Items are read if each of them is. -/
theorem Json.exists_mapM {α : Type} {read : Json → Option α} {items : List Json}
    (h : ∀ v ∈ items, ∃ a, read v = some a) : ∃ as, items.mapM read = some as := by
  induction items with
  | nil => exact ⟨[], rfl⟩
  | cons v items ih =>
    rw [List.forall_mem_cons] at h
    obtain ⟨a, ha⟩ := h.1
    obtain ⟨as, has⟩ := ih h.2
    exact ⟨a :: as, by simp [ha, has]⟩

namespace Registry

variable {r : Registry} {name key : String} {type : FieldType} {required : Bool}
  {record members : List (String × Json)} {values : Dict Json} {v : Json}

/-! ## Proper values -/

/-- A field of a structure, without default, of a type. -/
def Declares (r : Registry) (name key : String) (type : FieldType) (required : Bool) : Prop :=
  ((r.allFields name).get? key).map (fun f => (f.type, f.required, f.default)) =
    some (type, required, none)

instance : Decidable (r.Declares name key type required) :=
  inferInstanceAs (Decidable (_ = _))

/-- A record in canonical form is valid. -/
structure Proper (r : Registry) (name : String) (record : List (String × Json)) : Prop where
  valid : r.Valid name record
  canonical : (Json.object record).canonical = .object record

/-- A value in canonical form is one of a type. -/
structure ProperValue (r : Registry) (type : FieldType) (v : Json) : Prop where
  checked : ∃ n, checkValue (r.nestedWithin n) "" "" type v = .ok ()
  canonical : v.canonical = v

/-- The built-in structures have the same fields in all registries. -/
theorem Compiled.declares (h : r.Compiled) (hname : Registry.initial.contains name = true)
    (hfield : Registry.initial.Declares name key type required) :
    r.Declares name key type required := by
  unfold Declares
  rw [(h.allFields_eq hname).2]
  exact hfield

namespace ProperValue

theorem ne_null (h : r.ProperValue type v) : v ≠ .null := by
  rintro rfl
  obtain ⟨n, hn⟩ := h.checked
  exact checkValue_null hn

theorem text (h : r.ProperValue .text v) : ∃ s, v = .string s := by
  obtain ⟨n, hn⟩ := h.checked
  cases v with
  | string s => exact ⟨s, rfl⟩
  | _ => cases hn

theorem nested (h : r.ProperValue (.nested name) v) :
    ∃ members, v = .object members ∧ r.Proper name members := by
  obtain ⟨n, hn⟩ := h.checked
  cases v with
  | object members =>
    rw [checkValue, mapError_eq_ok_iff, nestedWithin_eq_ok_iff] at hn
    obtain ⟨values, hvalues⟩ := hn
    exact ⟨members, rfl, ⟨values, validate_of_validateWithin hvalues⟩, h.canonical⟩
  | _ => cases hn

theorem items (h : r.ProperValue (.listOf type) v) :
    ∃ items, v = .array items ∧ ∀ w ∈ items, r.ProperValue type w := by
  obtain ⟨n, hn⟩ := h.checked
  cases v with
  | array items =>
    have hitems : Json.canonicalItems items = items := by
      have hcanonical := h.canonical
      rw [Json.canonical] at hcanonical
      exact Json.array.inj hcanonical
    rw [checkValue, forM_eq_ok_iff] at hn
    refine ⟨items, rfl, fun w hw => ⟨⟨n, hn w hw⟩, ?_⟩⟩
    exact Json.canonical_of_mem_items items w (hitems.symm ▸ hw)
  | _ => cases hn

end ProperValue

namespace Proper

/-- The members of a record in canonical form are sorted, and canonical themselves. -/
theorem members_eq (h : r.Proper name record) :
    record = Json.sortMembers (Json.canonicalMembers record) := by
  have hcanonical := h.canonical
  rw [Json.canonical] at hcanonical
  exact (Json.object.inj hcanonical).symm

theorem canonical_of_member? (h : r.Proper name record) (hv : Json.member? record key = some v) :
    v.canonical = v := by
  have hmem := Json.mem_of_member? hv
  rw [h.members_eq] at hmem
  exact Json.canonical_of_mem_members record (key, v) (Json.mem_of_mem_sortMembers hmem)

/-- The fields of a record are its members: none of them comes twice. -/
theorem fields?_eq (h : r.Proper name record) (names : List String) :
    (Json.object record).fields? names = some (Json.member? record) := by
  rw [Json.fields?, Json.objectFields?, if_pos]
  rw [h.members_eq]
  exact Json.comeOnce_sortMembers names _

/-- What a record holds for a field is null, or a value of its type; a required field has one. -/
theorem value (h : r.Proper name record) (hfield : r.Declares name key type required) :
    (∀ v, Json.member? record key = some v → v ≠ .null → r.ProperValue type v) ∧
      (required = true → ∃ v, Json.member? record key = some v ∧ r.ProperValue type v) := by
  obtain ⟨f, hf, heq⟩ := Option.map_eq_some_iff.1 hfield
  simp only [Prod.mk.injEq] at heq
  obtain ⟨rfl, rfl, hdefault⟩ := heq
  obtain ⟨values, hvalid⟩ := h.valid
  obtain ⟨_, _, htakes, _⟩ := validateWithin_eq_ok_iff.1 hvalid
  have htake := htakes (key, f) (Dict.mem_entries_of_get? hf)
  rw [Takes, chosen?_eq, hdefault, Option.or_none] at htake
  have hvalue : ∀ v, given? record key = some v → r.ProperValue f.type v := by
    intro v hv
    have hmember : Json.member? record key = some v := (Option.filter_eq_some_iff.1 hv).1
    rw [hv] at htake
    exact ⟨⟨_, checkValue_imp (fun _ _ _ hs => hs) htake.1⟩, h.canonical_of_member? hmember⟩
  refine ⟨fun v hv hnull => hvalue v (given?_of_member? hv hnull), fun hrequired => ?_⟩
  cases hgiven : given? record key with
  | none =>
    rw [hgiven, hrequired] at htake
    cases htake
  | some v => exact ⟨v, (Option.filter_eq_some_iff.1 hgiven).1, hvalue v hgiven⟩

/-! ## Readers of fields -/

variable {α : Type} {read : Json → Option α}

/-- A required field is read if all values of its type are. -/
theorem exists_required (h : r.Proper name record) (hfield : r.Declares name key type true)
    (hread : ∀ v, r.ProperValue type v → ∃ a, read v = some a) :
    ∃ a, Json.required read (Json.member? record key) = some a := by
  obtain ⟨v, hv, hvalue⟩ := (h.value hfield).2 rfl
  rw [hv]
  exact hread v hvalue

/-- An optional field is read if all values of its type are. -/
theorem exists_optional (h : r.Proper name record) (hfield : r.Declares name key type required)
    (hread : ∀ v, r.ProperValue type v → ∃ a, read v = some a) :
    ∃ a, Json.optional read (Json.member? record key) = some a := by
  cases hv : Json.member? record key with
  | none => exact ⟨none, rfl⟩
  | some v =>
    by_cases hnull : v = .null
    · rw [hnull]
      exact ⟨none, rfl⟩
    · obtain ⟨a, ha⟩ := hread v ((h.value hfield).1 v hv hnull)
      refine ⟨some a, ?_⟩
      unfold Json.optional
      split
      · next heq => cases heq
      · next heq => exact absurd (Option.some.inj heq) hnull
      · next heq =>
        cases heq
        rw [ha]
        rfl

/-- A field with a default for its absence is read, if all values of its type are, unless it is
null. -/
theorem defaulted_iff (h : r.Proper name record) (hfield : r.Declares name key type required)
    (hread : ∀ v, r.ProperValue type v → ∃ a, read v = some a) (hnull : read .null = none)
    (default : α) :
    (∃ a, Json.defaulted default read (Json.member? record key) = some a) ↔
      Json.member? record key ≠ some .null := by
  cases hv : Json.member? record key with
  | none => exact ⟨fun _ => nofun, fun _ => ⟨default, rfl⟩⟩
  | some v =>
    constructor
    · rintro ⟨a, ha⟩ heq
      cases heq
      rw [Json.defaulted, hnull] at ha
      cases ha
    · intro hne
      exact hread v ((h.value hfield).1 v hv fun heq => hne (congrArg some heq))

end Proper

/-- A list is read if all its items are. -/
theorem ProperValue.exists_list {α : Type} {read : Json → Option α}
    (h : r.ProperValue (.listOf type) v)
    (hread : ∀ w, r.ProperValue type w → ∃ a, read w = some a) :
    ∃ as, Json.list? read v = some as := by
  obtain ⟨items, rfl, hitems⟩ := h.items
  exact Json.exists_mapM fun w hw => hread w (hitems w hw)

/-! ## Readers of forms -/

/-- A text is read. -/
theorem ProperValue.exists_text (v : Json) (h : r.ProperValue .text v) :
    ∃ s, Json.text? v = some s := by
  obtain ⟨s, rfl⟩ := h.text
  exact ⟨s, rfl⟩

/-- The record of an image is read. -/
theorem Compiled.exists_imageOf (h : r.Compiled)
    (hproper : r.Proper Structure.imageContent members) :
    ∃ i, Image.ofJson? (.object members) = some i := by
  have hurl : r.Declares Structure.imageContent "url" .text true :=
    h.declares (by decide) (by decide)
  have hcaption : r.Declares Structure.imageContent "caption" .text false :=
    h.declares (by decide) (by decide)
  obtain ⟨url, hurl⟩ := hproper.exists_required hurl ProperValue.exists_text
  obtain ⟨caption, hcaption⟩ := hproper.exists_optional hcaption ProperValue.exists_text
  refine ⟨⟨url, caption⟩, ?_⟩
  simp only [Image.ofJson?, hproper.fields?_eq, Option.bind_eq_bind, Option.bind_some, hurl,
    hcaption]
  rfl

/-- An image is read. -/
theorem Compiled.exists_image (h : r.Compiled) (v : Json)
    (hv : r.ProperValue (.nested Structure.imageContent) v) : ∃ i, Image.ofJson? v = some i := by
  obtain ⟨members, rfl, hproper⟩ := hv.nested
  exact h.exists_imageOf hproper

/-- A list of images is read. -/
theorem Compiled.exists_images (h : r.Compiled) (v : Json)
    (hv : r.ProperValue (.listOf (.nested Structure.imageContent)) v) :
    ∃ is, Json.list? Image.ofJson? v = some is :=
  hv.exists_list h.exists_image

/-- A text with images is read unless it has null for images. -/
theorem Compiled.textAndImages_iff (h : r.Compiled)
    (hproper : r.Proper Structure.textAndImagesContent members) :
    (∃ t, TextAndImages.ofJson? (.object members) = some t) ↔
      Json.member? members "images" ≠ some .null := by
  have htext : r.Declares Structure.textAndImagesContent "text" .text false :=
    h.declares (by decide) (by decide)
  have himages : r.Declares Structure.textAndImagesContent "images"
    (.listOf (.nested Structure.imageContent)) false := h.declares (by decide) (by decide)
  obtain ⟨text, htext⟩ := hproper.exists_optional htext ProperValue.exists_text
  rw [← hproper.defaulted_iff himages h.exists_images rfl []]
  simp only [TextAndImages.ofJson?, hproper.fields?_eq, Option.bind_eq_bind, Option.bind_some,
    htext, Option.bind_eq_some_iff]
  constructor
  · rintro ⟨_, images, himages, _⟩
    exact ⟨images, himages⟩
  · rintro ⟨images, himages⟩
    exact ⟨_, images, himages, rfl⟩

/-- A prompt is read unless it has null for images. -/
theorem Compiled.llmPrompt_iff (h : r.Compiled)
    (hproper : r.Proper Structure.llmPromptContent members) :
    (∃ p, LlmPrompt.ofJson? (.object members) = some p) ↔
      Json.member? members "user_images" ≠ some .null := by
  have hsystem : r.Declares Structure.llmPromptContent "system_text" .text false :=
    h.declares (by decide) (by decide)
  have huser : r.Declares Structure.llmPromptContent "user_text" .text false :=
    h.declares (by decide) (by decide)
  have himages : r.Declares Structure.llmPromptContent "user_images"
    (.listOf (.nested Structure.imageContent)) false := h.declares (by decide) (by decide)
  obtain ⟨system, hsystem⟩ := hproper.exists_optional hsystem ProperValue.exists_text
  obtain ⟨user, huser⟩ := hproper.exists_optional huser ProperValue.exists_text
  rw [← hproper.defaulted_iff himages h.exists_images rfl []]
  simp only [LlmPrompt.ofJson?, hproper.fields?_eq, Option.bind_eq_bind, Option.bind_some,
    hsystem, huser, Option.bind_eq_some_iff]
  constructor
  · rintro ⟨_, images, himages, _⟩
    exact ⟨images, himages⟩
  · rintro ⟨images, himages⟩
    exact ⟨_, images, himages, rfl⟩

/-- The record is that of a page in which the text and images have null for images. -/
def NullImages (name : String) (record : List (String × Json)) : Prop :=
  name = Structure.pageContent ∧ ∃ members,
    Json.member? record "text_and_images" = some (.object members) ∧
      Json.member? members "images" = some .null

/-- A page is read unless its text and images have null for images. -/
theorem Compiled.page_iff (h : r.Compiled) (hproper : r.Proper Structure.pageContent record) :
    (∃ p, Page.ofJson? (.object record) = some p) ↔ ¬ NullImages Structure.pageContent record := by
  have hbody : r.Declares Structure.pageContent "text_and_images"
    (.nested Structure.textAndImagesContent) true := h.declares (by decide) (by decide)
  have hview : r.Declares Structure.pageContent "page_view"
    (.nested Structure.imageContent) false := h.declares (by decide) (by decide)
  obtain ⟨view, hview⟩ := hproper.exists_optional hview h.exists_image
  obtain ⟨v, hv, hvalue⟩ := (hproper.value hbody).2 rfl
  obtain ⟨members, rfl, hmembers⟩ := hvalue.nested
  have hnull : NullImages Structure.pageContent record ↔
      Json.member? members "images" = some .null := by
    constructor
    · rintro ⟨_, members', hmember, hnull⟩
      cases hv.symm.trans hmember
      exact hnull
    · exact fun hnull => ⟨rfl, members, hv, hnull⟩
  rw [hnull, ← ne_eq, ← h.textAndImages_iff hmembers]
  simp only [Page.ofJson?, hproper.fields?_eq, Option.bind_eq_bind, Option.bind_some, hv, hview,
    Json.required, Option.bind_eq_some_iff]
  constructor
  · rintro ⟨_, t, ht, _⟩
    exact ⟨t, ht⟩
  · rintro ⟨t, ht⟩
    exact ⟨_, t, ht, rfl⟩

/-! ## Valid records -/

/-- The fields of built-in structures have no defaults. -/
theorem Compiled.default_eq_none (h : r.Compiled) (hname : Registry.initial.contains name = true)
    {f : Field} (hf : (r.allFields name).get? key = some f) : f.default = none := by
  have hall : ∀ name ∈ Registry.initial.structures.keys,
      ∀ f ∈ (Registry.initial.allFields name).values, f.default = none := by
    decide
  rw [(h.allFields_eq hname).2] at hf
  exact hall name (Dict.mem_keys_iff.2 hname) f (Dict.mem_values_of_get? hf)

/-- A field without default has the value that is given. -/
theorem member?_values (hvalid : r.validate name record = .ok values) {f : Field}
    (hf : (r.allFields name).get? key = some f) (hdefault : f.default = none) :
    Json.member? (Json.sortMembers values.entries) key = given? record key := by
  rw [Json.member?_sortMembers, Dict.ofList_entries, get?_of_validate hvalid hf, hdefault,
    Option.or_none]

/-- The values of a valid record in canonical form are such a record, if no defaults are filled
in. -/
theorem Proper.filled (h : r.Proper name record) (hvalid : r.validate name record = .ok values)
    (hdefaults : ∀ key f, (r.allFields name).get? key = some f → f.default = none) :
    r.Proper name (Json.sortMembers values.entries) := by
  obtain ⟨hentries, _, hagain⟩ := validate_filled hvalid
  have hmembers : ∀ e ∈ Json.sortMembers values.entries, e.2.canonical = e.2 := by
    intro e he
    have hmem := Json.mem_of_mem_sortMembers he
    rw [hentries] at hmem
    obtain ⟨⟨key, f⟩, hf, hvalue⟩ := List.mem_filterMap.1 hmem
    rw [hdefaults key f (Dict.get?_of_mem_entries hf), Option.or_none] at hvalue
    obtain ⟨v, hv, rfl⟩ := Option.map_eq_some_iff.1 hvalue
    exact h.canonical_of_member? (Option.filter_eq_some_iff.1 hv).1
  refine ⟨⟨values, hagain⟩, ?_⟩
  rw [Json.canonical, Json.canonicalMembers_eq_self hmembers,
    Json.sortMembers_of_pairwise (Json.pairwise_sortMembers _)]

/-- The values of a valid record of a built-in structure are content of its form, unless they are
those of a page with null for images. -/
theorem Compiled.ofFields?_iff (h : r.Compiled)
    (hproper : r.Proper name (Json.sortMembers values.entries))
    (hnull : ∀ e ∈ values.entries, e.2 ≠ .null) :
    (∃ c, Content.ofFields? name values = some c) ↔
      ¬ NullImages name (Json.sortMembers values.entries) := by
  have hgiven : ∀ key, Json.member? (Json.sortMembers values.entries) key ≠ some .null :=
    fun key hmember =>
      hnull (key, .null) (Json.mem_of_mem_sortMembers (Json.mem_of_member? hmember)) rfl
  by_cases hpage : name = Structure.pageContent
  · subst hpage
    have hform : Content.ofFields? Structure.pageContent values =
      (Page.ofJson? (.ofMembers values.entries)).map .page := rfl
    simp only [hform, ← h.page_iff hproper, Option.map_eq_some_iff, Json.ofMembers]
    constructor
    · rintro ⟨_, p, hp, _⟩
      exact ⟨p, hp⟩
    · rintro ⟨p, hp⟩
      exact ⟨_, p, hp, rfl⟩
  · refine ⟨fun _ hnullImages => hpage hnullImages.1, fun _ => ?_⟩
    by_cases himage : name = Structure.imageContent
    · subst himage
      obtain ⟨i, hi⟩ := h.exists_imageOf hproper
      exact ⟨.image i, congrArg (Option.map _) hi⟩
    by_cases hboth : name = Structure.textAndImagesContent
    · subst hboth
      obtain ⟨t, ht⟩ := (h.textAndImages_iff hproper).2 (hgiven "images")
      exact ⟨.textAndImages t, congrArg (Option.map _) ht⟩
    by_cases hprompt : name = Structure.llmPromptContent
    · subst hprompt
      obtain ⟨p, hp⟩ := (h.llmPrompt_iff hproper).2 (hgiven "user_images")
      exact ⟨.llmPrompt p, congrArg (Option.map _) hp⟩
    simp only [Content.ofFields?, if_neg hpage, if_neg himage, if_neg hboth, if_neg hprompt]
    split_ifs <;> exact ⟨_, rfl⟩

/-- Validation leaves the images of a page as they are. -/
theorem Compiled.nullImages_values_iff (h : r.Compiled)
    (hname : Registry.initial.contains name = true) (hvalid : r.validate name record = .ok values) :
    NullImages name (Json.sortMembers values.entries) ↔ NullImages name record := by
  refine and_congr_right fun hpage => exists_congr fun members => and_congr_left fun _ => ?_
  subst hpage
  have hbody : r.Declares Structure.pageContent "text_and_images"
    (.nested Structure.textAndImagesContent) true := h.declares hname (by decide)
  obtain ⟨f, hf, _⟩ := Option.map_eq_some_iff.1 hbody
  rw [member?_values hvalid hf (h.default_eq_none hname hf), given?, Option.filter_eq_some_iff]
  exact and_iff_left (by simp)

/-- A valid record whose values are no content of its form is not read, because of a list that is
null. -/
theorem read_object_error (hdynamic : name ≠ Structure.dynamicContent)
    (hvalid : r.validate name record = .ok values) (hform : Content.ofFields? name values = none) :
    r.read name (.object record) = .error ⟨name, "", .nullList⟩ := by
  have hbare : Content.bare? name (.object record) = none := if_neg hdynamic
  simp only [Registry.read, hbare, hvalid, ok_bind, hform]
  rfl

/-- A valid record of a built-in structure is read as content, unless it is that of a page in which
the text and images have null for images; the error is then that of a list that is null. -/
theorem read_valid_iff (h : r.Compiled) (hname : Registry.initial.contains name = true)
    (hcanonical : (Json.object record).canonical = .object record)
    (hvalid : r.validate name record = .ok values) :
    ((∃ c, r.read name (.object record) = .ok c) ↔ ¬ NullImages name record) ∧
      ∀ e, r.read name (.object record) = .error e → e = ⟨name, "", .nullList⟩ := by
  have hproper : r.Proper name record := ⟨⟨values, hvalid⟩, hcanonical⟩
  have hforms := h.ofFields?_iff (hproper.filled hvalid fun _ _ => h.default_eq_none hname)
    (validate_filled hvalid).2.1
  rw [h.nullImages_values_iff hname hvalid] at hforms
  by_cases hdynamic : name = Structure.dynamicContent
  · have hread : r.read name (.object record) = .ok (.dynamic (.object record)) := by
      subst hdynamic
      rfl
    have hpage : ¬ NullImages name record := by
      rw [hdynamic]
      exact fun hpage => absurd hpage.1 (by decide)
    rw [hread]
    refine ⟨iff_of_true ⟨_, rfl⟩ hpage, fun e he => ?_⟩
    cases he
  · rw [← hforms]
    cases hform : Content.ofFields? name values with
    | some c =>
      rw [read_object hdynamic hvalid hform]
      refine ⟨iff_of_true ⟨c, rfl⟩ ⟨c, rfl⟩, fun e he => ?_⟩
      cases he
    | none =>
      rw [read_object_error hdynamic hvalid hform]
      refine ⟨iff_of_false ?_ ?_, fun e he => (Except.error.inj he).symm⟩
      all_goals
        rintro ⟨c, hc⟩
        cases hc

/-- A page without text, with an image that has no caption: what is missing is null. -/
def wordlessPage : List (String × Json) :=
  [("page_view", .null),
    ("text_and_images", .object [
      ("images", .array [.object [("caption", .null), ("url", .string "a.png")]]),
      ("text", .null)])]

/-- A page without images, which are null. -/
def blankPage : List (String × Json) :=
  [("text_and_images", .object [("images", .null)])]

theorem validate_wordlessPage : Registry.initial.validate Structure.pageContent wordlessPage =
    .ok (.ofList (wordlessPage.drop 1)) :=
  eq_ok_of_toOption (by decide +kernel)

theorem validate_blankPage :
    Registry.initial.validate Structure.pageContent blankPage = .ok (.ofList blankPage) :=
  eq_ok_of_toOption (by decide +kernel)

theorem nullImages_blankPage : NullImages Structure.pageContent blankPage :=
  ⟨rfl, [("images", .null)], by decide, by decide⟩

theorem read_valid_iff_pages :
    (∃ c, Registry.initial.read Structure.pageContent (.object wordlessPage) = .ok c) ∧
      ¬ ∃ c, Registry.initial.read Structure.pageContent (.object blankPage) = .ok c := by
  have hwordless := read_valid_iff .initial (by decide) (by decide) validate_wordlessPage
  have hblank := read_valid_iff .initial (by decide) (by decide) validate_blankPage
  refine ⟨hwordless.1.2 ?_, fun hread => hblank.1.1 hread nullImages_blankPage⟩
  rintro ⟨_, members, hmembers, hnull⟩
  cases hmembers
  exact absurd hnull (by decide)

/-- A valid page is not read: its images are null. -/
theorem not_forall_read_valid :
    ¬ ∀ name record values, Registry.initial.contains name = true →
      (Json.object record).canonical = .object record →
      Registry.initial.validate name record = .ok values →
      ∃ c, Registry.initial.read name (.object record) = .ok c := by
  intro hall
  obtain ⟨c, hc⟩ := hall Structure.pageContent blankPage _ (by decide) (by decide)
    validate_blankPage
  have hnone : (Registry.initial.read Structure.pageContent (.object blankPage)).toOption.isNone :=
    by decide +kernel
  rw [hc] at hnone
  cases hnone

end Registry

end Conduit
