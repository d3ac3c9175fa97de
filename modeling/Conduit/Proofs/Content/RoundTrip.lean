import Conduit.Proofs.Blueprint.Rereads
import Conduit.Proofs.Content.Conforms
import Conduit.Proofs.Structure.Filled
import Conduit.Proofs.Structure.Grounded

/-!
# Content is read back

Content that was read for a structure is read for it again from both of its views as JSON, as a
record and as a value, and is the same content (`Registry.read_views`). A record of another
structure is valid as it is written, since validation is stable. The built-in structures have forms
of content of their own, which leave out what is missing and write every list of images; such a
record has exactly the fields of its structure, so that validation returns its members unchanged
(`Registry.Exact`), and the readers of the forms find in them what was written
(`Json.fields?_ofMembers?`).
-/

namespace Conduit

/-! ## Objects that have some of their members -/

namespace Json

/-- The members that are there. -/
def present (fields : List (String × Option Json)) : List (String × Json) :=
  fields.filterMap fun (k, v) => v.map (k, ·)

variable {fields : List (String × Option Json)}

/-- The members that are there come in the order of their keys. -/
theorem keys_present_sublist (fields : List (String × Option Json)) :
    ((present fields).map Prod.fst).Sublist (fields.map Prod.fst) := by
  induction fields with
  | nil => exact .slnil
  | cons e fields ih =>
    obtain ⟨k, v⟩ := e
    cases v with
    | none => exact ih.cons k
    | some v => exact ih.cons_cons k

/-- A member is found if it is there. -/
theorem lookup?_present (hn : (fields.map Prod.fst).Nodup) (key : String) :
    Dict.lookup? key (present fields) = (Dict.lookup? key fields).join := by
  induction fields with
  | nil => rfl
  | cons e fields ih =>
    obtain ⟨k, v⟩ := e
    rw [List.map_cons, List.nodup_cons] at hn
    have hrest := ih hn.2
    by_cases hk : k = key
    · subst hk
      cases v with
      | some v => simp [present, Dict.lookup?]
      | none =>
        have habsent : Dict.lookup? k fields = none := by
          rw [← Option.not_isSome_iff_eq_none, ← Dict.mem_map_fst_iff_lookup?]
          exact hn.1
        rw [habsent] at hrest
        simpa [present, Dict.lookup?] using hrest
    · cases v <;> simpa [present, Dict.lookup?, hk] using hrest

/-- The members that are there, as a dictionary. -/
def presentDict (fields : List (String × Option Json)) (hn : (fields.map Prod.fst).Nodup) :
    Dict Json :=
  ⟨present fields, (keys_present_sublist fields).nodup hn⟩

/-- The fields of an object that has some of its members are these. -/
theorem fields?_ofMembers? (hn : (fields.map Prod.fst).Nodup) (names : List String) :
    (ofMembers? fields).fields? names = some fun key => (Dict.lookup? key fields).join := by
  have hfound := fields?_ofMembers names (presentDict fields hn)
  refine hfound.trans (congrArg some (funext fun key => ?_))
  exact lookup?_present hn key

end Json

/-! ## Records that have the fields of their structure -/

namespace Registry

variable {r : Registry} {name owner field : String} {n : Nat}
  {fields : List (String × Option Json)} {c : Content}

/-- A record is valid with its members as they are. -/
def Exact (r : Registry) (n : Nat) (name : String) (fields : List (String × Option Json)) : Prop :=
  ∃ values, r.validateWithin n name (Json.sortMembers (Json.present fields)) = .ok values ∧
    values.entries = Json.present fields

/-- What is there for a field is a value that the field takes, and nothing is missing. -/
def Fits (r : Registry) (n : Nat) (e : String × Field) (m : String × Option Json) : Prop :=
  m.1 = e.1 ∧ e.2.default = none ∧ e.2.choices = [] ∧
    m.2.elim (e.2.required = false) fun v =>
      checkValue (r.nestedWithin n) "" "" e.2.type v = .ok ()

/-- What is taken of two lists is the same if it is the same of members that match. -/
theorem filterMap_of_forall₂ {α β γ : Type} {R : α → β → Prop} {f : α → Option γ} {g : β → Option γ}
    {as : List α} {bs : List β} (h : List.Forall₂ R as bs)
    (hfg : ∀ a b, b ∈ bs → R a b → f a = g b) : as.filterMap f = bs.filterMap g := by
  induction h with
  | nil => rfl
  | @cons a b as bs hab _ ih =>
    have hrest := ih fun a b hb => hfg a b (List.mem_cons_of_mem _ hb)
    rw [List.filterMap_cons, List.filterMap_cons, hfg a b List.mem_cons_self hab, hrest]

/-- The keys are the names of the fields. -/
theorem map_fst_of_fits {es : List (String × Field)} (h : List.Forall₂ (r.Fits n) es fields) :
    fields.map Prod.fst = es.map Prod.fst := by
  induction h with
  | nil => rfl
  | cons he _ ih => rw [List.map_cons, List.map_cons, ih, he.1]

/-- A member that fits a field is not null. -/
theorem Fits.ne_null {e : String × Field} {key : String} {v : Json}
    (h : r.Fits n e (key, some v)) : v ≠ .null := by
  rintro rfl
  exact checkValue_null h.2.2.2

/-- What is given under a name is what is there. -/
theorem given?_of_fits {es : List (String × Field)} (hn : (fields.map Prod.fst).Nodup)
    (h : List.Forall₂ (r.Fits n) es fields) (key : String) :
    given? (Json.sortMembers (Json.present fields)) key = (Dict.lookup? key fields).join := by
  have hfound : Json.member? (Json.sortMembers (Json.present fields)) key =
      (Dict.lookup? key fields).join := by
    have hdict := Dict.ofList_entries (Json.presentDict fields hn)
    rw [Json.member?_sortMembers]
    exact (congrArg (Dict.get? · key) hdict).trans (Json.lookup?_present hn key)
  rw [given?, hfound]
  cases hv : (Dict.lookup? key fields).join with
  | none => rfl
  | some v =>
    have hmem : (key, some v) ∈ fields :=
      Dict.get?_eq_some_iff (d := ⟨fields, hn⟩) |>.1 (Option.join_eq_some_iff.1 hv)
    obtain ⟨e, _, hfits⟩ := exists_of_forall₂ h hmem
    exact Option.filter_some.trans (if_pos (by simpa using hfits.ne_null))

/-- A record that has what the fields of its structure take, in their order, is valid with its
members as they are, if the fields have no defaults. -/
theorem exact_of_fits (hname : r.contains name = true)
    (h : List.Forall₂ (r.Fits n) (r.allFields name).entries fields) :
    r.Exact (n + 1) name fields := by
  have hkeys := map_fst_of_fits h
  have hn : (fields.map Prod.fst).Nodup := by
    rw [hkeys]
    exact (r.allFields name).nodup
  -- what a field is given is what stands for it in the list
  have hgiven : ∀ e m, m ∈ fields → r.Fits n e m →
      (given? (Json.sortMembers (Json.present fields)) e.1).or e.2.default = m.2 := by
    rintro e ⟨key, v⟩ hmem hfits
    obtain rfl : key = e.1 := hfits.1
    rw [given?_of_fits hn h, Dict.lookup?_of_mem hn hmem, hfits.2.1, Option.or_none]
    rfl
  refine ⟨Json.presentDict fields hn, validateWithin_eq_ok_iff.2 ⟨hname, ?_, ?_, ?_⟩, rfl⟩
  · intro e he
    have hkey : e.1 ∈ (r.allFields name).keys := by
      rw [Dict.keys, ← hkeys]
      exact (Json.keys_present_sublist fields).subset
        (List.mem_map_of_mem (Json.mem_of_mem_sortMembers he))
    exact Dict.mem_keys_iff.1 hkey
  · intro e he
    obtain ⟨⟨key, v⟩, hmem, hfits⟩ := exists_of_forall₂ h.flip he
    rw [Takes, chosen?_eq, hgiven e _ hmem hfits]
    cases v with
    | none => exact hfits.2.2.2
    | some v =>
      have hadmits : e.2.admits v = true := by simp [Field.admits, hfits.2.2.1]
      exact ⟨checkValue_imp (fun _ _ _ hs => hs) hfits.2.2.2, hadmits⟩
  · refine Dict.ext ?_
    rw [entries_valuesOf (r.allFields name).nodup fun _ _ => List.not_mem_nil]
    refine (filterMap_of_forall₂ h fun e m hmem hfits => ?_).symm
    rw [hgiven e m hmem hfits, ← hfits.1]

/-- A record that is valid as it is can be nested. -/
theorem Exact.checked (h : r.Exact n name fields) :
    checkValue (r.nestedWithin n) owner field (.nested name) (.ofMembers? fields) = .ok () := by
  obtain ⟨values, hvalid, _⟩ := h
  exact mapError_eq_ok_iff.2 (nestedWithin_eq_ok_iff.2 ⟨values, hvalid⟩)

/-- An object is read as its values are, if it is a valid record. -/
theorem read_object {members : List (String × Json)} {values : Dict Json}
    (hdynamic : name ≠ Structure.dynamicContent) (hvalid : r.validate name members = .ok values)
    (hform : Content.ofFields? name values = some c) : r.read name (.object members) = .ok c := by
  have hnone : Content.bare? name (.object members) = none := by
    simp only [Content.bare?, if_neg hdynamic]
  simp only [Registry.read, hnone, hvalid, ok_bind, hform]
  rfl

/-- A record that is valid as it is is read as its members are. -/
theorem Exact.read (h : r.Exact n name fields) (hdynamic : name ≠ Structure.dynamicContent)
    (hn : (fields.map Prod.fst).Nodup)
    (hform : Content.ofFields? name (Json.presentDict fields hn) = some c) :
    r.read name (.ofMembers? fields) = .ok c := by
  obtain ⟨values, hvalid, hentries⟩ := h
  obtain rfl : values = Json.presentDict fields hn := Dict.ext hentries
  exact read_object hdynamic (validate_of_validateWithin hvalid) hform

end Registry

/-! ## The forms of content -/

/-- The fields of an image that is written. -/
def Image.fields (i : Image) : List (String × Option Json) :=
  [("url", some (.string i.url)), ("caption", i.caption.map .string)]

/-- The fields of a text with images that is written. -/
def TextAndImages.fields (t : TextAndImages) : List (String × Option Json) :=
  [("text", t.text.map .string), ("images", some (.array (t.images.map Image.toJson)))]

/-- The fields of a page that is written. -/
def Page.fields (p : Page) : List (String × Option Json) :=
  [("text_and_images", some p.body.toJson), ("page_view", p.view.map Image.toJson)]

/-- The fields of a prompt that is written. -/
def LlmPrompt.fields (p : LlmPrompt) : List (String × Option Json) :=
  [("system_text", p.system.map .string), ("user_text", p.user.map .string),
    ("user_images", some (.array (p.images.map Image.toJson)))]

theorem Json.optional_text? (s : Option String) :
    Json.optional Json.text? (s.map .string) = some s := by
  cases s <;> rfl

theorem Image.toJson_reads (i : Image) : Image.ofJson? i.toJson = some i := by
  have hkeys : (i.fields.map Prod.fst).Nodup := by
    show ["url", "caption"].Nodup
    decide
  have hcaption : Json.optional Json.text? (Dict.lookup? "caption" i.fields).join =
    some i.caption := Json.optional_text? i.caption
  show Image.ofJson? (.ofMembers? i.fields) = some i
  simp only [Image.ofJson?, Json.fields?_ofMembers? hkeys, Option.bind_eq_bind, Option.bind_some,
    hcaption]
  rfl

/-- Images are read from the array of their records. -/
theorem list?_images (is : List Image) :
    Json.list? Image.ofJson? (.array (is.map Image.toJson)) = some is :=
  Json.mapM_map_of_forall fun i _ => i.toJson_reads

theorem TextAndImages.toJson_reads (t : TextAndImages) :
    TextAndImages.ofJson? t.toJson = some t := by
  have hkeys : (t.fields.map Prod.fst).Nodup := by
    show ["text", "images"].Nodup
    decide
  have htext : Json.optional Json.text? (Dict.lookup? "text" t.fields).join = some t.text :=
    Json.optional_text? t.text
  have himages : Json.defaulted [] (Json.list? Image.ofJson?)
      (Dict.lookup? "images" t.fields).join = some t.images := list?_images t.images
  show TextAndImages.ofJson? (.ofMembers? t.fields) = some t
  simp only [TextAndImages.ofJson?, Json.fields?_ofMembers? hkeys, Option.bind_eq_bind,
    Option.bind_some, htext, himages]
  rfl

theorem Page.toJson_reads (p : Page) : Page.ofJson? p.toJson = some p := by
  have hkeys : (p.fields.map Prod.fst).Nodup := by
    show ["text_and_images", "page_view"].Nodup
    decide
  have hbody : Json.required TextAndImages.ofJson?
      (Dict.lookup? "text_and_images" p.fields).join = some p.body := p.body.toJson_reads
  have hview : Json.optional Image.ofJson? (Dict.lookup? "page_view" p.fields).join =
      some p.view := by
    show Json.optional Image.ofJson? (p.view.map Image.toJson) = some p.view
    cases p.view with
    | none => rfl
    | some i => exact congrArg (Option.map some) i.toJson_reads
  show Page.ofJson? (.ofMembers? p.fields) = some p
  simp only [Page.ofJson?, Json.fields?_ofMembers? hkeys, Option.bind_eq_bind, Option.bind_some,
    hbody, hview]
  rfl

theorem LlmPrompt.toJson_reads (p : LlmPrompt) : LlmPrompt.ofJson? p.toJson = some p := by
  have hkeys : (p.fields.map Prod.fst).Nodup := by
    show ["system_text", "user_text", "user_images"].Nodup
    decide
  have hsystem : Json.optional Json.text? (Dict.lookup? "system_text" p.fields).join =
    some p.system := Json.optional_text? p.system
  have huser : Json.optional Json.text? (Dict.lookup? "user_text" p.fields).join = some p.user :=
    Json.optional_text? p.user
  have himages : Json.defaulted [] (Json.list? Image.ofJson?)
      (Dict.lookup? "user_images" p.fields).join = some p.images := list?_images p.images
  show LlmPrompt.ofJson? (.ofMembers? p.fields) = some p
  simp only [LlmPrompt.ofJson?, Json.fields?_ofMembers? hkeys, Option.bind_eq_bind,
    Option.bind_some, hsystem, huser, himages]
  rfl

/-! ## Valid forms -/

namespace Registry

variable {r : Registry}

/-- The fields of a built-in structure. -/
theorem Compiled.allFields_eq (h : r.Compiled) {name : String}
    (hname : Registry.initial.contains name = true) :
    r.contains name = true ∧ r.allFields name = Registry.initial.allFields name :=
  ⟨h.initial_within.contains hname,
    allFields_within initial_sound.closed h.initial_within hname⟩

/-- A built-in structure has a list of fields that is known. -/
theorem Compiled.exact (h : r.Compiled) {name : String} {n : Nat}
    {fields : List (String × Option Json)} (hname : Registry.initial.contains name = true)
    (hfits : List.Forall₂ (r.Fits n) (Registry.initial.allFields name).entries fields) :
    r.Exact (n + 1) name fields := by
  obtain ⟨hcontains, hfields⟩ := h.allFields_eq hname
  exact exact_of_fits hcontains (hfields ▸ hfits)

theorem fits_text (n : Nat) (key description s : String) :
    r.Fits n (key, requiredField key .text description) (key, some (.string s)) :=
  ⟨rfl, rfl, rfl, rfl⟩

theorem fits_optional_text (n : Nat) (key description : String) (s : Option String) :
    r.Fits n (key, optionalField key .text description) (key, s.map .string) := by
  refine ⟨rfl, rfl, rfl, ?_⟩
  cases s <;> rfl

theorem exact_image (h : r.Compiled) (n : Nat) (i : Image) :
    r.Exact (n + 1) Structure.imageContent i.fields :=
  h.exact (by decide) (.cons (fits_text ..) (.cons (fits_optional_text ..) .nil))

/-- An array of images can be nested. -/
theorem images_checked (h : r.Compiled) (n : Nat) (is : List Image) :
    checkValue (r.nestedWithin (n + 1)) "" "" (.listOf (.nested Structure.imageContent))
      (.array (is.map Image.toJson)) = .ok () := by
  rw [checkValue, forM_eq_ok_iff]
  intro v hv
  obtain ⟨i, _, rfl⟩ := List.mem_map.1 hv
  exact (exact_image h n i).checked

theorem fits_optional_image (h : r.Compiled) (n : Nat) (key description : String)
    (i : Option Image) :
    r.Fits (n + 1) (key, optionalField key (.nested Structure.imageContent) description)
      (key, i.map Image.toJson) := by
  refine ⟨rfl, rfl, rfl, ?_⟩
  cases i with
  | none => rfl
  | some i => exact (exact_image h n i).checked

theorem fits_images (h : r.Compiled) (n : Nat) (key description : String) (is : List Image) :
    r.Fits (n + 1) (key, optionalField key (.listOf (.nested Structure.imageContent)) description)
      (key, some (.array (is.map Image.toJson))) :=
  ⟨rfl, rfl, rfl, images_checked h n is⟩

theorem exact_textAndImages (h : r.Compiled) (n : Nat) (t : TextAndImages) :
    r.Exact (n + 2) Structure.textAndImagesContent t.fields :=
  h.exact (by decide) (.cons (fits_optional_text ..) (.cons (fits_images h ..) .nil))

theorem exact_page (h : r.Compiled) (n : Nat) (p : Page) :
    r.Exact (n + 3) Structure.pageContent p.fields :=
  h.exact (by decide) (.cons ⟨rfl, rfl, rfl, (exact_textAndImages h n p.body).checked⟩
    (.cons (fits_optional_image h (n + 1) ..) .nil))

theorem exact_llmPrompt (h : r.Compiled) (n : Nat) (p : LlmPrompt) :
    r.Exact (n + 2) Structure.llmPromptContent p.fields :=
  h.exact (by decide) (.cons (fits_optional_text ..) (.cons (fits_optional_text ..)
    (.cons (fits_images h ..) .nil)))

/-- Content of a form of its own is read back from both of its views. -/
theorem read_form (h : r.Compiled) {name : String} {c : Content} (hform : c.form? = some name) :
    r.read name c.toJson = .ok c ∧ r.read name c.value = .ok c := by
  cases c with
  | text s =>
    cases hform
    have hexact : r.Exact 1 Structure.textContent [("text", some (.string s))] :=
      h.exact (by decide) (.cons (fits_text ..) .nil)
    exact ⟨hexact.read (by decide) (by simp) rfl, rfl⟩
  | number x =>
    cases hform
    have hexact : r.Exact 1 Structure.numberContent [("number", some (.number (.real x)))] :=
      h.exact (by decide) (.cons ⟨rfl, rfl, rfl, rfl⟩ .nil)
    exact ⟨hexact.read (by decide) (by simp) rfl, rfl⟩
  | image i =>
    cases hform
    have hread : r.read Structure.imageContent i.toJson = .ok (.image i) :=
      (exact_image h 0 i).read (by decide) (by simp [Image.fields])
        (congrArg (Option.map Content.image) i.toJson_reads)
    exact ⟨hread, hread⟩
  | pdf url =>
    cases hform
    have hexact : r.Exact 1 Structure.pdfContent [("url", some (.string url))] :=
      h.exact (by decide) (.cons (fits_text ..) .nil)
    have hread := hexact.read (c := .pdf url) (by decide) (by simp) rfl
    exact ⟨hread, hread⟩
  | textAndImages t =>
    cases hform
    have hread : r.read Structure.textAndImagesContent t.toJson = .ok (.textAndImages t) :=
      (exact_textAndImages h 0 t).read (by decide) (by simp [TextAndImages.fields])
        (congrArg (Option.map Content.textAndImages) t.toJson_reads)
    exact ⟨hread, hread⟩
  | page p =>
    cases hform
    have hread : r.read Structure.pageContent p.toJson = .ok (.page p) :=
      (exact_page h 0 p).read (by decide) (by simp [Page.fields])
        (congrArg (Option.map Content.page) p.toJson_reads)
    exact ⟨hread, hread⟩
  | llmPrompt p =>
    cases hform
    have hread : r.read Structure.llmPromptContent p.toJson = .ok (.llmPrompt p) :=
      (exact_llmPrompt h 0 p).read (by decide) (by simp [LlmPrompt.fields])
        (congrArg (Option.map Content.llmPrompt) p.toJson_reads)
    exact ⟨hread, hread⟩
  | imgGenPrompt s =>
    cases hform
    have hexact : r.Exact 1 Structure.imgGenPromptContent [("positive_text", some (.string s))] :=
      h.exact (by decide) (.cons (fits_text ..) .nil)
    exact ⟨hexact.read (by decide) (by simp) rfl, rfl⟩
  | list items => cases hform
  | record name fields => cases hform
  | dynamic v => cases hform

/-- The values of a valid record are content if their structure calls for no other form. -/
theorem ofFields?_of_not_formed {name : String} (hname : name ∉ Structure.formed)
    (fields : Dict Json) : Content.ofFields? name fields = some (.record name fields) := by
  simp only [Structure.formed, List.mem_cons, List.not_mem_nil, or_false, not_or] at hname
  simp [Content.ofFields?, hname]

/-- Content that is read is read back, as the same content, from its record and from its value. -/
theorem read_views (h : r.Compiled) {name : String} {v : Json} {c : Content}
    (hread : r.read name v = .ok c) :
    r.read name c.toJson = .ok c ∧ r.read name c.value = .ok c := by
  cases read_reads hread with
  | dynamic v => exact ⟨rfl, rfl⟩
  | form hform => exact read_form h hform
  | @record name fields members hname hvalid =>
    have hdynamic : name ≠ Structure.dynamicContent := by
      rintro rfl
      exact hname (by decide)
    have hagain : r.read name (.ofMembers fields.entries) = .ok (.record name fields) :=
      read_object hdynamic (validate_filled hvalid).2.2 (ofFields?_of_not_formed hname fields)
    exact ⟨hagain, hagain⟩

/-! ## A page and a person -/

/-- The members of a page as it may be given: its only image has a caption that is null. -/
def pageRecord : List (String × Json) :=
  [("text_and_images", .object [("images",
    .array [.object [("caption", .null), ("url", .string "a.png")]])])]

/-- The page that is read from it. -/
def scannedPage : Content :=
  .page ⟨⟨none, [{ url := "a.png" }]⟩, none⟩

theorem read_pageRecord :
    mailroom.read Structure.pageContent (.object pageRecord) = .ok scannedPage := by
  have hvalid : mailroom.validate Structure.pageContent pageRecord = .ok (.ofList pageRecord) :=
    eq_ok_of_toOption (by decide +kernel)
  exact read_object (by decide) hvalid rfl

/-- The page is written without the caption, and read back. The record of the person is written with
the tone that was filled in, and read back as well. -/
theorem read_views_mailroom :
    mailroom.Compiled ∧
    (mailroom.read Structure.pageContent (.object pageRecord) = .ok scannedPage ∧
      scannedPage.toJson = .object [("text_and_images",
        .object [("images", .array [.object [("url", .string "a.png")]])])] ∧
      mailroom.read Structure.pageContent scannedPage.toJson = .ok scannedPage ∧
      mailroom.read Structure.pageContent scannedPage.value = .ok scannedPage) ∧
    (mailroom.read "Person" (.object adaRecord) = .ok (.record "Person" adaValues) ∧
      mailroom.read "Person" (Content.record "Person" adaValues).toJson =
        .ok (.record "Person" adaValues) ∧
      mailroom.read "Person" (Content.record "Person" adaValues).value =
        .ok (.record "Person" adaValues)) := by
  have hada : mailroom.read "Person" (.object adaRecord) = .ok (.record "Person" adaValues) :=
    read_object (by decide) validate_adaRecord rfl
  exact ⟨mailroom_compiled,
    ⟨read_pageRecord, by decide +kernel, read_views mailroom_compiled read_pageRecord⟩,
    hada, read_views mailroom_compiled hada⟩

end Registry

end Conduit
