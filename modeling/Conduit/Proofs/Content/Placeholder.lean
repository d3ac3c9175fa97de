import Conduit.Proofs.Json.Members
import Conduit.Proofs.Structure.Grounded
import Conduit.Content.Placeholder

/-!
# Placeholders are valid

In a registry of compiled structures the placeholder of a structure is a valid record of it, and
its values are those of the record (`Placeholder.validate_fieldsWithin`): nothing is filled in. For
a field takes its default or its first choice, which have passed the checks of sources, or a value
made for its type, and the records in that are of structures of lower ranks, so that an induction on
the depth of nesting reaches them. It follows that a placeholder can be read as content
(`Placeholder.read_recordWithin`), also where the structure has a form of content of its own.
`Placeholder.record_valid` says both of the placeholder as it is built, whose depth of nesting is
bounded by the number of structures: a structure calls only structures of lower ranks.
-/

namespace Conduit.Placeholder

open Registry

variable {r : Registry} {size n k bound : Nat} {name owner field : String} {f : Field}
  {nested : String → Json}
  {check : String → List (String × Json) → Except RecordError Unit}

/-! ## Fields -/

/-- A value that is made for a type passes its check if the records that are made for it do. -/
theorem ofType_checked {type : FieldType}
    (h : ∀ s ∈ type.mentions, ∃ members, nested s = .object members ∧ check s members = .ok ()) :
    checkValue check owner field type (ofType nested size name type) = .ok () := by
  induction type with
  | text | integer | boolean | number | anyList | anyDict | dictOf => rfl
  | date =>
    rw [ofType, checkValue, if_pos (by decide)]
  | listOf item ih =>
    rw [ofType, checkValue, forM_eq_ok_iff]
    intro v hv
    rw [List.eq_of_mem_replicate hv]
    exact ih h
  | nested s =>
    obtain ⟨members, hmembers, hcheck⟩ := h s (List.mem_singleton_self s)
    rw [ofType, hmembers, checkValue, hcheck]
    rfl

/-- The placeholder of a field is one of its values. -/
theorem ofField_checked (hf : r.Anchored bound f) (hdefault : r.DefaultWithin k f)
    (h : ∀ s ∈ f.type.mentions, ∃ members, nested s = .object members ∧
      r.nestedWithin k s members = .ok ()) :
    checkValue (r.nestedWithin k) owner field f.type (ofField nested size f) = .ok () ∧
      f.admits (ofField nested size f) = true := by
  unfold ofField
  cases hd : f.default with
  | some v => exact ⟨checkValue_imp (fun _ _ _ hs => hs) (hdefault v hd), hf.admitted v hd⟩
  | none =>
    cases hchoices : f.choices with
    | nil => exact ⟨ofType_checked h, by simp [Field.admits, hchoices]⟩
    | cons choice rest =>
      rw [hf.choices (hchoices ▸ List.cons_ne_nil _ _)]
      exact ⟨rfl, by simp [Field.admits, hchoices]⟩

/-! ## Records -/

/-- The values of the placeholder of a structure, in which records are nested at most `n` deep. -/
def fieldsWithin (r : Registry) (size n : Nat) (name : String) : Dict Json :=
  (r.allFields name).mapValues fun _ f => ofField (recordWithin r size n) size f

/-- The record of a structure has its fields as members. -/
theorem recordWithin_succ (hr : r.Sound) :
    recordWithin r size (n + 1) name = .ofMembers (fieldsWithin r size n name).entries := by
  rw [recordWithin, ofFields, Dict.values, List.map_map]
  refine congrArg _ (List.map_congr_left fun e he => ?_)
  have hname : e.2.name = e.1 :=
    hr.allFields_named name e.1 e.2 (Dict.get?_of_mem_entries he)
  rw [Function.comp_apply, hname]

/-- What a record gives each field, put together. -/
theorem valuesOf_eq_mapValues {record : List (String × Json)} {fields : Dict Field}
    {g : String → Field → Json}
    (h : ∀ e ∈ fields.entries, chosen? { e.2 with name := e.1 } record = some (g e.1 e.2)) :
    valuesOf record fields.entries .empty = fields.mapValues g := by
  rw [← Dict.ofList_entries (fields.mapValues g), Dict.ofList, Dict.mapValues, List.foldl_map]
  refine List.foldl_ext _ _ _ fun values e he => ?_
  obtain ⟨key, f⟩ := e
  have hkey : chosen? { f with name := key } record = some (g key f) := h (key, f) he
  simp only [hkey, Option.elim_some]

/-- A field is given the value of its member, unless that is null. -/
theorem chosen?_of_member? {record : List (String × Json)} {v : Json}
    (h : Json.member? record f.name = some v) (hv : v ≠ .null) : chosen? f record = some v := by
  unfold chosen?
  rw [h]
  cases v with
  | null => exact absurd rfl hv
  | _ => rfl

/-- The members of a placeholder are valid and the values of the record, if the records in it are
valid. -/
theorem validateWithin_of_nested (hg : r.Grounded) (hname : r.contains name = true)
    (hdefault : r.budget + r.budget ≤ k)
    (h : ∀ s, r.contains s = true → r.rank s < r.rank name →
      ∃ members, recordWithin r size n s = .object members ∧ r.nestedWithin k s members = .ok ()) :
    r.validateWithin (k + 1) name (Json.sortMembers (fieldsWithin r size n name).entries) =
      .ok (fieldsWithin r size n name) := by
  have hchecked : ∀ e ∈ (r.allFields name).entries,
      checkValue (r.nestedWithin k) e.1 e.1 e.2.type (ofField (recordWithin r size n) size e.2) =
        .ok () ∧ e.2.admits (ofField (recordWithin r size n) size e.2) = true := by
    intro e he
    have hf := Dict.get?_of_mem_entries he
    have hanchored := hg.anchored hf
    refine ofField_checked hanchored ((hg.defaultWithin hf).mono hdefault) fun s hs => ?_
    obtain ⟨hcontains, hlt⟩ := hanchored.mentions s hs
    exact h s hcontains hlt
  have hget : ∀ key, (fieldsWithin r size n name).get? key =
      ((r.allFields name).get? key).map (ofField (recordWithin r size n) size) :=
    Dict.get?_mapValues _ _
  have hchosen : ∀ e ∈ (r.allFields name).entries,
      chosen? { e.2 with name := e.1 } (Json.sortMembers (fieldsWithin r size n name).entries) =
        some (ofField (recordWithin r size n) size e.2) := by
    intro e he
    refine chosen?_of_member? ?_ fun hnull => checkValue_null (hnull ▸ (hchecked e he).1)
    rw [Json.member?_sortMembers, Dict.ofList_entries, hget, Dict.get?_of_mem_entries he]
    rfl
  refine validateWithin_eq_ok_iff.2 ⟨hname, fun e he => ?_, fun e he => ?_,
    (valuesOf_eq_mapValues hchosen).symm⟩
  · obtain ⟨x, hx, rfl⟩ := List.mem_map.1 (Json.mem_of_mem_sortMembers he)
    exact Dict.contains_of_get? (Dict.get?_of_mem_entries hx)
  · unfold Takes
    rw [hchosen e he]
    exact hchecked e he

/-- A placeholder is a valid record of its structure, and has the values of the record. -/
theorem validate_fieldsWithin (hr : r.Sound) (hg : r.Grounded) (hname : r.contains name = true)
    (hn : r.rank name ≤ n) :
    r.validate name (Json.sortMembers (fieldsWithin r size n name).entries) =
      .ok (fieldsWithin r size n name) := by
  have hwithin : r.validateWithin (n + (r.budget + r.budget) + 1) name
      (Json.sortMembers (fieldsWithin r size n name).entries) =
        .ok (fieldsWithin r size n name) := by
    induction n generalizing name with
    | zero =>
      refine validateWithin_of_nested hg hname (by omega) fun s _ hlt => ?_
      omega
    | succ n ih =>
      refine validateWithin_of_nested hg hname (by omega) fun s hs hlt => ?_
      refine ⟨_, recordWithin_succ hr, nestedWithin_eq_ok_iff.2 ⟨fieldsWithin r size n s, ?_⟩⟩
      rw [show n + 1 + (r.budget + r.budget) = n + (r.budget + r.budget) + 1 by omega]
      exact ih hs (by omega)
  exact validate_of_validateWithin hwithin

/-! ## Nesting -/

/-- A record of `name` may have a record of `inner` in it: some field mentions `inner`. -/
def Calls (r : Registry) (inner name : String) : Prop :=
  ∃ f ∈ (r.allFields name).values, inner ∈ f.type.mentions

/-- The records in a record are of structures of lower ranks. -/
theorem rank_lt_of_calls (hg : r.Grounded) {inner : String} (h : Calls r inner name) :
    r.rank inner < r.rank name := by
  obtain ⟨f, hf, hinner⟩ := h
  obtain ⟨key, hf⟩ := Dict.exists_get?_of_mem_values hf
  exact ((hg.anchored hf).mentions inner hinner).2

/-- Records are not nested without end. -/
theorem acc_calls (hg : r.Grounded) (name : String) : Acc (Calls r) name :=
  (Subrelation.wf (rank_lt_of_calls hg) (measure r.rank).wf).apply name

/-- A value that is made for a type depends on the records of the structures it mentions only. -/
theorem ofType_congr {nested' : String → Json} {type : FieldType}
    (h : ∀ s ∈ type.mentions, nested s = nested' s) :
    ofType nested size name type = ofType nested' size name type := by
  induction type with
  | text | integer | boolean | number | date | anyList | anyDict | dictOf => rfl
  | listOf item ih => rw [ofType, ofType, ih h]
  | nested s => exact h s (List.mem_singleton_self s)

theorem ofField_congr {nested' : String → Json}
    (h : ∀ s ∈ f.type.mentions, nested s = nested' s) :
    ofField nested size f = ofField nested' size f := by
  unfold ofField
  split
  · rfl
  · rfl
  · exact ofType_congr h

/-- The bound of the nesting is never reached: it makes no difference above a measure that goes down
wherever a structure calls another. -/
theorem recordWithin_eq {m : String → Nat} (hm : ∀ inner name, Calls r inner name → m inner < m name)
    (hn : m name < n) (hk : m name < k) : recordWithin r size n name = recordWithin r size k name := by
  induction n generalizing name k with
  | zero => exact absurd hn (Nat.not_lt_zero _)
  | succ n ih =>
    obtain ⟨k, rfl⟩ : ∃ j, k = j + 1 := ⟨k - 1, by omega⟩
    rw [recordWithin, recordWithin, ofFields, ofFields]
    refine congrArg _ (List.map_congr_left fun f hf => ?_)
    rw [ofField_congr fun s hs => ?_]
    have hlt := hm s name ⟨f, hf, hs⟩
    exact ih (by omega) (by omega)

/-- A record is made of the values of its fields, and the records in it are made in the same way, if
no more structures can be nested than there are. -/
theorem record_eq_of_measure {m : String → Nat}
    (hm : ∀ inner name, Calls r inner name → m inner < m name)
    (hsize : ∀ name, m name ≤ r.structures.size) (size : Nat) (name : String) :
    record r size name = ofFields (record r size) size (r.allFields name).values := by
  rw [record, recordWithin, ofFields, ofFields]
  refine congrArg _ (List.map_congr_left fun f hf => ?_)
  rw [ofField_congr fun s hs => ?_]
  have hlt := hm s name ⟨f, hf, hs⟩
  have hle := hsize name
  exact recordWithin_eq hm (by omega) (by omega)

/-- In a grounded registry a record is made of the values of its fields. -/
theorem record_eq (hg : r.Grounded) (size : Nat) (name : String) :
    record r size name = ofFields (record r size) size (r.allFields name).values := by
  refine record_eq_of_measure (fun _ _ h => rank_lt_of_calls hg h) (fun name => ?_) size name
  rw [size_eq_length_keys]
  exact List.idxOf_le_length

/-! ## Content -/

/-- What the placeholder of a built-in structure holds. -/
theorem get?_fieldsWithin (h : r.Compiled) (hname : Registry.initial.contains name = true)
    (key : String) :
    (fieldsWithin r size n name).get? key =
      ((Registry.initial.allFields name).get? key).map (ofField (recordWithin r size n) size) := by
  rw [fieldsWithin, Dict.get?_mapValues,
    allFields_within initial_sound.closed h.initial_within hname]

/-- The image in placeholders of records. -/
def recordImage : Image := ⟨label "url", some (label "caption")⟩

/-- The text with images in placeholders of records. -/
def recordTextAndImages (size : Nat) : TextAndImages :=
  ⟨some (label "text"), List.replicate size recordImage⟩

/-- The placeholder of the structure of images is an image. -/
theorem image_recordWithin (h : r.Compiled) (size n : Nat) :
    Image.ofJson? (recordWithin r size (n + 1) Structure.imageContent) = some recordImage := by
  rw [recordWithin_succ h.sound, Image.ofJson?, Json.fields?_ofMembers]
  simp only [Option.bind_eq_bind, Option.bind_some,
    get?_fieldsWithin h (show Registry.initial.contains Structure.imageContent = true by decide)]
  rfl

/-- The items of a list that are all read alike. -/
theorem list?_replicate {α : Type} {read : Json → Option α} {v : Json} {a : α}
    (h : read v = some a) : Json.list? read (.array (List.replicate k v)) =
      some (List.replicate k a) := by
  unfold Json.list?
  induction k with
  | zero => rfl
  | succ k ih =>
    simp only at ih
    simp only [List.replicate_succ, List.mapM_cons, h, ih]
    rfl

/-- The placeholder of the structure of texts with images is a text with images. -/
theorem textAndImages_recordWithin (h : r.Compiled) :
    TextAndImages.ofJson? (recordWithin r size (n + 2) Structure.textAndImagesContent) =
      some (recordTextAndImages size) := by
  have himages := list?_replicate (k := size) (image_recordWithin h size n)
  rw [recordWithin_succ h.sound, TextAndImages.ofJson?, Json.fields?_ofMembers]
  simp only [Option.bind_eq_bind, Option.bind_some, get?_fieldsWithin h
    (show Registry.initial.contains Structure.textAndImagesContent = true by decide)]
  change (Json.list? Image.ofJson? (.array (List.replicate size
    (recordWithin r size (n + 1) Structure.imageContent)))).bind _ = _
  rw [himages]
  rfl

/-- The placeholder of the structure of pages is a page. -/
theorem page_recordWithin (h : r.Compiled) :
    Page.ofJson? (recordWithin r size (n + 3) Structure.pageContent) =
      some ⟨recordTextAndImages size, some recordImage⟩ := by
  rw [recordWithin_succ h.sound, Page.ofJson?, Json.fields?_ofMembers]
  simp only [Option.bind_eq_bind, Option.bind_some,
    get?_fieldsWithin h (show Registry.initial.contains Structure.pageContent = true by decide)]
  change (TextAndImages.ofJson? (recordWithin r size (n + 2) Structure.textAndImagesContent)).bind
    (fun body =>
      ((Image.ofJson? (recordWithin r size (n + 2) Structure.imageContent)).map some).bind
        fun view => some (Page.mk body view)) = _
  rw [textAndImages_recordWithin h, image_recordWithin h]
  rfl

/-- The placeholder of the structure of prompts is a prompt. -/
theorem llmPrompt_recordWithin (h : r.Compiled) :
    LlmPrompt.ofJson? (recordWithin r size (n + 2) Structure.llmPromptContent) =
      some ⟨some (label "system_text"), some (label "user_text"),
        List.replicate size recordImage⟩ := by
  have himages := list?_replicate (k := size) (image_recordWithin h size n)
  rw [recordWithin_succ h.sound, LlmPrompt.ofJson?, Json.fields?_ofMembers]
  simp only [Option.bind_eq_bind, Option.bind_some, get?_fieldsWithin h
    (show Registry.initial.contains Structure.llmPromptContent = true by decide)]
  change (Json.list? Image.ofJson? (.array (List.replicate size
    (recordWithin r size (n + 1) Structure.imageContent)))).bind _ = _
  rw [himages]
  rfl

/-- Built-in structures have the ranks that their fields call for. -/
theorem rank_lt_of_initial (h : r.Compiled) {inner : String} (key : String)
    (hname : Registry.initial.contains name = true)
    (hf : ((Registry.initial.allFields name).get? key).any fun f => inner ∈ f.type.mentions) :
    r.rank inner < r.rank name := by
  obtain ⟨f, hf, hmem⟩ := Option.any_eq_true _ _ |>.1 hf
  rw [← allFields_within initial_sound.closed h.initial_within hname] at hf
  exact ((h.grounded.anchored hf).mentions inner (of_decide_eq_true hmem)).2

/-- The fields of the placeholder of a structure have the form that it calls for. -/
theorem ofFields?_fieldsWithin (h : r.Compiled) (size : Nat) (hn : r.rank name ≤ n) :
    ∃ c, Content.ofFields? name (fieldsWithin r size n name) = some c := by
  have hboth : r.rank Structure.imageContent < r.rank Structure.textAndImagesContent :=
    rank_lt_of_initial h "images" (by decide) (by decide)
  have hpage : r.rank Structure.textAndImagesContent < r.rank Structure.pageContent :=
    rank_lt_of_initial h "text_and_images" (by decide) (by decide)
  have hprompt : r.rank Structure.imageContent < r.rank Structure.llmPromptContent :=
    rank_lt_of_initial h "user_images" (by decide) (by decide)
  simp only [Content.ofFields?, ← recordWithin_succ h.sound]
  split_ifs with htext hnumber himage hpdf hboth hpages hprompts hdrawn
  · exact ⟨_, rfl⟩
  · exact ⟨_, rfl⟩
  · subst himage
    exact ⟨_, Option.map_eq_some_iff.2 ⟨_, image_recordWithin h _ _, rfl⟩⟩
  · exact ⟨_, rfl⟩
  · subst hboth
    obtain ⟨k, rfl⟩ : ∃ k, n = k + 1 := ⟨n - 1, by omega⟩
    exact ⟨_, Option.map_eq_some_iff.2 ⟨_, textAndImages_recordWithin h, rfl⟩⟩
  · subst hpages
    obtain ⟨k, rfl⟩ : ∃ k, n = k + 2 := ⟨n - 2, by omega⟩
    exact ⟨_, Option.map_eq_some_iff.2 ⟨_, page_recordWithin h, rfl⟩⟩
  · subst hprompts
    obtain ⟨k, rfl⟩ : ∃ k, n = k + 1 := ⟨n - 1, by omega⟩
    exact ⟨_, Option.map_eq_some_iff.2 ⟨_, llmPrompt_recordWithin h, rfl⟩⟩
  · exact ⟨_, rfl⟩
  · exact ⟨_, rfl⟩

/-- The placeholder of a structure can be read as content of it. -/
theorem read_recordWithin (h : r.Compiled) (hname : r.contains name = true)
    (hn : r.rank name < n) : ∃ c, r.read name (recordWithin r size n name) = .ok c := by
  obtain ⟨n, rfl⟩ : ∃ k, n = k + 1 := ⟨n - 1, by omega⟩
  obtain ⟨c, hc⟩ := ofFields?_fieldsWithin h size (Nat.le_of_lt_succ hn)
  rw [recordWithin_succ h.sound, Json.ofMembers, Registry.read]
  cases hbare : Content.bare? name
      (.object (Json.sortMembers (fieldsWithin r size n name).entries)) with
  | some c => exact ⟨c, rfl⟩
  | none =>
    simp only [validate_fieldsWithin h.sound h.grounded hname (Nat.le_of_lt_succ hn), ok_bind, hc]
    exact ⟨c, rfl⟩

/-- The record of a structure can be read. -/
theorem read_record (h : r.Compiled) (hname : r.contains name = true) :
    ∃ c, r.read name (record r size name) = .ok c :=
  read_recordWithin h hname ((rank_lt_size hname).trans (Nat.lt_succ_self _))

/-- A record with the fields of a structure can be read. -/
theorem read_object (h : r.Compiled) (hname : r.contains name = true) (size : Nat) :
    ∃ c, r.read name (object r size (r.allFields name)) = .ok c := by
  have hlt : r.rank name < r.structures.size + 2 := (rank_lt_size hname).trans (by omega)
  exact read_recordWithin h hname hlt

/-- Every structure has placeholder content. -/
theorem exists_content (h : r.Compiled) (hname : r.contains name = true) (size : Nat)
    (concept : String) :
    ∃ c, content r size concept name = .ok c := by
  simp only [content]
  split_ifs
  case neg => exact read_record h hname
  all_goals exact ⟨_, rfl⟩

/-! ## Valid placeholders -/

/-- Placeholders are valid: in a registry of compiled structures the making of a record of a
structure ends, and the record is valid, with no value but its own; every concept of the structure
has placeholder content. -/
theorem record_valid (h : r.Compiled) (hname : r.contains name = true) (size : Nat) :
    Acc (Calls r) name ∧
    (∀ s, record r size s = ofFields (record r size) size (r.allFields s).values) ∧
    (∃ members values, record r size name = .object members ∧
      r.validate name members = .ok values ∧ .ofMembers values.entries = Json.object members) ∧
    ∀ c : Concept, c.shape = name → ∃ made, content r size c.name c.shape = .ok made := by
  have hrank : r.rank name ≤ r.structures.size := (rank_lt_size hname).le
  refine ⟨acc_calls h.grounded name, record_eq h.grounded size, ?_, ?_⟩
  · exact ⟨_, _, recordWithin_succ h.sound,
      validate_fieldsWithin h.sound h.grounded hname hrank, rfl⟩
  · rintro c rfl
    exact exists_content h hname size c.name

/-! ## A kitchen -/

/-- The sources of steps, of recipes and of cakes, which are recipes with a title of their own. -/
def kitchenSources : List (String × String) :=
  [("Step", "structure Step extends StructuredContent \x7b
      text: text minutes?: integer default \"5\" \x7d"),
    ("Recipe", "structure Recipe extends StructuredContent \x7b
      title: text level: text in [\"easy\", \"hard\"] steps: list<Step>
      spare: dict<text, Step> baked?: date \x7d"),
    ("Cake", "structure Cake extends Recipe \x7b
      title: text default \"\\\"Cake\\\"\" icing: Step default \"\x7b\\\"text\\\": \\\"stir\\\"\x7d\" \x7d")]

/-- A registry with the structures of some more sources. -/
def compileAll? (r : Registry) : List (String × String) → Option Registry
  | [] => some r
  | (name, source) :: rest => do
    let s ← (r.compile name source).toOption
    compileAll? (← r.register? s) rest

theorem compileAll?_compiled {r' : Registry} {sources : List (String × String)} (h : r.Compiled)
    (hsources : compileAll? r sources = some r') : r'.Compiled := by
  induction sources generalizing r with
  | nil =>
    cases hsources
    exact h
  | cons e sources ih =>
    simp only [compileAll?, Option.bind_eq_bind, Option.bind_eq_some_iff] at hsources
    obtain ⟨s, hs, r₁, hr₁, hsources⟩ := hsources
    exact ih (.register h (eq_ok_of_toOption hs) hr₁) hsources

/-- The registry of a kitchen. -/
def kitchen : Registry :=
  (compileAll? .initial kitchenSources).getD .initial

/-- The placeholder of cakes is valid. Its title is the default that cakes declare anew, its level
the first choice of recipes, and it has two steps. -/
theorem record_valid_cake :
    kitchen.Compiled ∧ kitchen.contains "Cake" = true ∧
    Acc (Calls kitchen) "Cake" ∧
    (∃ members values, record kitchen 2 "Cake" = .object members ∧
      kitchen.validate "Cake" members = .ok values ∧
      .ofMembers values.entries = Json.object members) ∧
    (∃ made, content kitchen 2 "food.Cake" "Cake" = .ok made) ∧
    (record kitchen 2 "Cake").get? "title" = some (.string "Cake") ∧
    (record kitchen 2 "Cake").get? "level" = some (.string "easy") ∧
    (record kitchen 2 "Cake").get? "steps" =
      some (.array [record kitchen 2 "Step", record kitchen 2 "Step"]) := by
  have hcompiled : kitchen.Compiled := by
    unfold kitchen
    cases hsources : compileAll? .initial kitchenSources with
    | none => exact .initial
    | some r => exact compileAll?_compiled .initial hsources
  have hvalues : kitchen.contains "Cake" = true ∧
      (record kitchen 2 "Cake").get? "title" = some (.string "Cake") ∧
      (record kitchen 2 "Cake").get? "level" = some (.string "easy") ∧
      (record kitchen 2 "Cake").get? "steps" =
        some (.array [record kitchen 2 "Step", record kitchen 2 "Step"]) := by
    decide +kernel
  obtain ⟨hacc, -, hvalid, hcontent⟩ := record_valid hcompiled hvalues.1 2
  exact ⟨hcompiled, hvalues.1, hacc, hvalid, hcontent ⟨"Cake", "food", "", "Cake", none⟩ rfl,
    hvalues.2⟩

end Conduit.Placeholder
