import Mathlib.Data.Option.Basic
import Conduit.Proofs.Structure.Larger
import Conduit.Proofs.Structure.Words

/-!
# The names of the fields of a schema

The names of the fields of a schema are written into a source as they are, and the source is then
read. If they are words, it is known when the source is read (`Schema.parse?_render`): its fields
are those of the schema, but for their defaults, which are read from their texts
(`Schema.written`), and no name may be that of a clause with which the field before could go on.

Synthesis gives a schema's own fields exactly if their names are words
(`Registry.synthesize_fields_iff`): a name that is none is not found in a structure that is read, so
that other fields are in its place. A field can be given any other word as its name, but for those
with which the field before it could go on (`Registry.synthesize_rename`).
-/

namespace Conduit

open Text SourceToken SourceParser

variable {r : Registry} {name old new : String} {schema : Dict FieldBlueprint} {s : Structure}
  {b : FieldBlueprint} {f : Field}

/-! ## What a schema is read as -/

namespace Schema

/-- The structure that is read where a schema is written: the declared one, with its defaults as
their texts are read. -/
def written (name : String) (schema : Dict FieldBlueprint) : Structure :=
  { declared name schema with fields := (declared name schema).fields.mapValues fun _ f => reread f }

theorem entries_written (name : String) (schema : Dict FieldBlueprint) :
    (written name schema).fields.entries =
      schema.entries.map fun (k, b) => (k, reread (b.field k)) := by
  simp [written, declared, Dict.mapValues, Function.comp_def]

theorem values_written (name : String) (schema : Dict FieldBlueprint) :
    (written name schema).fields.values = schema.entries.map fun (k, b) => reread (b.field k) := by
  simp [Dict.values, entries_written, Function.comp_def]

theorem keys_written (name : String) (schema : Dict FieldBlueprint) :
    (written name schema).fields.keys = schema.keys := by
  simp [Dict.keys, entries_written, Function.comp_def]

theorem keys_declared (name : String) (schema : Dict FieldBlueprint) :
    (declared name schema).fields.keys = schema.keys := by
  simp [declared, Dict.keys, Dict.mapValues, Function.comp_def]

/-- The source of a schema whose names are words is read exactly if no field is called by a word
with which the field before it could go on, and the texts of the defaults can be read. -/
theorem parse?_render (hname : isVariable name = true)
    (hkeys : ∀ key ∈ schema.keys, isVariable key = true) {ss : List Structure} :
    SourceParser.parse? (render name schema) = .ok ss ↔
      (Separate (declared name schema).fields.values ∧
        ∀ f ∈ (declared name schema).fields.values, Readable f) ∧ ss = [written name schema] := by
  obtain ⟨fields, hfields, hspells⟩ := render_writes hname hkeys
  obtain ⟨ts, hscan, hts⟩ := scanFrom_spells hspells .start
  have hentries : (written name schema).fields.entries =
      (declared name schema).fields.values.map fun f => (f.name, reread f) := by
    rw [entries_written, values_declared, List.map_map]
    rfl
  rw [SourceParser.parse?, SourceToken.scan, hscan, ok_bind, mapError_eq_ok_iff]
  exact hfields.all_eq_ok_iff hentries hts

/-- A schema's own fields are read if their defaults are read as they are. -/
theorem written_fields_eq_iff (name : String) (schema : Dict FieldBlueprint) :
    (written name schema).fields = (declared name schema).fields ↔
      ∀ e ∈ schema.entries, ∀ v ∈ e.2.detail.default, Json.parse? v.compact = some v := by
  have hentries : (written name schema).fields = (declared name schema).fields ↔
      ∀ e ∈ (declared name schema).fields.entries, (e.1, reread e.2) = e := by
    have hmap := @List.map_inj_left _ _ (declared name schema).fields.entries
      (fun e => (e.1, reread e.2)) id
    rw [List.map_id] at hmap
    exact ⟨fun heq => hmap.1 (congrArg Dict.entries heq), fun h => Dict.ext (hmap.2 h)⟩
  rw [hentries]
  simp only [declared, Dict.mapValues, List.forall_mem_map, Prod.mk.injEq, true_and,
    reread_eq_self_iff]
  rfl

end Schema

namespace Registry

/-- The name of a field plays no part in its check. -/
theorem checkField_name (h : r.checkField name f = .ok ()) (key : String) :
    r.checkField name { f with name := key } = .ok () := by
  obtain ⟨hmentions, hchoices, hdefault⟩ := checkField_eq_ok_iff.1 h
  exact checkField_eq_ok_iff.2 ⟨hmentions, hchoices, fun v hv =>
    ⟨checkValue_imp (fun _ _ _ hs => hs) (hdefault v hv).1, (hdefault v hv).2⟩⟩

/-- The structure of a schema whose names are words is what is read, if its source is read and its
fields pass their checks. -/
theorem synthesize_eq_ok_iff (hname : isVariable name = true)
    (hkeys : ∀ key ∈ schema.keys, isVariable key = true) : r.synthesize name schema = .ok s ↔
      (Separate (Schema.declared name schema).fields.values ∧
        ∀ f ∈ (Schema.declared name schema).fields.values, Readable f) ∧
      s = Schema.written name schema ∧
      ∀ f ∈ (Schema.written name schema).fields.values, r.checkField name f = .ok () := by
  simp only [synthesize, compile, bind_eq_ok_iff, mapError_eq_ok_iff,
    Schema.parse?_render hname hkeys, accept_eq_ok_iff]
  constructor
  · rintro ⟨_, ⟨hread, rfl⟩, hss, _, _, hfields⟩
    obtain rfl : Schema.written name schema = s := List.head_eq_of_cons_eq hss
    exact ⟨hread, rfl, hfields⟩
  · rintro ⟨hread, rfl, hfields⟩
    refine ⟨_, ⟨hread, rfl⟩, rfl, rfl, ?_, hfields⟩
    simp [checkParent, Schema.written, Schema.declared]

/-- The names of a synthesized structure and of its fields are words. -/
theorem isVariable_of_synthesize (h : r.synthesize name schema = .ok s) :
    isVariable name = true ∧ ∀ key ∈ s.fields.keys, isVariable key = true := by
  simp only [synthesize, compile, bind_eq_ok_iff, mapError_eq_ok_iff, SourceParser.parse?] at h
  obtain ⟨declared, ⟨tokens, hscan, hall⟩, haccept⟩ := h
  obtain ⟨rfl, rfl, _⟩ := accept_ok haccept
  have htokens : tokens ≠ [] := by
    rintro rfl
    cases hall
  obtain ⟨_, hone⟩ := one_of_all htokens hall
  have hwords : ∀ w ∈ s.name :: s.fields.keys, isVariable w = true := by
    intro w hw
    obtain ⟨t, ht, htw⟩ := one_words hone w hw
    exact isVariable_of_mem_scanFrom hscan ht htw
  exact List.forall_mem_cons.1 hwords

/-- A synthesized structure has the fields of its schema, in their order and with all that is
declared of them, exactly if their names are words; but a default is what its text is read as, so
that a structure has the declared defaults only if these are read as they are. -/
theorem synthesize_fields_iff (h : r.synthesize name schema = .ok s) :
    (s.fields = (Schema.written name schema).fields ↔
      ∀ key ∈ schema.keys, isVariable key = true) ∧
    (s.fields = (Schema.declared name schema).fields ↔
      (∀ key ∈ schema.keys, isVariable key = true) ∧
        ∀ e ∈ schema.entries, ∀ v ∈ e.2.detail.default, Json.parse? v.compact = some v) := by
  obtain ⟨hname, hwords⟩ := isVariable_of_synthesize h
  have hread : (∀ key ∈ schema.keys, isVariable key = true) →
      s.fields = (Schema.written name schema).fields := fun hkeys => by
    rw [((synthesize_eq_ok_iff hname hkeys).1 h).2.1]
  have hkeys : s.fields.keys = schema.keys → ∀ key ∈ schema.keys, isVariable key = true :=
    fun heq => heq ▸ hwords
  refine ⟨⟨fun heq => hkeys (heq ▸ Schema.keys_written name schema), hread⟩, ?_⟩
  rw [← Schema.written_fields_eq_iff name]
  constructor
  · intro heq
    have hall := hkeys (heq ▸ Schema.keys_declared name schema)
    exact ⟨hall, (hread hall).symm.trans heq⟩
  · rintro ⟨hall, heq⟩
    exact (hread hall).trans heq

/-! ## A person -/

/-- A schema with one field, whose name goes on with a type and another name. -/
def personSchema : Dict FieldBlueprint :=
  .ofList [("name: text admin?", .detailed { type := .boolean })]

/-- A person, with two fields that are not in the schema. -/
def person : Structure where
  name := "Person"
  parent := some Structure.root
  fields := .ofList [
    ("name", ⟨"name", .text, true, none, [], none⟩),
    ("admin", ⟨"admin", .boolean, false, none, [], none⟩)]
  native := false

theorem synthesize_person : Registry.initial.synthesize "Person" personSchema = .ok person :=
  eq_ok_of_toOption (by decide +kernel)

/-- The name of the only field of the schema is no word. -/
theorem synthesize_fields_iff_person :
    Registry.initial.synthesize "Person" personSchema = .ok person ∧
    (person.fields = (Schema.written "Person" personSchema).fields ↔
      ∀ key ∈ personSchema.keys, isVariable key = true) ∧
    (person.fields = (Schema.declared "Person" personSchema).fields ↔
      (∀ key ∈ personSchema.keys, isVariable key = true) ∧
        ∀ e ∈ personSchema.entries, ∀ v ∈ e.2.detail.default, Json.parse? v.compact = some v) :=
  ⟨synthesize_person, synthesize_fields_iff synthesize_person⟩

/-- A person has fields that the schema does not declare. -/
theorem not_forall_synthesize_fields : ¬ ∀ (r : Registry) (name : String)
    (schema : Dict FieldBlueprint) (s : Structure), r.synthesize name schema = .ok s →
      s.fields = (Schema.declared name schema).fields := by
  intro h
  exact absurd (h _ _ _ _ synthesize_person) (by decide)

end Registry

/-! ## Another name -/

/-- The structure with another name in the place of one of its fields' names. -/
def Structure.renameField (old new : String) (s : Structure) : Structure :=
  { s with fields := (s.fields.rename old new).mapValues fun key f => { f with name := key } }

section

variable {before after : List (String × FieldBlueprint)}

namespace Schema

/-- What is read of a field does not depend on its name. -/
theorem written_rename (hnew : new ∉ schema.keys)
    (hentries : schema.entries = before ++ (old, b) :: after) :
    written name (schema.rename old new) = (written name schema).renameField old new := by
  have hwritten := entries_written name schema
  rw [hentries, List.map_append, List.map_cons] at hwritten
  have hfields : (written name (schema.rename old new)).fields =
      ((written name schema).renameField old new).fields := by
    refine Dict.ext ?_
    rw [entries_written, Dict.entries_rename hnew hentries]
    simp only [Structure.renameField, Dict.mapValues,
      Dict.entries_rename (keys_written name schema ▸ hnew) hwritten, List.map_append,
      List.map_cons, List.map_map]
    rfl
  exact congrArg (fun fields => (⟨name, some Structure.root, fields, false⟩ : Structure)) hfields

/-- A new name for a field matters only to the field before it. -/
theorem separate_rename (name : String) (hnew : new ∉ schema.keys)
    (hentries : schema.entries = before ++ (old, b) :: after)
    (h : Separate (declared name schema).fields.values) :
    Separate (declared name (schema.rename old new)).fields.values ↔
      ∀ e ∈ before.getLast?, new ∉ openWords (e.2.field e.1) := by
  rw [values_declared, hentries] at h
  rw [values_declared, Dict.entries_rename hnew hentries]
  simp only [Separate, List.map_append, List.map_cons, List.isChain_append, List.isChain_cons,
    List.getLast?_map, List.head?_cons, Option.mem_some_iff, forall_eq', Option.forall_mem_map]
    at h ⊢
  exact ⟨fun hall => hall.2.2, fun hbefore => ⟨h.1, h.2.1, hbefore⟩⟩

/-- What does not depend on the names of fields holds of all of them after one has a new name. -/
theorem forall_rename {p : Field → Prop} (hp : ∀ f key, p f → p { f with name := key })
    {g : String × FieldBlueprint → Field}
    (hg : ∀ key key' b, g (key', b) = { g (key, b) with name := key' })
    (hnew : new ∉ schema.keys) (hentries : schema.entries = before ++ (old, b) :: after)
    (h : ∀ f ∈ schema.entries.map g, p f) :
    ∀ f ∈ (schema.rename old new).entries.map g, p f := by
  rw [hentries] at h
  rw [Dict.entries_rename hnew hentries]
  simp only [List.map_append, List.map_cons, List.forall_mem_append, List.forall_mem_cons] at h ⊢
  exact ⟨h.1, hg old new b ▸ hp _ new h.2.1, h.2.2⟩

end Schema

/-- A field of a schema whose names are words can be given another word as its name, and what is
synthesized is the same but for that name, unless the word is one with which the field before could
go on: then the source cannot be read. -/
theorem Registry.synthesize_rename (hkeys : ∀ key ∈ schema.keys, isVariable key = true)
    (h : r.synthesize name schema = .ok s)
    (hentries : schema.entries = before ++ (old, b) :: after) (hword : isVariable new = true)
    (hnew : new ∉ schema.keys) :
    ((∀ e ∈ before.getLast?, new ∉ openWords (e.2.field e.1)) →
      r.synthesize name (schema.rename old new) = .ok (s.renameField old new)) ∧
    ((∃ e ∈ before.getLast?, new ∈ openWords (e.2.field e.1)) → ∃ fault location,
      r.synthesize name (schema.rename old new) = .error
        (.unreadable name fault location (Schema.render name (schema.rename old new)))) := by
  obtain ⟨hname, _⟩ := isVariable_of_synthesize h
  obtain ⟨⟨hseparate, hreadable⟩, rfl, hchecked⟩ := (synthesize_eq_ok_iff hname hkeys).1 h
  have hkeys' : ∀ key ∈ (schema.rename old new).keys, isVariable key = true := by
    rw [Dict.keys, hentries] at hkeys
    rw [Dict.keys, Dict.entries_rename hnew hentries]
    simp only [List.map_append, List.map_cons, List.forall_mem_append, List.forall_mem_cons]
      at hkeys ⊢
    exact ⟨hkeys.1, hword, hkeys.2.2⟩
  have hiff := Schema.separate_rename name hnew hentries hseparate
  constructor
  · intro hbefore
    refine (synthesize_eq_ok_iff hname hkeys').2
      ⟨⟨hiff.2 hbefore, ?_⟩, (Schema.written_rename hnew hentries).symm, ?_⟩
    · rw [Schema.values_declared] at hreadable ⊢
      exact Schema.forall_rename (fun _ _ hf => hf) (fun _ _ _ => rfl) hnew hentries hreadable
    · rw [Schema.values_written] at hchecked ⊢
      exact Schema.forall_rename (p := fun f => r.checkField name f = .ok ())
        (fun _ key hf => checkField_name hf key) (fun _ _ _ => rfl) hnew hentries hchecked
  · rintro ⟨e, he, hopen⟩
    cases hparse : SourceParser.parse? (Schema.render name (schema.rename old new)) with
    | ok ss =>
      obtain ⟨⟨hseparate', _⟩, _⟩ := (Schema.parse?_render hname hkeys').1 hparse
      exact absurd hopen (hiff.1 hseparate' e he)
    | error e =>
      refine ⟨e.1, e.2, ?_⟩
      simp only [synthesize, compile, hparse]
      rfl

end

/-! ## A letter -/

/-- A schema of which the first field has choices and no clause after them. -/
def letterSchema : Dict FieldBlueprint :=
  .ofList [("tone", .detailed { choices := ["warm", "cold"] }), ("note", .described "A remark")]

theorem synthesize_letter : Registry.initial.synthesize "Letter" letterSchema =
    .ok (Schema.written "Letter" letterSchema) :=
  eq_ok_of_toOption (by decide +kernel)

/-- The note can be called "in", for there are choices before it, but not "doc". -/
theorem Registry.synthesize_rename_note :
    ((∀ key ∈ letterSchema.keys, isVariable key = true) ∧
      Registry.initial.synthesize "Letter" letterSchema =
        .ok (Schema.written "Letter" letterSchema) ∧
      letterSchema.entries = [("tone", .detailed { choices := ["warm", "cold"] })] ++
        ("note", .described "A remark") :: [] ∧
      (isVariable "in" = true ∧ "in" ∉ letterSchema.keys) ∧
      isVariable "doc" = true ∧ "doc" ∉ letterSchema.keys) ∧
    Registry.initial.synthesize "Letter" (letterSchema.rename "note" "in") =
      .ok ((Schema.written "Letter" letterSchema).renameField "note" "in") ∧
    ∃ fault location, Registry.initial.synthesize "Letter" (letterSchema.rename "note" "doc") =
      .error (.unreadable "Letter" fault location
        (Schema.render "Letter" (letterSchema.rename "note" "doc"))) := by
  have hkeys : ∀ key ∈ letterSchema.keys, isVariable key = true := by decide
  have hentries : letterSchema.entries = [("tone", .detailed { choices := ["warm", "cold"] })] ++
      ("note", .described "A remark") :: [] := rfl
  have hin : isVariable "in" = true ∧ "in" ∉ letterSchema.keys := by decide
  have hdoc : isVariable "doc" = true ∧ "doc" ∉ letterSchema.keys := by decide
  exact ⟨⟨hkeys, synthesize_letter, hentries, hin, hdoc⟩,
    (synthesize_rename hkeys synthesize_letter hentries hin.1 hin.2).1 (by decide),
    (synthesize_rename hkeys synthesize_letter hentries hdoc.1 hdoc.2).2 (by decide)⟩

/-- A note that is called "doc" is taken for the description of the tone. -/
theorem Registry.not_forall_synthesize_rename : ¬ ∀ (r : Registry) (name : String)
    (schema : Dict FieldBlueprint) (s : Structure) (old new : String),
    (∀ key ∈ schema.keys, isVariable key = true) → r.synthesize name schema = .ok s →
      old ∈ schema.keys → isVariable new = true → new ∉ schema.keys →
      r.synthesize name (schema.rename old new) = .ok (s.renameField old new) := by
  intro h
  have hrenamed := h _ _ _ _ "note" "doc" (by decide) synthesize_letter (by decide) (by decide)
    (by decide)
  have hnone : (Registry.initial.synthesize "Letter"
      (letterSchema.rename "note" "doc")).toOption = none := by
    decide +kernel
  rw [hrenamed] at hnone
  cases hnone

end Conduit
