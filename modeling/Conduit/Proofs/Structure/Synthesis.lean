import Conduit.Proofs.Structure.Parser
import Conduit.Structure.Source.Render

/-!
# A schema and its structure

The source that is written for a schema is read as the structure that the schema declares
(`Schema.declared`), and that structure is accepted if its name and the names of its fields are
words, no field is called like the start of a clause, and each field fits (`FieldBlueprint.Fits`).
So synthesis gives every field of the schema, in its place and with all that is declared of it
(`Registry.synthesize_declared`). A field called `in`, `default` or `doc` would be taken for a
clause of the field before it.
-/

namespace Conduit

open Text SourceToken SourceParser

/-! ## What a schema declares -/

/-- The type of the values of a basic type; the keys of a dictionary are texts. -/
def BasicType.fieldType : BasicType → FieldType
  | text => .text
  | integer => .integer
  | boolean => .boolean
  | number => .number
  | date => .date
  | list => .anyList
  | dict => .anyDict .text

/-- The type that a full definition declares. Only a list has an item type, and only a dictionary
has key and value types. -/
def FieldDetail.fieldType (d : FieldDetail) : FieldType :=
  match d.type with
  | .list => d.itemType.elim .anyList fun item => .listOf item.fieldType
  | .dict =>
    let key := (d.keyType.getD .text).fieldType
    d.valueType.elim (.anyDict key) fun value => .dictOf key value.fieldType
  | type => type.fieldType

/-- The field that is declared under a name. -/
def FieldBlueprint.field (name : String) (f : FieldBlueprint) : Field where
  name
  type := f.detail.fieldType
  required := f.detail.required
  default := f.detail.default
  choices := f.detail.choices
  description := f.detail.description

/-- The structure that a schema declares under a name. -/
def Schema.declared (name : String) (schema : Dict FieldBlueprint) : Structure where
  name
  parent := some Structure.root
  fields := schema.mapValues FieldBlueprint.field
  native := false

/-- A declared field fits: only a text has choices, and a default is of the field's type and among
its choices. A default is in canonical form, as every value is that has been read, and it can be
written and read back: it has no floating numbers and is not nested too deep for the reader. -/
structure FieldBlueprint.Fits (r : Registry) (owner name : String) (f : FieldBlueprint) : Prop where
  choices : f.detail.choices ≠ [] → f.detail.type = .text
  integral : ∀ v ∈ f.detail.default, v.isIntegral = true
  canonical : ∀ v ∈ f.detail.default, v.canonical = v
  depth : ∀ v ∈ f.detail.default, v.depth ≤ Json.Parser.maxNesting
  accepted : ∀ v ∈ f.detail.default, r.check owner name f.detail.fieldType v = .ok ()
  chosen : ∀ v ∈ f.detail.default, f.detail.choices ≠ [] → ∃ s ∈ f.detail.choices, v = .string s

instance (r : Registry) (owner name : String) (f : FieldBlueprint) :
    Decidable (f.Fits r owner name) :=
  decidable_of_iff ((f.detail.choices ≠ [] → f.detail.type = .text) ∧
    ∀ v ∈ f.detail.default, v.isIntegral = true ∧ v.canonical = v ∧
      v.depth ≤ Json.Parser.maxNesting ∧ r.check owner name f.detail.fieldType v = .ok () ∧
      (f.detail.choices ≠ [] → ∃ s ∈ f.detail.choices, v = .string s))
    ⟨fun ⟨hchoices, h⟩ => ⟨hchoices, fun v hv => (h v hv).1, fun v hv => (h v hv).2.1,
        fun v hv => (h v hv).2.2.1, fun v hv => (h v hv).2.2.2.1, fun v hv => (h v hv).2.2.2.2⟩,
      fun h => ⟨h.choices, fun v hv => ⟨h.integral v hv, h.canonical v hv, h.depth v hv,
        h.accepted v hv, h.chosen v hv⟩⟩⟩

/-! ## Types -/

theorem BasicType.isVariable_keyword (t : BasicType) : isVariable t.keyword = true := by
  cases t <;> decide

theorem BasicType.writesType (t : BasicType) : WritesType [.word t.keyword] t.fieldType := by
  cases t <;> constructor

theorem BasicType.mentions_fieldType (t : BasicType) : t.fieldType.mentions = [] := by
  cases t <;> rfl

/-- A declared type mentions no structure. -/
theorem FieldDetail.mentions_fieldType (d : FieldDetail) : d.fieldType.mentions = [] := by
  unfold fieldType
  cases d.type with
  | text | integer | boolean | number | date => rfl
  | list =>
    cases d.itemType with
    | none => rfl
    | some item => exact item.mentions_fieldType
  | dict =>
    cases d.valueType with
    | none => exact BasicType.mentions_fieldType _
    | some value => simp [FieldType.mentions, BasicType.mentions_fieldType]

namespace Schema

variable {cs : List Char} {lexemes : List Lexeme}

/-- A type is a phrase of lexemes that write it. -/
theorem typeText_spells (d : FieldDetail) :
    ∃ type, WritesType type d.fieldType ∧ Phrase (typeText d).toList type := by
  have hkeyword : ∀ t : BasicType, Phrase t.keyword.toList [.word t.keyword] :=
    fun t => phrase_word t.isVariable_keyword
  unfold typeText FieldDetail.fieldType
  cases d.type with
  | text | integer | boolean | number | date => exact ⟨_, BasicType.writesType _, hkeyword _⟩
  | list =>
    cases d.itemType with
    | none => exact ⟨_, .anyList, hkeyword .list⟩
    | some item =>
      refine ⟨_, .listOf item.writesType, ?_⟩
      simpa using (hkeyword item).argument (w := "list") (by decide)
  | dict =>
    generalize d.keyType.getD .text = key
    cases d.valueType with
    | none =>
      refine ⟨_, .anyDict key.writesType, ?_⟩
      simpa using (hkeyword key).argument (w := "dict") (by decide)
    | some value =>
      refine ⟨_, .dictOf key.writesType value.writesType, ?_⟩
      simpa using (hkeyword key).arguments (w := "dict") (by decide) (hkeyword value)

/-! ## Clauses -/

/-- Literals with commas between them are spelled. -/
theorem literals_spells (choice : String) (more : List String) (h : Spells cs lexemes) :
    Spells ((", ".intercalate ((choice :: more).map Json.quoted)).toList ++ cs)
      (((choice :: more).map Lexeme.literal).intersperse (.mark ',') ++ lexemes) := by
  induction more generalizing choice with
  | nil => exact .literal choice h
  | cons next more ih =>
    have htext : (", ".intercalate ((choice :: next :: more).map Json.quoted)).toList ++ cs =
        (Json.quoted choice).toList ++ ',' :: ' ' ::
          ((", ".intercalate ((next :: more).map Json.quoted)).toList ++ cs) := by
      simp [String.intercalate_cons_cons]
    rw [htext]
    exact .literal choice (.mark (by decide) (ih next).space)

theorem choicesText_spells (choices : List String) (h : Spells cs lexemes) :
    Spells ((choicesText choices).toList ++ cs) (choicesLexemes choices ++ lexemes) := by
  cases choices with
  | nil => exact h
  | cons choice more =>
    have htext : (choicesText (choice :: more)).toList ++ cs = ' ' :: ("in".toList ++ ' ' :: '[' ::
        ((", ".intercalate ((choice :: more).map Json.quoted)).toList ++ ']' :: cs)) := by
      simp [choicesText]
    have hlexemes : choicesLexemes (choice :: more) ++ lexemes = .word "in" :: .mark '[' ::
        (((choice :: more).map Lexeme.literal).intersperse (.mark ',') ++
          .mark ']' :: lexemes) := by
      simp [choicesLexemes]
    rw [htext, hlexemes]
    have hclose : Spells (']' :: cs) (.mark ']' :: lexemes) := .mark (by decide) h
    have hopen := Spells.mark (c := '[') (by decide) (literals_spells choice more hclose)
    exact (Spells.word_cons (by decide) (by decide) hopen.space).space

/-- A clause that is a word and a literal is spelled. -/
theorem clause_spells {name : String} (hname : isVariable name = true) (text : String)
    (h : Spells cs lexemes) :
    Spells (' ' :: (name.toList ++ ' ' :: ((Json.quoted text).toList ++ cs)))
      (.word name :: .literal text :: lexemes) :=
  (Spells.word_cons hname (by decide) (Spells.literal text h).space).space

theorem defaultText_spells (default : Option Json) (h : Spells cs lexemes) :
    Spells ((defaultText default).toList ++ cs) (defaultLexemes default ++ lexemes) := by
  cases default with
  | none => exact h
  | some v =>
    have htext : (defaultText (some v)).toList ++ cs =
        ' ' :: ("default".toList ++ ' ' :: ((Json.quoted v.compact).toList ++ cs)) := by
      simp [defaultText]
    rw [htext]
    exact clause_spells (by decide) v.compact h

theorem descriptionText_spells (description : Option String) (h : Spells cs lexemes) :
    Spells ((descriptionText description).toList ++ cs)
      (descriptionLexemes description ++ lexemes) := by
  cases description with
  | none => exact h
  | some text =>
    have htext : (descriptionText (some text)).toList ++ cs =
        ' ' :: ("doc".toList ++ ' ' :: ((Json.quoted text).toList ++ cs)) := by
      simp [descriptionText]
    rw [htext]
    exact clause_spells (by decide) text h

/-! ## Fields -/

/-- A word ends before a text that starts with a blank, if it starts at all. -/
theorem endsWord_append {text : List Char} (htext : ∀ c ∈ text.head?, c = ' ')
    (hcs : EndsWord cs) : EndsWord (text ++ cs) := by
  cases text with
  | nil => exact hcs
  | cons c text =>
    obtain rfl := htext c rfl
    exact endsWord_cons (by decide) _

theorem head?_choicesText (choices : List String) :
    ∀ c ∈ (choicesText choices).toList.head?, c = ' ' := by
  unfold choicesText
  split <;> simp

theorem head?_defaultText (default : Option Json) :
    ∀ c ∈ (defaultText default).toList.head?, c = ' ' := by
  cases default <;> simp [defaultText]

theorem head?_descriptionText (description : Option String) :
    ∀ c ∈ (descriptionText description).toList.head?, c = ' ' := by
  cases description <;> simp [descriptionText]

/-- The line of a field is spelled by lexemes that write the field. -/
theorem fieldText_spells {key : String} (hkey : isVariable key = true) (f : FieldBlueprint) :
    ∃ type, WritesType type f.detail.fieldType ∧ ∀ {cs lexemes}, Spells cs lexemes →
      Spells ((fieldText key f).toList ++ cs)
        (.word key :: (fieldLexemes type (f.field key) ++ lexemes)) := by
  obtain ⟨type, hwrites, htype⟩ := typeText_spells f.detail
  refine ⟨type, hwrites, fun {cs lexemes} h => ?_⟩
  -- the line is built from its end, for each word needs to know what follows it
  have hdescription := descriptionText_spells f.detail.description h.line
  have hdefault := defaultText_spells f.detail.default hdescription
  have hchoices := choicesText_spells f.detail.choices hdefault
  have hends := endsWord_append (head?_choicesText f.detail.choices) (endsWord_append
    (head?_defaultText f.detail.default) (endsWord_append
      (head?_descriptionText f.detail.description) (endsWord_cons (c := '\n') (by decide) cs)))
  have hcolon := Spells.mark (c := ':') (by decide) (htype hends hchoices).space
  have htext : (fieldText key f).toList ++ cs = ' ' :: ' ' :: ' ' :: ' ' :: (key.toList ++
      ((if f.detail.required then [] else ['?']) ++ ':' :: ' ' :: ((typeText f.detail).toList ++
        ((choicesText f.detail.choices).toList ++ ((defaultText f.detail.default).toList ++
          ((descriptionText f.detail.description).toList ++ '\n' :: cs)))))) := by
    cases hrequired : f.detail.required <;> simp [fieldText, hrequired]
  have hlexemes : fieldLexemes type (f.field key) ++ lexemes =
      (if f.detail.required then [] else [.mark '?']) ++ .mark ':' :: (type ++
        (choicesLexemes f.detail.choices ++ (defaultLexemes f.detail.default ++
          (descriptionLexemes f.detail.description ++ lexemes)))) := by
    simp only [fieldLexemes, List.append_assoc, List.cons_append]
    rfl
  rw [htext, hlexemes]
  refine .space (.space (.space (.space ?_)))
  cases f.detail.required with
  | true => exact .word_cons hkey (by decide) hcolon
  | false => exact .word_cons hkey (by decide) (.mark (by decide) hcolon)

/-- The lines of fields are spelled by lexemes that write the fields. -/
theorem fieldTexts_spells {fs : List (String × FieldBlueprint)}
    (hkeys : ∀ e ∈ fs, isVariable e.1 = true) :
    ∃ fields, Writes fields (fs.map fun (k, f) => f.field k) ∧
      ∀ {cs lexemes}, Spells cs lexemes →
        Spells ((String.join (fs.map fun (k, f) => fieldText k f)).toList ++ cs)
          (fields ++ lexemes) := by
  induction fs with
  | nil => exact ⟨[], .nil, fun h => h⟩
  | cons e fs ih =>
    obtain ⟨k, f⟩ := e
    rw [List.forall_mem_cons] at hkeys
    obtain ⟨more, hmore, hspells⟩ := ih hkeys.2
    obtain ⟨type, htype, hline⟩ := fieldText_spells hkeys.1 f
    refine ⟨_, .cons (f := f.field k) htype hmore, fun {cs lexemes} h => ?_⟩
    have hname : (f.field k).name = k := rfl
    have hjoin := hline (hspells h)
    simpa [hname] using hjoin

theorem values_declared (name : String) (schema : Dict FieldBlueprint) :
    (declared name schema).fields.values = schema.entries.map fun (k, f) => f.field k := by
  simp [declared, Dict.values, Dict.mapValues]

/-- The source of a schema is spelled by lexemes that write the fields that the schema declares. -/
theorem render_writes {name : String} (hname : isVariable name = true)
    {schema : Dict FieldBlueprint} (hkeys : ∀ key ∈ schema.keys, isVariable key = true) :
    ∃ fields, Writes fields (declared name schema).fields.values ∧
      Spells (render name schema).toList (structureLexemes name Structure.root fields) := by
  obtain ⟨fields, hfields, hspells⟩ :=
    fieldTexts_spells fun e (he : e ∈ schema.entries) => hkeys e.1 (List.mem_map_of_mem he)
  refine ⟨fields, values_declared name schema ▸ hfields, ?_⟩
  have htext : (render name schema).toList = "structure".toList ++ ' ' :: (name.toList ++ ' ' ::
      ("extends".toList ++ ' ' :: (Structure.root.toList ++ ' ' :: '\x7b' :: '\n' ::
        ((String.join (schema.entries.map fun (k, f) => fieldText k f)).toList ++
          ['\x7d', '\n'])))) := by
    simp [render]
  have hclose : Spells ['\x7d', '\n'] [.mark '\x7d'] := .mark (by decide) Spells.nil.line
  have hopen := Spells.mark (c := '\x7b') (by decide) (hspells hclose).line
  have hroot : Spells (Structure.root.toList ++ ' ' :: _) _ :=
    .word_cons (by decide) (by decide) hopen.space
  have hextends : Spells ("extends".toList ++ ' ' :: _) _ :=
    .word_cons (by decide) (by decide) hroot.space
  rw [htext]
  exact .word_cons (by decide) (by decide) (Spells.word_cons hname (by decide) hextends.space).space

/-- The source of a schema is spelled by lexemes that write what the schema declares. -/
theorem render_spells {name : String} (hname : isVariable name = true)
    {schema : Dict FieldBlueprint}
    (hkeys : ∀ e ∈ schema.entries, isVariable e.1 = true ∧ e.1 ∉ clauseWords)
    (hdefaults : ∀ e ∈ schema.entries, ∀ v ∈ e.2.detail.default, Json.parse? v.compact = some v) :
    ∃ fields, WritesFields fields (declared name schema).fields.entries ∧
      Spells (render name schema).toList (structureLexemes name Structure.root fields) := by
  obtain ⟨fields, hfields, hspells⟩ :=
    render_writes hname (List.forall_mem_map.2 fun e he => (hkeys e he).1)
  refine ⟨fields, writesFields_iff.2 ⟨hfields, ?_⟩, hspells⟩
  unfold declared Dict.mapValues
  dsimp only
  rw [List.forall_mem_map]
  exact fun e he => ⟨rfl, (hkeys e he).2, hdefaults e he⟩

end Schema

/-! ## Synthesis -/

namespace Registry

variable {r : Registry} {name : String} {schema : Dict FieldBlueprint}

/-- A field that fits is accepted. -/
theorem checkField_field {key : String} {f : FieldBlueprint} (h : f.Fits r name key) :
    r.checkField name (f.field key) = .ok () := by
  have hmentions : (f.field key).type.mentions = [] := f.detail.mentions_fieldType
  have hchoices : (!(f.field key).choices.isEmpty && (f.field key).type != .text) = false := by
    by_cases hnone : f.detail.choices = []
    · simp [FieldBlueprint.field, hnone]
    · simp [FieldBlueprint.field, FieldDetail.fieldType, BasicType.fieldType, h.choices hnone]
  unfold checkField
  simp only [hmentions, List.find?_nil, hchoices, Bool.false_eq_true, if_false]
  cases hdefault : f.detail.default with
  | none => simp only [FieldBlueprint.field, hdefault]
  | some v =>
    have haccepted : r.check name (f.field key).name (f.field key).type v = .ok () :=
      h.accepted v hdefault
    have hadmits : (f.field key).admits v = true := by
      by_cases hnone : f.detail.choices = []
      · simp [Field.admits, FieldBlueprint.field, hnone]
      · obtain ⟨s, hs, rfl⟩ := h.chosen v hdefault hnone
        simp [Field.admits, FieldBlueprint.field, hs]
    have hvalue : (f.field key).default = some v := hdefault
    simp only [hvalue, haccepted, hadmits, Except.mapError, ok_bind, if_true]
    rfl

/-- The structure that a schema declares is accepted if its fields fit. -/
theorem accept_declared (h : ∀ e ∈ schema.entries, e.2.Fits r name e.1) :
    r.accept name [Schema.declared name schema] = .ok (Schema.declared name schema) := by
  have hparent : r.checkParent (Schema.declared name schema) = .ok () := by
    simp [checkParent, Schema.declared]
  have hfields : (Schema.declared name schema).fields.values.forM
      (r.checkField (Schema.declared name schema).name) = .ok () := by
    rw [forM_eq_ok_iff]
    intro f hf
    simp only [Schema.declared, Dict.values, Dict.mapValues, List.map_map, List.mem_map] at hf
    obtain ⟨e, he, rfl⟩ := hf
    exact checkField_field (h e he)
  have hname : ((Schema.declared name schema).name != name) = false := by simp [Schema.declared]
  simp only [accept, hname, hparent, hfields, ok_bind, Bool.false_eq_true, if_false]
  rfl

/-- Synthesis gives the structure that a schema declares. -/
theorem synthesize_declared (hname : isVariable name = true)
    (hkeys : ∀ key ∈ schema.keys, isVariable key = true ∧ key ∉ ["in", "default", "doc"])
    (hfits : ∀ e ∈ schema.entries, e.2.Fits r name e.1) :
    r.synthesize name schema = .ok (Schema.declared name schema) := by
  have hdefaults : ∀ e ∈ schema.entries, ∀ v ∈ e.2.detail.default,
      Json.parse? v.compact = some v := by
    intro e he v hv
    have hread := Json.parse?_compact ((hfits e he).integral v hv) ((hfits e he).depth v hv)
    rwa [(hfits e he).canonical v hv] at hread
  obtain ⟨fields, hfields, hspells⟩ :=
    Schema.render_spells hname (fun e he => hkeys e.1 (List.mem_map_of_mem he)) hdefaults
  obtain ⟨ts, hscan, hts⟩ := scanFrom_spells hspells .start
  have hall := all_reads hfields hts
  have hparse : SourceParser.parse? (Schema.render name schema) =
      .ok [Schema.declared name schema] := by
    simp only [SourceParser.parse?, SourceToken.scan, hscan, ok_bind, hall, Except.mapError]
    rfl
  simp only [synthesize, compile, hparse, Except.mapError, ok_bind, accept_declared hfits]

/-! ## A verdict -/

/-- A schema with a field of each form: described only, optional with a default, with choices, and
with the type of its items. -/
def verdictSchema : Dict FieldBlueprint :=
  .ofList [
    ("summary", .described "Résumé\nof the \"case\""),
    ("score", .detailed { type := .integer, required := false, default := some (.ofNat 0) }),
    ("label", .detailed { default := some (.string "good"), choices := ["good", "bad"] }),
    ("tags", .detailed { description := some "Tags", type := .list, itemType := some .text,
                         default := some (.array [.string "new"]) })]

/-- The structure of a verdict is the one that its schema declares. -/
theorem synthesize_declared_verdict :
    (∀ key ∈ verdictSchema.keys, isVariable key = true ∧ key ∉ ["in", "default", "doc"]) ∧
    (∀ e ∈ verdictSchema.entries, e.2.Fits Registry.initial "Verdict" e.1) ∧
    Registry.initial.synthesize "Verdict" verdictSchema =
      .ok (Schema.declared "Verdict" verdictSchema) ∧
    (Schema.declared "Verdict" verdictSchema).fields.get? "label" =
      some ⟨"label", .text, true, some (.string "good"), ["good", "bad"], none⟩ := by
  have hkeys : ∀ key ∈ verdictSchema.keys,
      isVariable key = true ∧ key ∉ ["in", "default", "doc"] := by
    decide +kernel
  have hfits : ∀ e ∈ verdictSchema.entries, e.2.Fits Registry.initial "Verdict" e.1 := by
    decide +kernel
  exact ⟨hkeys, hfits, synthesize_declared (by decide) hkeys hfits, by decide +kernel⟩

end Registry

end Conduit
