import Conduit.Blueprint.Bundle
import Conduit.Proofs.Blueprint.Rereads

/-!
# Bundles are read back

What a bundle writes, with every default written out, is read as the same bundle
(`Bundle.ofJson?_toJson`), if the bundle was read from a value itself. A short form stays short and
is never read as a full one, since only a text is in short form; a pipe has the type that its body
writes, and its own fields and those of its signature have distinct keys (`PipeBody.nodup_keys`). A
bundle that was not read need not be read back: the default of a field may be out of canonical form,
and a count may be too large for an integer.
-/

namespace Conduit

open Json

/-! ## Fields -/

theorem BasicType.rereads : Rereads BasicType.ofJson? fun t => .string t.keyword := by
  intro v t _
  cases t <;> rfl

theorem BasicType.rereads_optional : RereadsField (Json.optional BasicType.ofJson?)
    fun t => Json.ofText? (t.map BasicType.keyword) := by
  intro field t _
  cases t with
  | none => rfl
  | some t => cases t <;> rfl

theorem FieldDetail.rereads_default :
    RereadsField (Json.optional fun v => some v.canonical) fun v => v.getD .null := by
  intro field d h
  have hoptional := rereads_canonical.optional
    (fun v w hw hne => by cases hw; exact canonical_ne_null hne) h
  cases d <;> exact hoptional

theorem FieldDetail.nodup_keys : FieldDetail.keys.Nodup := by decide

theorem FieldDetail.rereads : Rereads FieldDetail.ofJson? FieldDetail.toJson := by
  intro v d h
  simp only [FieldDetail.ofJson?, Option.bind_eq_bind, Option.bind_eq_some_iff, Option.pure_def,
    Option.some.injEq] at h ⊢
  obtain ⟨get, -, description, hdescription, type, htype, required, hrequired, default, hdefault,
    choices, hchoices, item, hitem, key, hkey, value, hvalue, rfl⟩ := h
  exact ⟨_, fields?_object FieldDetail.nodup_keys,
    _, rereads_optional_text hdescription,
    _, (BasicType.rereads.defaulted rfl) htype,
    _, (rereads_bool.defaulted rfl) hrequired,
    _, FieldDetail.rereads_default hdefault,
    _, (rereads_text.list.defaulted rfl) hchoices,
    _, BasicType.rereads_optional hitem,
    _, BasicType.rereads_optional hkey,
    _, BasicType.rereads_optional hvalue, rfl⟩

/-- A description alone is written as a text and a full definition as an object, so neither is read
as the other. -/
theorem FieldBlueprint.rereads : Rereads FieldBlueprint.ofJson? FieldBlueprint.toJson := by
  intro v f h
  unfold FieldBlueprint.ofJson? at h
  split at h
  · cases h
    rfl
  · obtain ⟨d, hd, rfl⟩ := Option.map_eq_some_iff.1 h
    show (FieldDetail.ofJson? d.toJson).map _ = _
    rw [FieldDetail.rereads hd]
    rfl

/-! ## Concepts -/

theorem StructureBlueprint.rereads :
    Rereads StructureBlueprint.ofJson? StructureBlueprint.toJson := by
  intro v s h
  unfold StructureBlueprint.ofJson? at h
  split at h
  · cases h
    rfl
  · obtain ⟨fields, hfields, rfl⟩ := Option.map_eq_some_iff.1 h
    show ((Json.ofDict FieldBlueprint.toJson fields).dict? FieldBlueprint.ofJson?).map _ = _
    rw [FieldBlueprint.rereads.dict hfields]
    rfl

theorem StructureBlueprint.toJson_ne_null {s : StructureBlueprint} : s.toJson ≠ .null := by
  cases s <;> nofun

theorem ConceptDetail.rereads : Rereads ConceptDetail.ofJson? ConceptDetail.toJson := by
  intro v d h
  simp only [ConceptDetail.ofJson?, Option.bind_eq_bind, Option.bind_eq_some_iff, Option.pure_def,
    Option.some.injEq] at h ⊢
  obtain ⟨get, -, description, hdescription, shape, hshape, refines, hrefines, rfl⟩ := h
  have hkeys : ["description", "structure", "refines"].Nodup := by decide
  exact ⟨_, fields?_object hkeys,
    _, (rereads_text.defaulted rfl) hdescription,
    _, (StructureBlueprint.rereads.optional
      fun _ _ _ _ => StructureBlueprint.toJson_ne_null) hshape,
    _, rereads_optional_text hrefines, rfl⟩

theorem ConceptBlueprint.rereads : Rereads ConceptBlueprint.ofJson? ConceptBlueprint.toJson := by
  intro v c h
  unfold ConceptBlueprint.ofJson? at h
  split at h
  · cases h
    rfl
  · obtain ⟨d, hd, rfl⟩ := Option.map_eq_some_iff.1 h
    show (ConceptDetail.ofJson? d.toJson).map _ = _
    rw [ConceptDetail.rereads hd]
    rfl

/-! ## Pipes -/

theorem StepBlueprint.rereads : Rereads StepBlueprint.ofJson? StepBlueprint.toJson := by
  intro v s h
  simp only [StepBlueprint.ofJson?, Option.bind_eq_bind, Option.bind_eq_some_iff, Option.pure_def,
    Option.some.injEq] at h ⊢
  obtain ⟨get, -, pipe, hpipe, result, hresult, count, hcount, multiple, hmultiple, list, hlist,
    item, hitem, rfl⟩ := h
  have hkeys : ["pipe", "result", "nb_output", "multiple_output", "batch_over", "batch_as"].Nodup :=
    by decide
  exact ⟨_, fields?_object hkeys,
    _, rereads_text.required hpipe,
    _, rereads_optional_text hresult,
    _, rereads_optional_count hcount,
    _, rereads_optional_bool hmultiple,
    _, rereads_optional_text hlist,
    _, rereads_optional_text hitem, rfl⟩

theorem rereads_steps : RereadsField steps? fun steps => .array (steps.map StepBlueprint.toJson) :=
  StepBlueprint.rereads.list.defaulted rfl

section Fields

variable {get get' : String → Option Json}

/-- A signature is read again from all fields that hold what it writes. -/
theorem Signature.ofFields?_of_hold {s : Signature} (h : Signature.ofFields? get = some s)
    (hhold : Hold get' s.members) : Signature.ofFields? get' = some s := by
  simp only [Signature.ofFields?, Option.bind_eq_bind, Option.bind_eq_some_iff, Option.pure_def,
    Option.some.injEq] at h ⊢
  obtain ⟨description, hdescription, inputs, hinputs, output, houtput, rfl⟩ := h
  obtain ⟨hget, hget', hget'', -⟩ := by simpa only [Signature.members, hold_cons] using hhold
  rw [hget, hget', hget'']
  exact ⟨_, (rereads_text.defaulted rfl) hdescription,
    _, (rereads_text.dict.defaulted rfl) hinputs,
    _, rereads_text.required houtput, rfl⟩

theorem ConditionBlueprint.ofFields?_of_hold {c : ConditionBlueprint}
    (h : ConditionBlueprint.ofFields? get = some c)
    (hhold : Hold get' (PipeBody.condition c).members) :
    ConditionBlueprint.ofFields? get' = some c := by
  simp only [ConditionBlueprint.ofFields?, Option.bind_eq_bind, Option.bind_eq_some_iff,
    Option.pure_def, Option.some.injEq] at h ⊢
  obtain ⟨expression, hexpression, template, htemplate, outcomes, houtcomes, default, hdefault,
    aliasTo, haliasTo, rfl⟩ := h
  obtain ⟨hget₁, hget₂, hget₃, hget₄, hget₅, -⟩ := by
    simpa only [PipeBody.members, hold_cons] using hhold
  rw [hget₁, hget₂, hget₃, hget₄, hget₅]
  exact ⟨_, rereads_optional_text hexpression,
    _, rereads_optional_text htemplate,
    _, (rereads_text.dict.defaulted rfl) houtcomes,
    _, rereads_text.required hdefault,
    _, rereads_optional_text haliasTo, rfl⟩

/-- What was read of a pipe of some type writes that type, and it is read again from all fields that
hold what it writes. -/
theorem PipeBody.ofFields?_of_hold {type : String} {b : PipeBody}
    (h : PipeBody.ofFields? type get = some b) (hhold : Hold get' b.members) :
    b.typeName = type ∧ PipeBody.ofFields? type get' = some b := by
  unfold PipeBody.ofFields? at h ⊢
  -- one case for each type of pipe, in the order of the reader
  split at h
  case h_10 => cases h
  all_goals
    simp only [Option.bind_eq_bind, Option.bind_eq_some_iff, Option.pure_def,
      Option.some.injEq] at h ⊢
  case h_1 =>
    obtain ⟨steps, hsteps, rfl⟩ := h
    obtain ⟨hget, -⟩ := by simpa only [PipeBody.members, hold_cons] using hhold
    rw [hget]
    exact ⟨rfl, _, rereads_steps hsteps, rfl⟩
  case h_2 =>
    obtain ⟨branches, hbranches, addEach, haddEach, combined, hcombined, rfl⟩ := h
    obtain ⟨hget₁, hget₂, hget₃, -⟩ := by simpa only [PipeBody.members, hold_cons] using hhold
    rw [hget₁, hget₂, hget₃]
    exact ⟨rfl, _, rereads_steps hbranches, _, (rereads_bool.defaulted rfl) haddEach,
      _, rereads_optional_text hcombined, rfl⟩
  case h_3 =>
    obtain ⟨c, hc, rfl⟩ := h
    exact ⟨rfl, c, ConditionBlueprint.ofFields?_of_hold hc hhold, rfl⟩
  case h_4 =>
    obtain ⟨branch, hbranch, list, hlist, item, hitem, rfl⟩ := h
    obtain ⟨hget₁, hget₂, hget₃, -⟩ := by simpa only [PipeBody.members, hold_cons] using hhold
    rw [hget₁, hget₂, hget₃]
    exact ⟨rfl, _, rereads_text.required hbranch, _, rereads_text.required hlist,
      _, rereads_text.required hitem, rfl⟩
  case h_5 =>
    obtain ⟨prompt, hprompt, system, hsystem, count, hcount, multiple, hmultiple, rfl⟩ := h
    obtain ⟨hget₁, hget₂, hget₃, hget₄, -⟩ := by
      simpa only [PipeBody.members, hold_cons] using hhold
    rw [hget₁, hget₂, hget₃, hget₄]
    exact ⟨rfl, _, rereads_text.required hprompt, _, rereads_optional_text hsystem,
      _, rereads_optional_count hcount, _, rereads_optional_bool hmultiple, rfl⟩
  case h_6 =>
    obtain ⟨prompt, hprompt, count, hcount, rfl⟩ := h
    obtain ⟨hget₁, hget₂, -⟩ := by simpa only [PipeBody.members, hold_cons] using hhold
    rw [hget₁, hget₂]
    exact ⟨rfl, _, rereads_optional_text hprompt, _, rereads_optional_count hcount, rfl⟩
  case h_7 =>
    obtain ⟨pageViews, hpageViews, rfl⟩ := h
    obtain ⟨hget, -⟩ := by simpa only [PipeBody.members, hold_cons] using hhold
    rw [hget]
    exact ⟨rfl, _, (rereads_bool.defaulted rfl) hpageViews, rfl⟩
  case h_8 =>
    obtain ⟨name, hname, rfl⟩ := h
    obtain ⟨hget, -⟩ := by simpa only [PipeBody.members, hold_cons] using hhold
    rw [hget]
    exact ⟨rfl, _, rereads_text.required hname, rfl⟩
  case h_9 =>
    obtain ⟨template, htemplate, rfl⟩ := h
    obtain ⟨hget, -⟩ := by simpa only [PipeBody.members, hold_cons] using hhold
    rw [hget]
    exact ⟨rfl, _, rereads_text.required htemplate, rfl⟩

end Fields

/-- A pipe writes the keys of its type. -/
theorem PipeBody.map_fst_members (b : PipeBody) :
    b.members.map Prod.fst = PipeBody.keys b.typeName := by
  cases b <;> rfl

/-- The keys of a type of pipe are not those of a signature, and none comes twice. -/
theorem PipeBody.nodup_keys (b : PipeBody) :
    ("type" :: (Signature.keys ++ PipeBody.keys b.typeName)).Nodup := by
  cases b <;> simp [Signature.keys, PipeBody.keys, PipeBody.typeName]

theorem PipeBlueprint.nodup_members (p : PipeBlueprint) :
    ((("type", .string p.body.typeName) :: (p.signature.members ++ p.body.members)).map
      (Prod.fst : String × Json → String)).Nodup := by
  rw [List.map_cons, List.map_append, PipeBody.map_fst_members]
  exact PipeBody.nodup_keys p.body

theorem PipeBlueprint.rereads : Rereads PipeBlueprint.ofJson? PipeBlueprint.toJson := by
  intro v p h
  unfold PipeBlueprint.ofJson? at h
  split at h
  · simp only [Option.bind_eq_bind, Option.bind_eq_some_iff, Option.pure_def,
      Option.some.injEq] at h
    obtain ⟨type, -, get, -, body, hbody, signature, hsignature, rfl⟩ := h
    have hnodup := PipeBlueprint.nodup_members ⟨signature, body⟩
    obtain ⟨htype, hhold⟩ := hold_cons.1 (hold_member? hnodup)
    obtain ⟨hholdSignature, hholdBody⟩ := hold_append.1 hhold
    obtain ⟨rfl, hbody'⟩ := PipeBody.ofFields?_of_hold hbody hholdBody
    have hsignature' := Signature.ofFields?_of_hold hsignature hholdSignature
    simp only [PipeBlueprint.toJson, PipeBlueprint.ofJson?, Option.bind_eq_bind,
      Option.bind_eq_some_iff, Option.pure_def, Option.some.injEq]
    rw [htype]
    exact ⟨_, rfl, _, objectFields?_of_nodup hnodup, _, hbody', _, hsignature', rfl⟩
  · cases h

/-! ## Bundles -/

theorem Bundle.rereads : Rereads Bundle.ofJson? Bundle.toJson := by
  intro v b h
  simp only [Bundle.ofJson?, Option.bind_eq_bind, Option.bind_eq_some_iff, Option.pure_def,
    Option.some.injEq] at h ⊢
  obtain ⟨get, -, code, hcode, description, hdescription, system, hsystem, concepts, hconcepts,
    pipes, hpipes, main, hmain, rfl⟩ := h
  have hkeys : Bundle.keys.Nodup := by decide
  exact ⟨_, fields?_object hkeys,
    _, rereads_text.required hcode,
    _, rereads_optional_text hdescription,
    _, rereads_optional_text hsystem,
    _, (ConceptBlueprint.rereads.dict.defaulted rfl) hconcepts,
    _, (PipeBlueprint.rereads.dict.defaulted rfl) hpipes,
    _, rereads_optional_text hmain, rfl⟩

/-- What is written of a bundle that was read from a value is read as the same bundle: with the same
domain and main pipe, with the same concepts, fields, pipes, inputs and outcomes in their order, and
with everything that they declare. -/
theorem Bundle.ofJson?_toJson {v : Json} {b : Bundle} (h : Bundle.ofJson? v = some b) :
    Bundle.ofJson? b.toJson = some b :=
  Bundle.rereads h

/-- A bundle in its shorter forms: a record as an array, a type as an object with one key, fields
and concepts as texts, a default whose members are out of order, and most keys left out. -/
def archiveJson : Json :=
  .object [
    ("main_pipe", .string "catalogue"),
    ("domain", .string "archive"),
    ("description", .null),
    ("concept", .object [
      ("Volume", .array [.string "A bound volume", .object [
        ("title", .string "Title on the spine"),
        ("pages", .object [("type", .object [("integer", .null)]), ("default", .ofNat 1)]),
        ("marks", .object [
          ("type", .string "dict"), ("required", .bool false),
          ("default", .object [("z", .null), ("a", .bool true)])])]]),
      ("Shelf", .string "Where volumes stand")]),
    ("pipe", .object [
      ("catalogue", .object [
        ("steps", .array [.array [.string "entitle", .string "heading"]]),
        ("output", .string "Text"),
        ("type", .string "PipeSequence")]),
      ("entitle", .object [
        ("type", .string "PipeLLM"),
        ("inputs", .object [("volume", .string "Volume"), ("shelf", .string "Shelf")]),
        ("output", .string "Text"),
        ("prompt_template", .string "Give $volume a title"),
        ("nb_output", .ofNat 2)]),
      ("sort", .object [
        ("type", .string "PipeCondition"),
        ("output", .string "Text"),
        ("outcomes", .object [("yes", .string "entitle"), ("no", .string "fail")]),
        ("default_outcome", .string "continue")])])]

/-- The bundle that it writes. -/
def archiveBundle : Bundle where
  domain := ⟨"archive", none, none⟩
  concepts := .ofList [
    ("Volume", .detailed { description := "A bound volume", shape := some (.schema (.ofList [
      ("title", .described "Title on the spine"),
      ("pages", .detailed { type := .integer, default := some (.ofNat 1) }),
      ("marks", .detailed { type := .dict, required := false
                            default := some (.object [("a", .bool true), ("z", .null)]) })])) }),
    ("Shelf", .described "Where volumes stand")]
  pipes := .ofList [
    ("catalogue", ⟨⟨"", .empty, "Text"⟩,
      .sequence [⟨"entitle", some "heading", none, none, none, none⟩]⟩),
    ("entitle", ⟨⟨"", .ofList [("volume", "Volume"), ("shelf", "Shelf")], "Text"⟩,
      .llm "Give $volume a title" none (some 2) none⟩),
    ("sort", ⟨⟨"", .empty, "Text"⟩, .condition ⟨none, none,
      .ofList [("yes", "entitle"), ("no", "fail")], "continue", none⟩⟩)]
  mainPipe := some "catalogue"

/-- What is written of `archiveBundle` is not `archiveJson`, but it is read as the same bundle. -/
theorem Bundle.ofJson?_toJson_archive : Bundle.ofJson? archiveJson = some archiveBundle ∧
    archiveBundle.toJson ≠ archiveJson ∧ Bundle.ofJson? archiveBundle.toJson = some archiveBundle :=
  have h : Bundle.ofJson? archiveJson = some archiveBundle := by decide +kernel
  ⟨h, by decide +kernel, Bundle.ofJson?_toJson h⟩

end Conduit
