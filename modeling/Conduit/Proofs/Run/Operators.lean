import Conduit.Proofs.Memory.Furnished
import Conduit.Proofs.Run.Dry
import Conduit.Proofs.Template.Whole

/-!
# Dry runs of operators

An operator of a loaded library that does not read pages can be run dry if its templates
interpolate whole variables only (`Engine.dryRun_operator`). The memory of placeholders is furnished
for its inputs, and all variables that its templates read are among them; the generator of dry runs
gives as many records as are asked for, and each can be read as content of the output's structure;
and a result can always be stored. A page reader is left out because its input may be anything but
an image or a document, and a template that reaches into a variable because the placeholder need not
have such a place.
-/

namespace Conduit

variable {α β : Type}

/-! ## Runs that succeed -/

namespace Run

/-- A run has a result. -/
abbrev Completes (r : Run α) : Prop :=
  r.Ends (fun _ => True) fun _ => False

variable {r : Run α} {f : α → Run β} {x : Except RunCause α}

theorem Completes.exists_ok (h : r.Completes) : ∃ a, r.result = .ok a := by
  unfold Completes Ends at h
  split at h
  · next a ha => exact ⟨a, ha⟩
  · exact h.elim

theorem completes_lift (hx : ∃ a, x = .ok a) : Completes (liftM x : Run α) := by
  obtain ⟨a, rfl⟩ := hx
  exact trivial

/-- A run that goes on after a result. -/
theorem completes_lift_bind (hx : ∃ a, x = .ok a) (hf : ∀ a, x = .ok a → (f a).Completes) :
    Completes (liftM x >>= f) := by
  refine ends_lift_bind (fun c hc => ?_) hf
  obtain ⟨a, ha⟩ := hx
  rw [ha] at hc
  cases hc

/-- A run that goes on after an answer. -/
theorem completes_ask_bind {pipe : String} {dry : Bool} {request : Request} {reply : Reply α}
    {a : α} (hanswer : reply.answer = .ok a) (hf : (f a).Completes) :
    Completes (ask pipe dry request reply >>= f) := by
  have hask : (ask pipe dry request reply).Ends (fun b => b = a) fun _ => False := by
    unfold Ends ask
    rw [hanswer]
    rfl
  exact hask.bind fun b hb => hb ▸ hf

end Run

namespace Engine

variable {e : Engine} {p : Pipe} {op : Operator} {m : Memory} {params : RunParams} {c : Concept}

/-! ## What operators read -/

section Reading

/-- The inputs of a pipe have values in a memory that is furnished for them. -/
theorem exists_get_input (hm : m.Furnished p.inputs.entries) {name : String}
    (hname : p.inputs.contains name = true) : ∃ s, m.get name = .ok s := by
  obtain ⟨r, hr⟩ := Dict.exists_of_contains hname
  obtain ⟨s, hs, _⟩ := hm.find (Dict.mem_entries_of_get? hr)
  exact ⟨s, hs⟩

theorem contains_input (hm : m.Furnished p.inputs.entries) {name : String}
    (hname : p.inputs.contains name = true) : m.contains name = true := by
  obtain ⟨s, hs⟩ := exists_get_input hm hname
  rw [Memory.contains, Memory.find?_of_get hs]
  rfl

/-- A template of whole variables that reads inputs only can be rendered. -/
theorem exists_rendered (hd : e.library.Declared p) (hkind : p.kind = .operator op)
    (hwhole : ∀ source ∈ op.sources, Template.Whole source) (hm : m.Furnished p.inputs.entries)
    {source : String} (hsource : source ∈ op.sources) : ∃ text, rendered m source = .ok text := by
  obtain ⟨names, hnames, hinputs⟩ := hd.sources op hkind source hsource
  obtain ⟨text, htext⟩ := (hwhole source hsource).exists_render hnames fun name hname =>
    contains_input hm (hinputs name hname)
  exact ⟨text, by rw [rendered, htext]; rfl⟩

/-- The images that inputs carry are found. -/
theorem exists_promptImages (hm : m.Furnished p.inputs.entries) {names : List String}
    (hnames : ∀ name ∈ names, p.inputs.contains name = true) :
    ∃ images, promptImages m names = .ok images := by
  induction names with
  | nil => exact ⟨[], rfl⟩
  | cons name names ih =>
    rw [List.forall_mem_cons] at hnames
    obtain ⟨s, hs⟩ := exists_get_input hm hnames.1
    obtain ⟨more, hmore⟩ := ih hnames.2
    refine ⟨s.content.images ++ more, ?_⟩
    simp only [promptImages, hs, hmore, Except.mapError, ok_bind]
    rfl

/-- The prompt of a pipe can be made from templates that can be rendered. -/
theorem exists_prompt {user : String} {system : Option String}
    (hrendered : ∀ source ∈ user :: system.toList, ∃ text, rendered m source = .ok text)
    (hm : m.Furnished p.inputs.entries) : ∃ prompt, e.prompt p m user system = .ok prompt := by
  rw [List.forall_mem_cons] at hrendered
  obtain ⟨text, htext⟩ := hrendered.1
  have hinputs : ∀ name ∈ e.library.imageInputs p, p.inputs.contains name = true :=
    fun name hname => Library.contains_of_mem_imageInputs hname
  obtain ⟨images, himages⟩ := exists_promptImages hm hinputs
  cases system with
  | none =>
    refine ⟨⟨e.library.systemPrompt? p.domain, some text, images⟩, ?_⟩
    simp only [prompt, htext, himages, ok_bind]
    rfl
  | some source =>
    obtain ⟨instruction, hinstruction⟩ := hrendered.2 source (Option.mem_toList.2 rfl)
    refine ⟨⟨some instruction, some text, images⟩, ?_⟩
    simp only [prompt, htext, hinstruction, himages, ok_bind]
    rfl

/-- A pipe that has one input has a name for it. -/
theorem exists_singleInput (hsize : p.inputs.size = 1) :
    ∃ name, singleInput p = .ok name ∧ p.inputs.contains name = true := by
  obtain ⟨name, hname⟩ : ∃ name, p.inputs.keys = [name] := by
    rw [← List.length_eq_one_iff, Dict.keys, List.length_map]
    exact hsize
  refine ⟨name, by rw [singleInput, hname], Dict.mem_keys_iff.1 ?_⟩
  rw [hname]
  exact List.mem_singleton_self name

/-- A memory that is furnished for the inputs of a pipe holds what the pipe declares. -/
theorem checkInputs_furnished (hm : m.Furnished p.inputs.entries) : e.checkInputs p m = .ok () := by
  have hmissing : (p.inputs.keys.filter fun name => !m.contains name) = [] := by
    rw [List.filter_eq_nil_iff]
    intro name hname
    rw [contains_input hm (Dict.mem_keys_iff.1 hname)]
    exact Bool.false_ne_true
  have hcheck : ∀ need ∈ p.inputs.entries, e.checkInput p m need.1 need.2 = .ok () := by
    intro need hneed
    obtain ⟨s, hs, hconcept, hcount⟩ := hm.find hneed
    have hcompatible : e.library.concepts.isCompatible s.concept need.2.concept false = true := by
      rw [hconcept]
      exact ConceptLibrary.isCompatible_self _ _ _
    simp [checkInput, hs, Except.mapError, ok_bind, hcompatible, hcount, pure, Except.pure]
  simp only [checkInputs, hmissing, List.isEmpty_nil, if_true]
  exact forM_eq_ok_iff.2 hcheck

end Reading

/-! ## What operators make -/

section Making

/-- A pipe of which no concept is asked puts out what it declares. -/
theorem outputConcept_of_none (h : params.dynamic = none) :
    e.outputConcept p params = .ok p.output := by
  unfold outputConcept
  rw [h]

/-- The structure of what a language model makes is registered. -/
theorem contains_generatedShape {r : Registry} (hr : r.Compiled) (hc : r.contains c.shape = true) :
    r.contains (generatedShape c) = true := by
  unfold generatedShape
  split
  · exact hr.initial_within.contains (by decide)
  · exact hc

/-- As many values as are fixed are given. -/
theorem checkCount_requested (pipe operation : String) (multiplicity : Multiplicity) (size : Nat) :
    checkCount pipe operation multiplicity ((requestedCount multiplicity).getD size) = .ok () := by
  cases multiplicity with
  | single | list => rfl
  | fixed n =>
    unfold checkCount requestedCount
    simp

/-- A language model makes content in a dry run. -/
theorem runLlm_completes {user : String} {system : Option String} (hdry : params.dry = true)
    (hr : e.library.registry.Compiled) (hc : e.library.registry.contains c.shape = true)
    (hprompt : ∃ prompt, e.prompt p m user system = .ok prompt) :
    (e.runLlm p m params c user system).Completes := by
  have hshape := contains_generatedShape hr hc
  obtain ⟨content, hcontent⟩ := Placeholder.read_object hr hshape e.config.listSize
  refine Run.completes_lift_bind hprompt fun prompt _ => ?_
  dsimp only
  -- one text, one record of a structure, or several records, which are all the same
  split
  · split
    · exact Run.completes_ask_bind (by rw [generatorFor_of_dry hdry]; rfl) trivial
    · refine Run.completes_ask_bind (by rw [generatorFor_of_dry hdry]; rfl) ?_
      exact Run.completes_lift ⟨content, mapError_eq_ok_iff.2 hcontent⟩
  · have hitems := mapM_replicate hcontent
      ((requestedCount (outputMultiplicity p params)).getD e.config.listSize)
    refine Run.completes_ask_bind (by rw [generatorFor_of_dry hdry]; rfl) ?_
    refine Run.completes_lift_bind ⟨(), ?_⟩ fun _ _ => ?_
    · rw [List.length_replicate]
      exact checkCount_requested ..
    · exact Run.completes_lift_bind ⟨_, mapError_eq_ok_iff.2 hitems⟩ fun _ _ => trivial

/-- An image generator makes content in a dry run. -/
theorem runImgGen_completes {source : Option String} (hdry : params.dry = true)
    (hprompt : ∃ text, imagePrompt p m source = .ok text) :
    (e.runImgGen p m params source).Completes := by
  refine Run.completes_lift_bind hprompt fun prompt _ => ?_
  refine Run.completes_ask_bind (by rw [generatorFor_of_dry hdry]; rfl) ?_
  refine Run.completes_lift_bind ⟨(), ?_⟩ fun _ _ => ?_
  · rw [List.length_map, List.length_range]
    exact checkCount_requested ..
  · split
    · next hsingle =>
      rw [hsingle]
      exact Run.completes_lift ⟨_, rfl⟩
    · trivial

/-- An operator makes content in a dry run, unless it reads pages. -/
theorem makeContent_completes (hl : e.library.Loaded) (hp : e.library.Registered p)
    (hkind : p.kind = .operator op) (hop : ∀ views, op ≠ .extract views)
    (hwhole : ∀ source ∈ op.sources, Template.Whole source) (hm : m.Furnished p.inputs.entries)
    (hdry : params.dry = true) : (e.makeContent p m params p.output op).Completes := by
  have hr := hl.concepts_built.registry_compiled
  have hshape := (hl.covers hp).output.shaped hl.concepts_built.sound
  have hrendered : ∀ source ∈ op.sources, ∃ text, rendered m source = .ok text :=
    fun source hsource => exists_rendered (hl.settled.declared p hp) hkind hwhole hm hsource
  cases op with
  | llm user system =>
    exact runLlm_completes hdry hr hshape (exists_prompt hrendered hm)
  | imgGen source =>
    refine runImgGen_completes hdry ?_
    cases source with
    | some source => exact hrendered source (List.mem_singleton_self source)
    | none =>
      -- the description is the only input, whose placeholder has a text
      obtain ⟨name, hname, hkey⟩ := exists_singleInput (hl.size_inputs hp hkind)
      obtain ⟨s, hs⟩ := exists_get_input hm hkey
      refine ⟨s.content.rendered, ?_⟩
      simp only [imagePrompt, hname, hs, Except.mapError, ok_bind]
      rfl
  | extract views => exact absurd rfl (hop views)
  | func name =>
    change (e.runFunc p m params p.output name).Completes
    obtain ⟨content, hcontent, _⟩ :=
      ConceptLibrary.exists_placeholder hr hshape e.config.listSize (outputMultiplicity p params)
    unfold runFunc
    rw [if_pos hdry]
    exact Run.completes_lift ⟨content, mapError_eq_ok_iff.2 hcontent⟩
  | compose source =>
    obtain ⟨text, htext⟩ := hrendered source (List.mem_singleton_self source)
    exact Run.completes_lift ⟨.text text, map_eq_ok_iff.2 ⟨text, htext, rfl⟩⟩

/-- An operator runs dry and stores what it makes, unless it reads pages. -/
theorem runOperator_completes (hl : e.library.Loaded) (hp : e.library.Registered p)
    (hkind : p.kind = .operator op) (hop : ∀ views, op ≠ .extract views)
    (hwhole : ∀ source ∈ op.sources, Template.Whole source) (hm : m.Furnished p.inputs.entries)
    (hdry : params.dry = true) (hdynamic : params.dynamic = none) :
    (e.runOperator p op m params none).Completes := by
  have hconcept : e.outputConcept p params = .ok p.output := outputConcept_of_none hdynamic
  refine Run.completes_lift_bind ⟨_, hconcept⟩ fun c hc => ?_
  obtain rfl : p.output = c := Except.ok.inj (hconcept.symm.trans hc)
  refine Run.Ends.bind (makeContent_completes hl hp hkind hop hwhole hm hdry) fun content _ => ?_
  obtain ⟨stored, m', hstored⟩ := exists_storeResult m p.code p.output content
  exact Run.completes_lift_bind ⟨_, hstored⟩ fun _ _ =>
    Run.Ends.bind Run.ends_emit fun _ _ => trivial

end Making

/-! ## Dry runs -/

/-- An operator runs dry on a memory that is furnished for its inputs, if it may be put on the
stack. -/
theorem run_completes (hl : e.library.Loaded) (hp : e.library.Registered p)
    (hdepth : 1 ≤ e.config.maxDepth) (hkind : p.kind = .operator op)
    (hop : ∀ views, op ≠ .extract views) (hwhole : ∀ source ∈ op.sources, Template.Whole source)
    (hm : m.Furnished p.inputs.entries) :
    (e.run p.code m { dry := true } none).Completes := by
  obtain ⟨levels, hlevels⟩ : ∃ levels, e.config.maxDepth = levels + 1 :=
    Nat.exists_eq_add_of_le' hdepth
  have hlookup : e.lookup p.code { dry := true } = .ok p :=
    mapError_eq_ok_iff.2 (Library.pipe_of_get? hp _)
  have hdispatch :
      (e.dispatch (e.runWithin levels) p m (onStack { dry := true } p) none).Completes := by
    refine Run.ends_mark_bind (Run.completes_lift_bind ⟨(), checkInputs_furnished hm⟩ fun _ _ => ?_)
    rw [hkind]
    exact runOperator_completes hl hp hkind hop hwhole hm rfl rfl
  change (e.runWithin (e.config.maxDepth - 0) p.code m { dry := true } none).Completes
  rw [Nat.sub_zero, hlevels]
  unfold runWithin
  simp only [hlookup]
  exact hdispatch.located

end Engine

/-! ## Verdicts on drafts -/

namespace Library

/-- A verdict: one of two grades, remarks, and perhaps a score. -/
def verdictStructure : Structure where
  name := "Verdict"
  parent := some Structure.root
  fields := .ofList [
    ("grade", ⟨"grade", .text, true, none, ["good", "bad"], none⟩),
    ("remarks", ⟨"remarks", .listOf .text, true, none, [], none⟩),
    ("score", ⟨"score", .integer, false, none, [], none⟩)]
  native := false

/-- Verdicts. -/
def verdictConcept : Concept :=
  ⟨"Verdict", "reviews", "", "Verdict", none⟩

/-- Two verdicts on a draft. -/
def review : Pipe where
  code := "review"
  domain := "reviews"
  description := ""
  inputs := .ofList [("draft", ⟨NativeConcept.text.concept, .single⟩)]
  output := verdictConcept
  multiplicity := .fixed 2
  kind := .operator (.llm "Review ${{ draft }}!" none)

/-- A library that reviews drafts. -/
def reviews : Library where
  domains := .ofList [("reviews", ⟨"reviews", none, none⟩)]
  concepts := {
    concepts := ConceptLibrary.initial.concepts.insert "reviews.Verdict" verdictConcept
    registry := ⟨Registry.initial.structures.insert "Verdict" verdictStructure⟩ }
  pipes := .ofList [("review", review)]

/-- The bundle that makes `reviews`. -/
def reviewsBundle : Bundle where
  domain := ⟨"reviews", none, none⟩
  concepts := .ofList [("Verdict", .detailed { shape := some (.schema (.ofList [
    ("grade", .detailed { choices := ["good", "bad"] }),
    ("remarks", .detailed { type := .list, itemType := some .text }),
    ("score", .detailed { type := .integer, required := false })])) })]
  pipes := .ofList [("review", ⟨⟨"", .ofList [("draft", "Text")], "Verdict[2]"⟩,
    .llm "Review ${{ draft }}!" none none none⟩)]
  mainPipe := none

theorem reviews_loaded : reviews.Loaded := by
  refine .load .initial (b := reviewsBundle) (eq_ok_of_toOption ?_)
  decide +kernel

end Library

namespace Engine

/-- An operator of a loaded library runs dry without fault, unless it reads pages, if its templates
interpolate whole variables. -/
theorem dryRun_operator (e : Engine) (p : Pipe) (op : Operator) (hl : e.library.Loaded)
    (hp : e.library.Registered p) (htimeout : e.config.timeout = none)
    (hdepth : 1 ≤ e.config.maxDepth) (hkind : p.kind = .operator op)
    (hop : ∀ views, op ≠ .extract views)
    (hwhole : ∀ source ∈ op.sources, Template.Whole source) :
    ∃ m, (e.dryRun p.code).result = .ok m := by
  obtain ⟨m, hm, hfurnished⟩ := exists_dryMemory hl hp
  have hcompletes : (e.dryRun p.code).Completes := by
    refine Run.completes_lift_bind ⟨m, hm⟩ fun m' hm' => ?_
    obtain rfl : m = m' := Except.ok.inj (hm.symm.trans hm')
    unfold execute withTimeout
    rw [htimeout]
    exact run_completes hl hp hdepth hkind hop hwhole hfurnished
  exact hcompletes.exists_ok

/-- A review runs dry: two verdicts are made up, and read as verdicts. -/
theorem dryRun_review : Library.reviews.Loaded ∧ Library.reviews.Registered Library.review ∧
    Template.Whole "Review ${{ draft }}!" ∧
    ∃ m, (Engine.dryRun { library := Library.reviews } "review").result = .ok m := by
  have hp : Library.reviews.Registered Library.review := by
    unfold Library.Registered
    decide
  have hwhole : Template.Whole "Review ${{ draft }}!" := by
    decide +kernel
  refine ⟨Library.reviews_loaded, hp, hwhole, ?_⟩
  refine dryRun_operator { library := Library.reviews } Library.review _ Library.reviews_loaded hp
    rfl (by decide) rfl nofun fun source hsource => ?_
  rw [List.mem_singleton.1 hsource]
  exact hwhole

end Engine

end Conduit
