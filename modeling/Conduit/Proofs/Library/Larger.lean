import Conduit.Proofs.Concept.Larger
import Conduit.Proofs.Library.Signature

/-!
# Checks in larger libraries

A library underlies another one if that has all its structures and pipes and the same native
concepts (`Library.Underlies`). What passes a check in the first library passes it in the second:
the pipes that a pipe names are there, it needs the same, and no more is found of it
(`Underlies.findings`), although pipes of the first library may have lost some that they name, and
concepts of theirs may be gone. `Underlies.checkSignature` is what is left of this under a policy.
-/

namespace Conduit.Library

variable {l l' : Library} {p : Pipe}

/-- The second library has all structures and pipes of the first and the same native concepts. -/
structure Underlies (l l' : Library) : Prop where
  keyed : l.Keyed
  closed : l.registry.Closed
  registry : l.registry.Within l'.registry
  pipes : l.Within l'
  native : ∀ n, l'.concepts.native n = l.concepts.native n

theorem Underlies.isCompatible (h : l.Underlies l') {c d : Concept}
    (hcd : l.concepts.isCompatible c d false = true) :
    l'.concepts.isCompatible c d false = true :=
  ConceptLibrary.isCompatible_of_within h.closed h.registry hcd

/-! ## Names -/

theorem Underlies.checkSubPipes (h : l.Underlies l') (hp : l.checkSubPipes p = .ok ()) :
    l'.checkSubPipes p = .ok () := by
  rw [checkSubPipes_eq_ok_iff] at hp ⊢
  exact fun code hcode => contains_within h.pipes (hp code hcode)

theorem Underlies.checkOutcomes (h : l.Underlies l') (hp : l.checkOutcomes p = .ok ()) :
    l'.checkOutcomes p = .ok () := by
  unfold Library.checkOutcomes at hp ⊢
  split at hp
  · rw [forM_eq_ok_iff] at hp ⊢
    intro code hcode
    have hone := hp code hcode
    simp only [checkOutcome, bind_eq_ok_iff, mapError_eq_ok_iff, pipe_eq_ok_iff] at hone ⊢
    obtain ⟨branch, hbranch, hone⟩ := hone
    refine ⟨branch, h.pipes _ _ hbranch, ?_⟩
    split at hone
    · next hcompatible => rw [if_pos (h.isCompatible hcompatible)]; exact hone
    · cases hone
  · exact hp

theorem Underlies.checkMain (h : l.Underlies l') {b : Bundle} (hb : l.checkMain b = .ok ()) :
    l'.checkMain b = .ok () := by
  unfold Library.checkMain at hb ⊢
  split at hb
  · exact hb
  · split at hb
    · next hthere => rw [if_pos (contains_within h.pipes hthere)]
    · cases hb

/-! ## Needs -/

section Needs

variable {visit visit' : Pipe → Except NeedsError Requirements} {owner : String}
  {known needs : Requirements}

theorem sequenceNeeds_of_within (hw : l.Within l')
    (hv : ∀ q needs, visit q = .ok needs → visit' q = .ok needs) {steps : List Step}
    {produced : List String}
    (h : l.sequenceNeeds visit owner known produced steps = .ok needs) :
    l'.sequenceNeeds visit' owner known produced steps = .ok needs := by
  induction steps generalizing known produced with
  | nil => exact h
  | cons s rest ih =>
    simp only [sequenceNeeds, bind_eq_ok_iff, mapError_eq_ok_iff, pipe_eq_ok_iff] at h ⊢
    obtain ⟨target, ht, first, hfirst, own, hown, h⟩ := h
    exact ⟨target, hw _ _ ht, first, hv _ _ hfirst, own, hown, ih h⟩

theorem branchNeeds_of_within (hw : l.Within l')
    (hv : ∀ q needs, visit q = .ok needs → visit' q = .ok needs) {steps : List Step}
    (h : l.branchNeeds visit owner known steps = .ok needs) :
    l'.branchNeeds visit' owner known steps = .ok needs := by
  induction steps generalizing known with
  | nil => exact h
  | cons s rest ih =>
    simp only [branchNeeds, bind_eq_ok_iff, mapError_eq_ok_iff, pipe_eq_ok_iff] at h ⊢
    obtain ⟨target, ht, first, hfirst, own, hown, h⟩ := h
    exact ⟨target, hw _ _ ht, first, hv _ _ hfirst, own, hown, ih h⟩

/-- What a pipe needs itself it needs in the larger library. -/
theorem Underlies.needsOf (h : l.Underlies l')
    (hv : ∀ q needs, visit q = .ok needs → visit' q = .ok needs)
    (hp : l.needsOf visit p = .ok needs) : l'.needsOf visit' p = .ok needs := by
  unfold Library.needsOf at hp ⊢
  cases hkind : p.kind with
  | operator op =>
    simp only [hkind] at hp ⊢
    exact hp
  | sequence steps =>
    simp only [hkind] at hp ⊢
    exact sequenceNeeds_of_within h.pipes hv hp
  | parallel q =>
    simp only [hkind] at hp ⊢
    exact branchNeeds_of_within h.pipes hv hp
  | condition c =>
    simp only [hkind, bind_eq_ok_iff, outcomeNeeds_eq_branchNeeds, declaredOrAnything,
      h.native] at hp ⊢
    obtain ⟨names, hnames, hp⟩ := hp
    exact ⟨names, hnames, branchNeeds_of_within h.pipes hv hp⟩
  | batch branch b =>
    simp only [hkind, bind_eq_ok_iff, mapError_eq_ok_iff, pipe_eq_ok_iff] at hp ⊢
    obtain ⟨target, ht, first, hfirst, hp⟩ := hp
    exact ⟨target, h.pipes _ _ ht, first, hv _ _ hfirst, hp⟩

theorem Underlies.needsWithin (h : l.Underlies l') {n : Nat} {path : List String}
    (hp : l.needsWithin n path p = .ok needs) : l'.needsWithin n path p = .ok needs := by
  induction n generalizing path p needs with
  | zero => exact hp
  | succ n ih =>
    rw [Library.needsWithin] at hp ⊢
    split at hp
    · next hpath => rwa [if_pos hpath]
    · next hpath =>
      rw [if_neg hpath]
      exact h.needsOf (fun _ _ hq => ih hq) hp

end Needs

/-- A pipe needs the same in the larger library, where its needs may be computed to a greater
depth. -/
theorem Underlies.needs (h : l.Underlies l') (hregistered : l.Registered p) {needs : Requirements}
    (hp : l.needs p = .ok needs) : l'.needs p = .ok needs := by
  have hremaining := l.remaining_le_size []
  have hsize := h.pipes.size_le
  refine h.needsWithin ?_
  rw [← hp]
  exact needsWithin_eq h.keyed _ _ hregistered (by omega) (by omega)

/-! ## Findings -/

/-- The inputs that go into a prompt as images do so in the larger library. -/
theorem Underlies.imageInputs (h : l.Underlies l') (p : Pipe) :
    l.imageInputs p ⊆ l'.imageInputs p := by
  refine List.map_subset _ (List.monotone_filter_right _ fun e he => ?_).subset
  rw [Bool.and_eq_true] at he ⊢
  rw [h.native]
  exact ⟨he.1, h.isCompatible he.2⟩

/-- An operator reads what it read, and in the larger library maybe more of its inputs. -/
theorem Underlies.required (h : l.Underlies l') {op : Operator} (hkind : p.kind = .operator op)
    {read : List String} (hp : l.required p = .ok read) :
    ∃ read', l'.required p = .ok read' ∧ read ⊆ read' ∧
      ∀ name ∈ read', name ∈ read ∨ p.inputs.contains name = true := by
  have hsame (heq : l'.required p = l.required p) : ∃ read', l'.required p = .ok read' ∧
      read ⊆ read' ∧ ∀ name ∈ read', name ∈ read ∨ p.inputs.contains name = true :=
    ⟨read, heq.trans hp, List.Subset.refl _, fun _ hname => .inl hname⟩
  -- images are added to the names of the templates
  have himages (names : List String) : distinct (names ++ l.imageInputs p) ⊆
        distinct (names ++ l'.imageInputs p) ∧
      ∀ name ∈ distinct (names ++ l'.imageInputs p),
        name ∈ distinct (names ++ l.imageInputs p) ∨ p.inputs.contains name = true := by
    constructor
    · intro name hname
      rw [mem_distinct, List.mem_append] at hname ⊢
      exact hname.imp id fun himage => h.imageInputs p himage
    · intro name hname
      rw [mem_distinct, List.mem_append] at hname ⊢
      exact hname.imp .inl contains_of_mem_imageInputs
  cases op with
  | llm prompt system =>
    cases system with
    | none =>
      simp only [Library.required, hkind, bind_eq_ok_iff] at hp ⊢
      obtain ⟨inPrompt, hprompt, inSystem, hsystem, hp⟩ := hp
      cases hp
      exact ⟨_, ⟨inPrompt, hprompt, inSystem, hsystem, rfl⟩, himages _⟩
    | some source =>
      simp only [Library.required, hkind, bind_eq_ok_iff] at hp ⊢
      obtain ⟨inPrompt, hprompt, inSystem, hsystem, hp⟩ := hp
      cases hp
      exact ⟨_, ⟨inPrompt, hprompt, inSystem, hsystem, rfl⟩, himages _⟩
  | imgGen prompt =>
    cases prompt with
    | none => exact hsame (by simp only [Library.required, hkind])
    | some source => exact hsame (by simp only [Library.required, hkind])
  | extract _ | func _ | compose _ => exact hsame (by simp only [Library.required, hkind])

/-- An operator that reads more of its inputs makes no more mistakes. -/
theorem operatorMistakes_subset {read read' : List String} (hsub : read ⊆ read')
    (hinputs : ∀ name ∈ read', name ∈ read ∨ p.inputs.contains name = true) :
    operatorMistakes p read' ⊆ operatorMistakes p read := by
  intro m hm
  simp only [operatorMistakes, List.mem_append, List.mem_map, List.mem_filter, Bool.not_eq_true',
    List.contains_eq_mem, decide_eq_false_iff_not] at hm ⊢
  rcases hm with ⟨name, ⟨hread, hundeclared⟩, rfl⟩ | ⟨name, ⟨hinput, hunread⟩, rfl⟩
  · refine .inl ⟨name, ⟨(hinputs name hread).resolve_right ?_, hundeclared⟩, rfl⟩
    rw [hundeclared]
    exact Bool.false_ne_true
  · exact .inr ⟨name, ⟨hinput, fun hread => hunread (hsub hread)⟩, rfl⟩

/-- The declaration of a controller compares with its needs in the larger library as it did, or
better. -/
theorem Underlies.controllerMistakes (h : l.Underlies l') (hp : l.PipeLinked p)
    (needs : Requirements) : l'.controllerMistakes p needs ⊆ l.controllerMistakes p needs := by
  have hneed (name : String) (needed : Requirement) :
      l'.needMistakes p name needed ⊆ l.needMistakes p name needed := by
    unfold needMistakes
    split
    · exact List.Subset.refl _
    · next declared _ =>
      cases hcompatible : l.concepts.isCompatible declared.concept needed.concept false with
      | true => rw [h.isCompatible hcompatible]; exact List.Subset.refl _
      | false =>
        refine List.append_subset.2 ⟨?_, List.subset_append_right _ _⟩
        split
        · exact List.nil_subset _
        · exact List.subset_append_left _ _
  have houtput : l'.outputMistakes p ⊆ l.outputMistakes p := by
    unfold outputMistakes
    rw [produced?_within h.pipes hp]
    split
    · exact List.Subset.refl _
    · next origin c _ =>
      cases hcompatible : l.concepts.isCompatible c p.output false with
      | true => rw [h.isCompatible hcompatible]; exact List.Subset.refl _
      | false =>
        split
        · exact List.nil_subset _
        · exact List.Subset.refl _
  unfold Library.controllerMistakes
  refine List.append_subset.2 ⟨List.append_subset.2 ⟨?_, ?_⟩, ?_⟩
  · intro m hm
    obtain ⟨e, he, hm⟩ := List.mem_flatMap.1 hm
    exact List.mem_append_left _ (List.mem_append_left _
      (List.mem_flatMap.2 ⟨e, he, hneed e.1 e.2 hm⟩))
  · exact fun m hm => List.mem_append_left _ (List.mem_append_right _ hm)
  · exact fun m hm => List.mem_append_right _ (houtput hm)

/-- No more is found of a pipe in the larger library. -/
theorem Underlies.findings (h : l.Underlies l') (hregistered : l.Registered p)
    {found : List Finding} (hp : l.findings p = .ok found) :
    ∃ found', l'.findings p = .ok found' ∧ found' ⊆ found := by
  unfold Library.findings at hp ⊢
  cases hkind : p.kind with
  | operator op =>
    simp only [hkind, bind_eq_ok_iff] at hp ⊢
    obtain ⟨read, hread, _, hmistakes, hp⟩ := hp
    cases hmistakes
    cases hp
    obtain ⟨read', hread', hsub, hinputs⟩ := h.required hkind hread
    exact ⟨_, ⟨read', hread', _, rfl, rfl⟩,
      List.map_subset _ (operatorMistakes_subset hsub hinputs)⟩
  | sequence _ | parallel _ | condition _ | batch _ _ =>
    simp only [hkind, bind_eq_ok_iff] at hp ⊢
    obtain ⟨needs, hneeds, _, hmistakes, hp⟩ := hp
    cases hmistakes
    cases hp
    exact ⟨_, ⟨needs, h.needs hregistered hneeds, _, rfl, rfl⟩,
      List.map_subset _ (h.controllerMistakes (pipeLinked_of_needs hneeds) needs)⟩

/-- A signature that passes the check passes it in the larger library, under the same policy. -/
theorem Underlies.checkSignature (h : l.Underlies l') (hregistered : l.Registered p)
    {policy : ReactionPolicy} (hp : l.checkSignature policy p = .ok ()) :
    l'.checkSignature policy p = .ok () := by
  simp only [Library.checkSignature, bind_eq_ok_iff, mapError_eq_ok_iff] at hp ⊢
  obtain ⟨found, hfound, hraise⟩ := hp
  obtain ⟨found', hfound', hsub⟩ := h.findings hregistered hfound
  rw [raise?_eq_ok_iff] at hraise
  exact ⟨found', hfound', raise?_eq_ok_iff.2 fun f hf => hraise f (hsub hf)⟩

end Conduit.Library
