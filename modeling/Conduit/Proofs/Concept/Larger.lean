import Conduit.Proofs.Concept.Coherent
import Conduit.Proofs.Library.Loaded
import Conduit.Proofs.Structure.Larger

/-!
# Definitions in larger libraries

Concepts that are compatible are so in every larger library (`isCompatible_of_within`), whether it
is one of their structures that was unknown before or not. A definition looks up references first in
its own domain; so what is defined over a library is defined alike over a larger one, if that has no
other concepts under the full names of the domain (`ConceptLibrary.Embeds`). A pipe is made of the
same parts there (`Embeds.makePipe`). A concept is made as well, unless the structure that its
schema gives has a name that is taken in the larger library (`Embeds.make`).
-/

namespace Conduit

/-- The declaration of a concept gives its structure by a schema. -/
def ConceptBlueprint.HasSchema (b : ConceptBlueprint) : Prop :=
  ∃ fields, b.detail.shape = some (.schema fields)

namespace ConceptLibrary

variable {l l' l₁ : ConceptLibrary} {c d : Concept} {domain code pipe reference : String}

/-- Concepts that are compatible are so in a larger library. -/
theorem isCompatible_of_within (hc : l.registry.Closed) (hw : l.registry.Within l'.registry)
    (h : l.isCompatible c d false = true) : l'.isCompatible c d false = true := by
  unfold isCompatible at h ⊢
  split
  · rfl
  split
  · rfl
  split
  · rfl
  split
  · rfl
  next hwild hname hshape hrefines =>
  rw [if_neg hwild, if_neg hname, if_neg hshape, if_neg hrefines] at h
  split at h
  · next hplain =>
    rw [if_pos hplain]
    simp only [Bool.false_eq_true, if_false, Bool.or_eq_true] at h ⊢
    exact h.imp (Registry.isSubtype_of_within hc hw) (Registry.hasCompatibleFields_of_within hc hw)
  · cases h

/-- Everything of the first library is in the second, which has no other concepts under the full
names of the domain. -/
structure Embeds (l : ConceptLibrary) (domain : String) (l' : ConceptLibrary) : Prop where
  within : l.Within l'
  own : ∀ code, '.' ∉ code.toList →
    l'.get? (Concept.fullName domain code) = l.get? (Concept.fullName domain code)

/-- A reference of the domain that stands for a concept stands for it in the larger library. -/
theorem Embeds.resolve? (h : l.Embeds domain l') (hc : l.resolve? reference domain = some c) :
    l'.resolve? reference domain = some c := by
  simp only [ConceptLibrary.resolve?] at hc ⊢
  split at hc
  · next hdot =>
    rw [if_pos hdot]
    exact h.within.concepts _ _ hc
  · next hdot =>
    rw [if_neg hdot, h.own _ (by simpa using hdot)]
    rcases Option.or_eq_some_iff.1 hc with hown | ⟨hnone, hnative⟩
    · rw [hown, Option.some_or]
    · rw [hnone, Option.none_or]
      exact h.within.concepts _ _ hnative

/-! ## Concepts -/

/-- The structure of a declared concept is the same in the larger library, if it is not one whose
name is taken there. -/
theorem Embeds.shapeOf (hl : l.registry.Rooted) (h : l.Embeds domain l')
    (hcode : Text.isVariable code = true) {detail : ConceptDetail}
    (hnew : ∀ fields, detail.shape = some (.schema fields) → l'.registry.contains code = false)
    {shape : String} {refines : Option String} {registry : Registry}
    (hshape : l.shapeOf domain code detail = .ok (shape, refines, registry)) :
    ∃ registry', l'.shapeOf domain code detail = .ok (shape, refines, registry') ∧
      registry.Within registry' := by
  have hw := h.within.registry
  cases shapeOf_eq_ok_iff.1 hshape with
  | plain hnone hrefines => exact ⟨_, shapeOf_eq_ok_iff.2 (.plain hnone hrefines), hw⟩
  | named hnamed hrefines hknown =>
    exact ⟨_, shapeOf_eq_ok_iff.2 (.named hnamed hrefines (hw.contains hknown)), hw⟩
  | schema hfields hrefines hs hregister =>
    obtain ⟨root, hroot, _⟩ := hl.root
    obtain ⟨rfl, _⟩ := Registry.synthesize_rooted hcode hs
    obtain ⟨registry', hregister', hwithin⟩ := hw.register? (hnew _ hfields) hregister
    have hs' := Registry.compile_within (Dict.contains_of_get? hroot) hl.closed hw hs
    exact ⟨registry', shapeOf_eq_ok_iff.2 (.schema hfields hrefines hs' hregister'), hwithin⟩
  | refining hnone hrefines hparent hnative =>
    exact ⟨_, shapeOf_eq_ok_iff.2 (.refining hnone hrefines (h.resolve? hparent) hnative), hw⟩

/-- What a declared concept adds to the registry: nothing, or a structure under its code if it has a
schema. -/
theorem make_registry {b : ConceptBlueprint} (h : l.make domain code b = .ok (c, l₁)) :
    ¬ b.HasSchema ∧ l₁.registry = l.registry ∨
      ∃ s, s.name = code ∧ l.registry.register? s = some l₁.registry := by
  unfold ConceptLibrary.make at h
  cases hfault : codeFault? code with
  | some fault =>
    rw [hfault] at h
    cases h
  | none =>
    simp only [hfault, bind_eq_ok_iff] at h
    obtain ⟨⟨shape, refines, registry⟩, hshape, hmade⟩ := h
    cases hmade
    cases shapeOf_eq_ok_iff.1 hshape with
    | plain hother | named hother | refining hother =>
      exact .inl ⟨fun ⟨_, hfields⟩ => (nomatch hother.symm.trans hfields), rfl⟩
    | schema _ _ hs hregister =>
      have hname := (Registry.synthesize_rooted (isVariable_of_codeFault hfault) hs).1
      exact .inr ⟨_, hname, hregister⟩

/-- A concept is made alike in the larger library, if the name of a structure that its schema gives
is not taken there. -/
theorem Embeds.make (hl : l.registry.Rooted) (h : l.Embeds domain l') {b : ConceptBlueprint}
    (hnew : b.HasSchema → l'.registry.contains code = false)
    (hmake : l.make domain code b = .ok (c, l₁)) :
    ∃ l₁', l'.make domain code b = .ok (c, l₁') ∧ l₁.Embeds domain l₁' := by
  unfold ConceptLibrary.make at hmake ⊢
  cases hfault : codeFault? code with
  | some fault =>
    rw [hfault] at hmake
    cases hmake
  | none =>
    simp only [hfault, bind_eq_ok_iff] at hmake ⊢
    obtain ⟨⟨shape, refines, registry⟩, hshape, hmade⟩ := hmake
    cases hmade
    obtain ⟨registry', hshape', hw⟩ := h.shapeOf hl (isVariable_of_codeFault hfault)
      (fun fields hfields => hnew ⟨fields, hfields⟩) hshape
    exact ⟨{ l' with registry := registry' }, ⟨_, hshape', rfl⟩, ⟨h.within.concepts, hw⟩, h.own⟩

/-- A concept of the domain is added alike to the larger library. -/
theorem Embeds.add (h : l.Embeds domain l') (hdomain : c.domain = domain)
    (hdot : '.' ∉ c.code.toList) (hadd : l.add c = .ok l₁) :
    ∃ l₁', l'.add c = .ok l₁' ∧ l₁.Embeds domain l₁' := by
  have hown : l'.concepts.get? c.name = l.concepts.get? c.name := by
    subst hdomain
    exact h.own c.code hdot
  unfold ConceptLibrary.add at hadd ⊢
  split at hadd
  · cases hadd
  · next hnew =>
    split at hadd
    · cases hadd
    · next hshape =>
      cases hadd
      have hnew' : ¬ l'.concepts.contains c.name = true := by
        unfold Dict.contains at hnew ⊢
        rwa [hown]
      have hshape' : l'.registry.contains c.shape = true :=
        h.within.registry.contains (by simpa using hshape)
      rw [if_neg hnew', if_neg (by simpa using hshape')]
      refine ⟨_, rfl, ⟨fun name d hd => ?_, h.within.registry⟩, fun code hcode => ?_⟩
      · exact Dict.get?_insert_of_imp h.within.concepts hd
      · have hother := h.own code hcode
        unfold ConceptLibrary.get? at hother ⊢
        rw [Dict.get?_insert, Dict.get?_insert, hother]

/-! ## Pipes -/

theorem Embeds.conceptOf (h : l.Embeds domain l') {use : ConceptUse}
    (hc : l.conceptOf domain reference use = .ok c) :
    l'.conceptOf domain reference use = .ok c := by
  unfold ConceptLibrary.conceptOf at hc ⊢
  cases hresolve : l.resolve? reference domain with
  | none =>
    rw [hresolve] at hc
    cases hc
  | some d =>
    rw [hresolve] at hc
    rwa [h.resolve? hresolve]

theorem Embeds.requirementOf (h : l.Embeds domain l') {use : ConceptUse} {r : Requirement}
    (hr : l.requirementOf domain reference use = .ok r) :
    l'.requirementOf domain reference use = .ok r := by
  unfold ConceptLibrary.requirementOf at hr ⊢
  split at hr
  · cases hr
  · simp only [bind_eq_ok_iff] at hr ⊢
    obtain ⟨c, hc, hr⟩ := hr
    exact ⟨c, h.conceptOf hc, hr⟩

theorem Embeds.inputsOf (h : l.Embeds domain l') {known inputs : Requirements}
    {declared : List (String × String)} (hin : l.inputsOf domain pipe known declared = .ok inputs) :
    l'.inputsOf domain pipe known declared = .ok inputs := by
  induction declared generalizing known with
  | nil => exact hin
  | cons d declared ih =>
    simp only [ConceptLibrary.inputsOf, bind_eq_ok_iff] at hin ⊢
    obtain ⟨⟨⟩, hname, r, hr, hin⟩ := hin
    exact ⟨(), hname, r, h.requirementOf hr, ih hin⟩

/-- Inputs that are one document are so in the larger library. -/
theorem isDocument_of_within (hc : l.registry.Closed) (hw : l.registry.Within l'.registry)
    (hnative : ∀ n, l'.native n = l.native n) {inputs : Requirements}
    (h : l.isDocument inputs = true) : l'.isDocument inputs = true := by
  simp only [isDocument, Bool.and_eq_true, List.all_eq_true, Bool.or_eq_true, hnative] at h ⊢
  refine ⟨h.1, fun r hr => ⟨(h.2 r hr).1, ?_⟩⟩
  exact (h.2 r hr).2.imp (isCompatible_of_within hc hw) (isCompatible_of_within hc hw)

/-- A parallel is made alike over a larger registry. -/
theorem makeParallel_within {r r' : Registry} (hc : r.Closed) (hw : r.Within r')
    {branches : List Step} {addEach : Bool} {combined : Option Concept} {q : Parallel}
    (h : Parallel.make r pipe branches addEach combined = .ok q) :
    Parallel.make r' pipe branches addEach combined = .ok q := by
  obtain ⟨-, hne, hresults⟩ := Parallel.make_ok h
  have hcombination : (!addEach && combined.isNone) = false := by
    rcases hresults with rfl | hsome
    · rfl
    · cases combined with
      | none => cases hsome
      | some c => simp
  unfold Parallel.make at h ⊢
  simp only [hcombination, List.isEmpty_eq_false_iff.2 hne, Bool.false_eq_true, if_false,
    bind_eq_ok_iff] at h ⊢
  obtain ⟨names, hnames, h⟩ := h
  refine ⟨names, hnames, ?_⟩
  cases combined with
  | none => exact h
  | some c =>
    dsimp only at h ⊢
    split at h
    · cases h
    · next hfind =>
      have hfind' : (names.find? fun name => !(r'.allFields c.shape).contains name) = none := by
        rw [List.find?_eq_none] at hfind ⊢
        intro name hname
        have hfield := hfind name hname
        simp only [Bool.not_eq_true', Bool.not_eq_false] at hfield ⊢
        exact Registry.contains_allFields_within hc hw hfield
      rw [hfind']
      exact h

/-- What a pipe does is made alike in the larger library. -/
theorem Embeds.kindOf (hc : l.registry.Closed) (h : l.Embeds domain l')
    (hnative : ∀ n, l'.native n = l.native n) {inputs : Requirements} {declared : Multiplicity}
    {body : PipeBody} {result : PipeKind × Multiplicity}
    (hkind : l.kindOf domain pipe inputs declared body = .ok result) :
    l'.kindOf domain pipe inputs declared body = .ok result := by
  cases body with
  | parallel blueprints addEach combined =>
    simp only [ConceptLibrary.kindOf, bind_eq_ok_iff] at hkind ⊢
    obtain ⟨branches, hbranches, hkind⟩ := hkind
    refine ⟨branches, hbranches, ?_⟩
    cases combined with
    | none =>
      simp only [bind_eq_ok_iff] at hkind ⊢
      obtain ⟨_, hnone, q, hq, hkind⟩ := hkind
      exact ⟨_, hnone, q, makeParallel_within hc h.within.registry hq, hkind⟩
    | some reference =>
      simp only [bind_eq_ok_iff, map_eq_ok_iff] at hkind ⊢
      obtain ⟨_, ⟨c, hconcept, hsome⟩, q, hq, hkind⟩ := hkind
      exact ⟨_, ⟨c, h.conceptOf hconcept, hsome⟩, q,
        makeParallel_within hc h.within.registry hq, hkind⟩
  | extract pageViews =>
    unfold ConceptLibrary.kindOf at hkind ⊢
    dsimp only at hkind ⊢
    split at hkind
    · cases hkind
    · next hdocument =>
      have hdocument' := isDocument_of_within hc h.within.registry hnative
        (by simpa using hdocument)
      rw [if_neg (by simpa using hdocument')]
      exact hkind
  -- no other pipe looks at the library
  | sequence _ | condition _ | batch _ _ _ | llm _ _ _ _ | imgGen _ _ | func _ | compose _ =>
    exact hkind

/-- A pipe of the domain is made alike in the larger library. -/
theorem Embeds.makePipe (hc : l.registry.Closed) (h : l.Embeds domain l')
    (hnative : ∀ n, l'.native n = l.native n) {b : PipeBlueprint} {p : Pipe}
    (hmade : l.makePipe domain code b = .ok p) : l'.makePipe domain code b = .ok p := by
  unfold ConceptLibrary.makePipe at hmade ⊢
  cases hcode : Text.isPipeCode code with
  | false =>
    rw [hcode] at hmade
    cases hmade
  | true =>
    simp only [hcode, Bool.not_true, Bool.false_eq_true, if_false, bind_eq_ok_iff] at hmade ⊢
    obtain ⟨inputs, hinputs, output, houtput, result, hkind, hmade⟩ := hmade
    exact ⟨inputs, h.inputsOf hinputs, output, h.requirementOf houtput, result,
      h.kindOf hc hnative hkind, hmade⟩

end ConceptLibrary

end Conduit
