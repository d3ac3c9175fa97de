import Conduit.Proofs.Concept.Sound
import Conduit.Proofs.Library.Loaded

/-!
# Checks of a load stay true

A pipe of a loaded library was checked once, in the library as it was after the load that brought it
(`Library.Loaded.exists_admission`). What was checked of concepts stays true in all later libraries:
the concepts that a pipe names are concepts of the library (`ConceptLibrary.Covers`), and concepts
of the library compare the same way ever after (`Library.Admission.isCompatible_eq`).
-/

namespace Conduit

namespace ConceptLibrary

variable {l l' : ConceptLibrary} {domain code reference : String} {p : Pipe}

/-- The concepts of a pipe's inputs and of its outputs are in the library. -/
structure Covers (l : ConceptLibrary) (p : Pipe) : Prop where
  output : l.Has p.output
  inputs : ∀ name r, p.inputs.get? name = some r → l.Has r.concept
  combined : ∀ q, p.kind = .parallel q → ∀ c ∈ q.combined, l.Has c

theorem Covers.within (h : l.Covers p) (hw : l.Within l') : l'.Covers p where
  output := h.output.within hw
  inputs name r hr := (h.inputs name r hr).within hw
  combined q hq c hc := (h.combined q hq c hc).within hw

/-- The concept that a pipe names is in the library. -/
theorem Sound.has_of_conceptOf (hl : l.Sound) {use : ConceptUse} {c : Concept}
    (h : l.conceptOf domain reference use = .ok c) : l.Has c := by
  unfold conceptOf at h
  split at h
  · next hresolve =>
    cases h
    exact hl.has_of_resolve? hresolve
  · cases h

/-- The concept of a requirement is in the library. -/
theorem Sound.has_of_requirementOf (hl : l.Sound) {use : ConceptUse} {r : Requirement}
    (h : l.requirementOf domain reference use = .ok r) : l.Has r.concept := by
  unfold requirementOf at h
  split at h
  · cases h
  · simp only [bind_eq_ok_iff] at h
    obtain ⟨c, hc, h⟩ := h
    cases h
    exact hl.has_of_conceptOf hc

/-- A library covers the pipes that are made with it. -/
theorem Sound.covers (hl : l.Sound) {b : PipeBlueprint} (h : l.makePipe domain code b = .ok p) :
    l.Covers p := by
  obtain ⟨inputs, output, kind, multiplicity, hinputs, houtput, hmade, rfl⟩ := makePipe_eq_ok h
  refine ⟨hl.has_of_requirementOf houtput, inputsOf_forall
    (fun _ _ _ hr => hl.has_of_requirementOf hr) (fun _ _ hr => by cases hr) hinputs, ?_⟩
  intro q hq c hmem
  obtain rfl : kind = .parallel q := hq
  cases kindOf_makes hmade with
  | parallel _ _ _ hcombined =>
    obtain ⟨reference, use, hconcept⟩ := hcombined c hmem
    exact hl.has_of_conceptOf hconcept

end ConceptLibrary

namespace Library

variable {l l' : Library} {p : Pipe}

/-- A load builds the concepts of a library further, under any policy. -/
theorem load_built {b : Bundle} {policy : ReactionPolicy} (hl : l.concepts.Built)
    (h : l.load b policy = .ok l') : l'.concepts.Built ∧ l.concepts.Within l'.concepts :=
  addConcepts_built hl (load_ok h).1

theorem Loaded.concepts_built (h : l.Loaded) : l.concepts.Built := by
  induction h with
  | initial => exact .initial
  | load _ hload ih => exact (load_built ih hload).1

/-- A pipe was admitted to an earlier library, of which all pipes and concepts are in the later
one. -/
structure Admission (l₀ l : Library) (p : Pipe) : Prop where
  loaded : l₀.Loaded
  pipes : l₀.Within l
  concepts : l₀.concepts.Within l.concepts
  registered : l₀.Registered p
  admitted : l₀.Admitted {} p

/-- Every pipe of a loaded library was admitted to it or to an earlier one. -/
theorem Loaded.exists_admission (h : l.Loaded) (hp : l.Registered p) :
    ∃ l₀, Admission l₀ l p := by
  induction h with
  | initial => cases hp
  | @load l l' b hl hload ih =>
    obtain ⟨_, hw, hnew⟩ := load_ok hload
    have hconcepts := (load_built hl.concepts_built hload).2
    rcases hnew p.code p hp with hold | ⟨_, hadmitted⟩
    · obtain ⟨l₀, h₀⟩ := ih hold
      exact ⟨l₀, h₀.loaded, fun code q hq => hw code q (h₀.pipes code q hq),
        h₀.concepts.trans hconcepts, h₀.registered, h₀.admitted⟩
    · exact ⟨l', .load hl hload, fun _ _ hq => hq, .refl _, hp, hadmitted⟩

/-- A loaded library covers its pipes. -/
theorem Loaded.covers (h : l.Loaded) (hp : l.Registered p) : l.concepts.Covers p := by
  obtain ⟨l₀, h₀⟩ := h.exists_admission hp
  obtain ⟨b, hmade⟩ := h₀.admitted.made
  exact (h₀.loaded.concepts_built.sound.covers hmade).within h₀.concepts

/-- An image generator without a description has one input. -/
theorem Loaded.size_inputs (h : l.Loaded) (hp : l.Registered p)
    (hkind : p.kind = .operator (.imgGen none)) : p.inputs.size = 1 := by
  obtain ⟨_, h₀⟩ := h.exists_admission hp
  obtain ⟨_, hmade⟩ := h₀.admitted.made
  obtain ⟨inputs, _, kind, _, _, _, hmakes, heq⟩ := ConceptLibrary.makePipe_eq_ok hmade
  obtain rfl : kind = .operator (.imgGen none) := (congrArg Pipe.kind heq).symm.trans hkind
  rw [heq]
  exact ConceptLibrary.size_of_kindOf_imgGen hmakes

namespace Admission

variable {l₀ : Library}

/-- The signature of a pipe had no mistake when the pipe was admitted. -/
theorem findings (h : Admission l₀ l p) : l₀.findings p = .ok [] :=
  findings_of_signature h.admitted.signature

/-- Concepts of the earlier library compare as they did. -/
theorem isCompatible_eq (h : Admission l₀ l p) {c d : Concept} (hc : l₀.concepts.Has c)
    (hd : l₀.concepts.Has d) :
    l.concepts.isCompatible c d false = l₀.concepts.isCompatible c d false :=
  ConceptLibrary.isCompatible_within h.loaded.concepts_built.sound h.concepts hc hd false

/-- The native concepts are those of the earlier library. -/
theorem native_eq (h : Admission l₀ l p) (hl : l.Loaded) (n : NativeConcept) :
    l.concepts.native n = l₀.concepts.native n :=
  (hl.concepts_built.native_eq n).trans (h.loaded.concepts_built.native_eq n).symm

end Admission

end Library

end Conduit
