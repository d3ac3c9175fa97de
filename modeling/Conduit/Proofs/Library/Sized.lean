import Conduit.Proofs.Library.Admitted

/-!
# What a loaded library asks for

A bundle may fix how many values a variable holds, a pipe makes or a step asks for. It cannot fix
that there be none: no reference says so, and a count of zero is refused when the bundle is loaded.
So no pipe of a loaded library asks for a list without items (`Library.Loaded.sized`).
-/

namespace Conduit

/-- There are to be some values, if their number is fixed. -/
def Multiplicity.Positive (m : Multiplicity) : Prop :=
  m ≠ .fixed 0

/-- The steps or branches of which a pipe is made up. -/
def PipeKind.steps : PipeKind → List Step
  | .sequence steps => steps
  | .parallel q => q.branches
  | .condition _ | .batch _ _ | .operator _ => []

/-- A pipe asks for no list without items: as an input, as its output, or of a step. -/
structure Pipe.Sized (p : Pipe) : Prop where
  inputs : ∀ name r, p.inputs.get? name = some r → r.multiplicity.Positive
  output : p.multiplicity.Positive
  steps : ∀ s ∈ p.kind.steps, ∀ m ∈ s.multiplicity, m.Positive

/-! ## References and counts -/

/-- A reference does not fix that there be no values. -/
theorem Reference.multiplicity?_positive {cs : List Char} {m : Multiplicity}
    (h : Reference.multiplicity? cs = some m) : m.Positive := by
  unfold Reference.multiplicity? at h
  split at h
  · cases h
    exact nofun
  · cases hcount : Text.count? cs with
    | none =>
      rw [hcount] at h
      cases h
    | some n =>
      rw [hcount] at h
      cases n with
      | zero => cases h
      | succ n =>
        cases h
        exact nofun

theorem Reference.parse?_positive {text : String} {r : Reference}
    (h : Reference.parse? text = some r) : r.multiplicity.Positive := by
  simp only [Reference.parse?] at h
  split at h
  · split at h
    · cases h
    · cases h
      exact nofun
  · simp only [Option.bind_eq_bind, Option.bind_eq_some_iff] at h
    obtain ⟨size, _, h⟩ := h
    split at h
    · cases h
    · obtain ⟨m, hm, h⟩ := Option.bind_eq_some_iff.1 h
      cases h
      exact Reference.multiplicity?_positive hm

/-- A count of zero is refused. -/
theorem requested_positive {pipe : String} {declared m : Multiplicity} {count : Option Nat}
    {multiple : Option Bool} (h : requested pipe declared count multiple = .ok m)
    (hdeclared : declared.Positive) : m.Positive := by
  unfold requested at h
  split at h
  · cases h
  · cases h
  · next hzero _ =>
    -- The pattern before has taken the count of zero.
    cases h
    intro hfixed
    cases hfixed
    exact hzero rfl
  · cases h
    exact nofun
  · cases h
    exact hdeclared

/-- A step asks for what its declaration requests, if that is more than one value. -/
theorem Step.make_multiplicity {pipe : String} {b : StepBlueprint} {s : Step}
    (h : Step.make pipe b = .ok s) : ∃ m, requested pipe .single b.count b.multiple = .ok m ∧
      s.multiplicity = if m = .single then none else some m := by
  simp only [Step.make, bind_eq_ok_iff] at h
  obtain ⟨m, hm, h⟩ := h
  refine ⟨m, hm, ?_⟩
  generalize (if m = .single then none else some m) = multiplicity at h ⊢
  -- The batching of the step and the check of its result say nothing of how many values there are.
  split at h
  all_goals
    obtain ⟨batching, _, h⟩ := bind_eq_ok_iff.1 h
    split at h
    · obtain ⟨_, _, h⟩ := bind_eq_ok_iff.1 h
      cases h
      rfl
    · cases h
      rfl

/-- The values that a step asks for. -/
theorem Step.make_positive {pipe : String} {b : StepBlueprint} {s : Step}
    (h : Step.make pipe b = .ok s) : ∀ m ∈ s.multiplicity, m.Positive := by
  obtain ⟨requested, hrequested, hs⟩ := Step.make_multiplicity h
  intro m hm
  rw [hs] at hm
  split at hm
  · cases hm
  · cases hm
    exact requested_positive hrequested nofun

namespace ConceptLibrary

variable {c : ConceptLibrary} {domain code : String} {p : Pipe}

theorem requirementOf_positive {reference : String} {use : ConceptUse} {r : Requirement}
    (h : c.requirementOf domain reference use = .ok r) : r.multiplicity.Positive := by
  unfold requirementOf at h
  split at h
  · cases h
  · next parsed hparsed =>
    obtain ⟨concept, _, h⟩ := bind_eq_ok_iff.1 h
    cases h
    exact Reference.parse?_positive hparsed

/-- What a declaration makes asks for no list without items. -/
theorem Makes.positive {declared m : Multiplicity} {kind : PipeKind}
    (h : c.Makes domain code declared (kind, m)) (hdeclared : declared.Positive) :
    m.Positive ∧ ∀ s ∈ kind.steps, ∀ m ∈ s.multiplicity, m.Positive := by
  have hmade : ∀ {blueprints : List StepBlueprint} {steps : List Step},
      blueprints.mapM (Step.make code) = .ok steps →
      ∀ s ∈ steps, ∀ m ∈ s.multiplicity, m.Positive := by
    intro blueprints steps hsteps s hs
    obtain ⟨b, _, hb⟩ := exists_of_forall₂ (forall₂_of_mapM hsteps) hs
    exact Step.make_positive hb
  cases h with
  | sequence hsteps _ => exact ⟨hdeclared, hmade hsteps⟩
  | parallel hbranches _ _ _ => exact ⟨hdeclared, hmade hbranches⟩
  | condition _ | batch _ _ | operator _ => exact ⟨hdeclared, nofun⟩
  | generator _ hm => exact ⟨requested_positive hm hdeclared, nofun⟩

/-- A pipe that is made asks for no list without items. -/
theorem makePipe_sized {b : PipeBlueprint} (h : c.makePipe domain code b = .ok p) : p.Sized := by
  obtain ⟨inputs, output, kind, multiplicity, hinputs, houtput, hmade, rfl⟩ := makePipe_eq_ok h
  obtain ⟨hmultiplicity, hsteps⟩ := (kindOf_makes hmade).positive (requirementOf_positive houtput)
  exact ⟨inputsOf_forall (fun _ _ _ hr => requirementOf_positive hr) (fun _ _ hr => by cases hr)
    hinputs, hmultiplicity, hsteps⟩

end ConceptLibrary

/-- No pipe of a loaded library asks for a list without items. -/
theorem Library.Loaded.sized {l : Library} {p : Pipe} (h : l.Loaded) (hp : l.Registered p) :
    p.Sized := by
  obtain ⟨_, hadmission⟩ := h.exists_admission hp
  obtain ⟨_, hmade⟩ := hadmission.admitted.made
  exact ConceptLibrary.makePipe_sized hmade

end Conduit
