import Conduit.Library.Load
import Conduit.Proofs.Library.Needs

/-!
# Loaded libraries

A library is loaded (`Loaded`) if it comes from the initial one by loading bundles, under the policy
that no finding is let through. `Library.load_eq_ok_iff` says when a load succeeds, and
`Library.load_ok` what it leaves behind: the pipes that were there, and pipes that passed every
check. From it an induction over the loads gives what all runs rely on (`Loaded.settled`): a loaded
library is linked, and its pipes declare as their inputs exactly the names that they need, for a
load adds nothing to the needs of the pipes that it finds. So the declared inputs are closed under
the rules of the pipes (`Settled.contains_iff_rule`).
-/

namespace Conduit

/-! ## What a definition gives -/

/-- What the runs of a pipe rely on in its own definition: a sequence has a step, and a parallel has
a branch and does something with the results. -/
def PipeKind.Proper : PipeKind → Prop
  | .sequence steps => steps ≠ []
  | .parallel q => q.branches ≠ [] ∧ (q.addEach = true ∨ q.combined.isSome = true)
  | .condition _ | .batch _ _ | .operator _ => True

/-- A parallel that makes no record of its results stores each of them, and has a last one. -/
theorem PipeKind.Proper.stores {kind : PipeKind} {q : Parallel} (h : kind.Proper)
    (hkind : kind = .parallel q) (hnone : q.combined = none) :
    q.addEach = true ∧ ∃ s, q.branches.getLast? = some s := by
  subst hkind
  obtain ⟨hne, heach⟩ := h
  refine ⟨?_, Option.ne_none_iff_exists'.1 (mt List.getLast?_eq_none_iff.1 hne)⟩
  simpa [hnone] using heach

/-- The templates that an operator renders. -/
def Operator.sources : Operator → List String
  | .llm prompt system => prompt :: system.toList
  | .imgGen prompt => prompt.toList
  | .extract _ | .func _ => []
  | .compose template => [template]

/-- A parallel that is made has a branch and does something with the results. -/
theorem Parallel.make_ok {r : Registry} {pipe : String} {branches : List Step} {addEach : Bool}
    {combined : Option Concept} {q : Parallel}
    (h : Parallel.make r pipe branches addEach combined = .ok q) :
    q = ⟨branches, addEach, combined⟩ ∧ branches ≠ [] ∧
      (addEach = true ∨ combined.isSome = true) := by
  unfold Parallel.make invalid at h
  cases hc : (!addEach && combined.isNone) with
  | true => simp [hc, bind, Except.bind] at h
  | false =>
    cases hb : branches.isEmpty with
    | true => simp [hc, hb, bind, Except.bind] at h
    | false =>
      have hq : q = ⟨branches, addEach, combined⟩ := by
        simp only [hc, hb, Bool.false_eq_true, if_false, bind_eq_ok_iff] at h
        obtain ⟨_, _, h⟩ := h
        split at h
        · cases h
          rfl
        · split at h
          · cases h
          · cases h
            rfl
      refine ⟨hq, fun he => ?_, ?_⟩
      · rw [he] at hb
        cases hb
      · cases addEach with
        | true => exact .inl rfl
        | false =>
          cases combined with
          | none => cases hc
          | some c => exact .inr rfl

namespace ConceptLibrary

/-- What a declaration can make: a kind, and how many values it makes. -/
inductive Makes (c : ConceptLibrary) (domain pipe : String) (declared : Multiplicity) :
    PipeKind × Multiplicity → Prop where
  | sequence {blueprints : List StepBlueprint} {steps : List Step}
      (hsteps : blueprints.mapM (Step.make pipe) = .ok steps) (hne : steps ≠ []) :
      Makes c domain pipe declared (.sequence steps, declared)
  | parallel {blueprints : List StepBlueprint} {branches : List Step} {addEach : Bool}
      {combined : Option Concept} (hbranches : blueprints.mapM (Step.make pipe) = .ok branches)
      (hne : branches ≠ []) (hresults : addEach = true ∨ combined.isSome = true)
      (hcombined : ∀ concept ∈ combined, ∃ reference use,
        c.conceptOf domain reference use = .ok concept) :
      Makes c domain pipe declared (.parallel ⟨branches, addEach, combined⟩, declared)
  | condition (d : Condition) : Makes c domain pipe declared (.condition d, declared)
  | batch (branch : String) (b : Batching) :
      Makes c domain pipe declared (.batch branch b, declared)
  | operator (op : Operator) : Makes c domain pipe declared (.operator op, declared)
  | generator {count : Option Nat} {multiple : Option Bool} {m : Multiplicity} (op : Operator)
      (hm : requested pipe declared count multiple = .ok m) :
      Makes c domain pipe declared (.operator op, m)

section Makes

variable {c : ConceptLibrary} {domain pipe : String} {inputs : Requirements}
  {declared : Multiplicity} {result : PipeKind × Multiplicity}

/-- A sequence of a bundle has a step. -/
theorem kindOf_sequence_makes {blueprints : List StepBlueprint}
    (h : c.kindOf domain pipe inputs declared (.sequence blueprints) = .ok result) :
    c.Makes domain pipe declared result := by
  unfold kindOf at h
  cases blueprints with
  | nil => cases h
  | cons step rest =>
    simp only [List.isEmpty_cons, Bool.false_eq_true, if_false, bind_eq_ok_iff] at h
    obtain ⟨steps, hsteps, h⟩ := h
    cases h
    refine .sequence hsteps ?_
    cases forall₂_of_mapM hsteps with
    | cons _ _ => exact List.cons_ne_nil _ _

/-- A parallel of a bundle has a branch and does something with the results, and it combines them to
a concept that it names. -/
theorem kindOf_parallel_makes {blueprints : List StepBlueprint} {addEach : Bool}
    {combined : Option String}
    (h : c.kindOf domain pipe inputs declared (.parallel blueprints addEach combined) =
      .ok result) : c.Makes domain pipe declared result := by
  unfold kindOf at h
  simp only [bind_eq_ok_iff] at h
  obtain ⟨branches, hbranches, h⟩ := h
  cases combined with
  | none =>
    simp only [bind_eq_ok_iff] at h
    obtain ⟨_, hnone, q, hq, h⟩ := h
    cases hnone
    cases h
    obtain ⟨rfl, hne, hresults⟩ := Parallel.make_ok hq
    exact .parallel hbranches hne hresults nofun
  | some reference =>
    simp only [bind_eq_ok_iff, map_eq_ok_iff] at h
    obtain ⟨_, ⟨concept, hconcept, rfl⟩, q, hq, h⟩ := h
    cases h
    obtain ⟨rfl, hne, hresults⟩ := Parallel.make_ok hq
    refine .parallel hbranches hne hresults fun _ hmem => ?_
    cases hmem
    exact ⟨reference, _, hconcept⟩

/-- A language model of a bundle makes as many values as are requested. -/
theorem kindOf_llm_makes {prompt : String} {system : Option String} {count : Option Nat}
    {multiple : Option Bool}
    (h : c.kindOf domain pipe inputs declared (.llm prompt system count multiple) = .ok result) :
    c.Makes domain pipe declared result := by
  unfold kindOf at h
  simp only [bind_eq_ok_iff] at h
  obtain ⟨_, _, h⟩ := h
  cases system with
  | some source =>
    simp only [bind_eq_ok_iff] at h
    obtain ⟨_, _, _, hm, h⟩ := h
    cases h
    exact .generator _ hm
  | none =>
    simp only [bind_eq_ok_iff] at h
    obtain ⟨_, hm, h⟩ := h
    cases h
    exact .generator _ hm

/-- An image generator of a bundle makes as many values as are requested. -/
theorem kindOf_imgGen_makes {prompt : Option String} {count : Option Nat}
    (h : c.kindOf domain pipe inputs declared (.imgGen prompt count) = .ok result) :
    c.Makes domain pipe declared result := by
  unfold kindOf at h
  cases prompt with
  | some source =>
    simp only [bind_eq_ok_iff] at h
    obtain ⟨_, _, _, hm, h⟩ := h
    cases h
    exact .generator _ hm
  | none =>
    dsimp only at h
    split at h
    · cases h
    · simp only [bind_eq_ok_iff] at h
      obtain ⟨_, hm, h⟩ := h
      cases h
      exact .generator _ hm

/-- What a pipe of a bundle does is what its declaration can make. -/
theorem kindOf_makes {body : PipeBody}
    (h : c.kindOf domain pipe inputs declared body = .ok result) :
    c.Makes domain pipe declared result := by
  cases body with
  | sequence blueprints => exact kindOf_sequence_makes h
  | parallel blueprints addEach combined => exact kindOf_parallel_makes h
  | condition b =>
    unfold kindOf at h
    simp only [bind_eq_ok_iff] at h
    obtain ⟨_, _, h⟩ := h
    cases h
    exact .condition _
  | batch branch list item =>
    unfold kindOf at h
    simp only [bind_eq_ok_iff] at h
    obtain ⟨_, _, h⟩ := h
    cases h
    exact .batch _ _
  | llm prompt system count multiple => exact kindOf_llm_makes h
  | imgGen prompt count => exact kindOf_imgGen_makes h
  | extract pageViews =>
    unfold kindOf at h
    dsimp only at h
    split at h
    · cases h
    · cases h
      exact .operator _
  | func name =>
    unfold kindOf at h
    dsimp only at h
    split at h
    · cases h
    · cases h
      exact .operator _
  | compose template =>
    unfold kindOf at h
    simp only [bind_eq_ok_iff] at h
    obtain ⟨_, _, h⟩ := h
    cases h
    exact .operator _

/-- An image generator without a description has one input. -/
theorem size_of_kindOf_imgGen {body : PipeBody} {m : Multiplicity}
    (h : c.kindOf domain pipe inputs declared body = .ok (.operator (.imgGen none), m)) :
    inputs.size = 1 := by
  cases body with
  | imgGen prompt count =>
    unfold kindOf at h
    cases prompt with
    | some source =>
      simp only [bind_eq_ok_iff] at h
      obtain ⟨_, _, _, _, h⟩ := h
      cases h
    | none =>
      dsimp only at h
      split at h
      · cases h
      · next hsize => simpa using hsize
  -- every other body makes another kind
  | sequence blueprints =>
    simp only [kindOf] at h
    split at h <;> simp [bind_eq_ok_iff, pure, Except.pure, invalid] at h
  | parallel blueprints addEach combined =>
    simp only [kindOf, bind_eq_ok_iff] at h
    split at h <;> simp [bind_eq_ok_iff, pure, Except.pure] at h
  | llm prompt system count multiple =>
    simp only [kindOf, bind_eq_ok_iff] at h
    split at h <;> simp [bind_eq_ok_iff, pure, Except.pure] at h
  | extract _ | func _ =>
    simp only [kindOf] at h
    split at h <;> simp [bind, Except.bind, pure, Except.pure, invalid] at h
  | condition _ | batch _ _ _ | compose _ =>
    simp [kindOf, bind_eq_ok_iff, pure, Except.pure] at h

/-- What a declaration makes is proper. -/
theorem Makes.proper (h : c.Makes domain pipe declared result) : result.1.Proper := by
  cases h with
  | sequence _ hne => exact hne
  | parallel _ hne hresults _ => exact ⟨hne, hresults⟩
  | condition _ | batch _ _ | operator _ | generator _ _ => trivial

end Makes

/-- What holds of all requirements that are read holds of declared inputs. -/
theorem inputsOf_forall {c : ConceptLibrary} {domain code : String} {P : Requirement → Prop}
    {known inputs : Requirements} {declared : List (String × String)}
    (hread : ∀ reference use r, c.requirementOf domain reference use = .ok r → P r)
    (hknown : ∀ name r, known.get? name = some r → P r)
    (h : c.inputsOf domain code known declared = .ok inputs) :
    ∀ name r, inputs.get? name = some r → P r := by
  induction declared generalizing known with
  | nil =>
    cases h
    exact hknown
  | cons d declared ih =>
    obtain ⟨name, reference⟩ := d
    simp only [inputsOf, bind_eq_ok_iff] at h
    obtain ⟨_, _, r, hr, h⟩ := h
    refine ih (fun key s hs => ?_) h
    rw [Dict.get?_insertNew] at hs
    split at hs
    · cases hold : known.get? key with
      | some old =>
        rw [hold] at hs
        cases hs
        exact hknown key old hold
      | none =>
        rw [hold] at hs
        cases hs
        exact hread _ _ _ hr
    · exact hknown key s hs

/-- A pipe that is made has the code and the domain that it is made for, and the inputs, the output
and the kind that its declaration makes. -/
theorem makePipe_eq_ok {c : ConceptLibrary} {domain code : String} {b : PipeBlueprint} {p : Pipe}
    (h : c.makePipe domain code b = .ok p) : ∃ inputs output kind multiplicity,
      c.inputsOf domain code .empty b.signature.inputs.entries = .ok inputs ∧
      c.requirementOf domain b.signature.output (.output code) = .ok output ∧
      c.kindOf domain code inputs output.multiplicity b.body = .ok (kind, multiplicity) ∧
      p = ⟨code, domain, b.signature.description, inputs, output.concept, multiplicity, kind⟩ := by
  unfold makePipe at h
  cases hc : Text.isPipeCode code with
  | false => simp [hc, bind, Except.bind, throw, throwThe, MonadExceptOf.throw] at h
  | true =>
    simp only [hc, Bool.not_true, Bool.false_eq_true, if_false, bind_eq_ok_iff] at h
    obtain ⟨inputs, hinputs, output, houtput, ⟨kind, multiplicity⟩, hkind, h⟩ := h
    cases h
    exact ⟨inputs, output, kind, multiplicity, hinputs, houtput, hkind, rfl⟩

/-- A pipe that is made has the code and the domain that it is made for, and what it does is
proper. -/
theorem makePipe_ok {c : ConceptLibrary} {domain code : String} {b : PipeBlueprint} {p : Pipe}
    (h : c.makePipe domain code b = .ok p) :
    p.code = code ∧ p.domain = domain ∧ p.kind.Proper := by
  obtain ⟨_, _, _, _, _, _, hkind, rfl⟩ := makePipe_eq_ok h
  exact ⟨rfl, rfl, (kindOf_makes hkind).proper⟩

end ConceptLibrary

namespace Library

variable {l l' : Library} {p q : Pipe} {name : String}

/-! ## One load -/

/-- Every pipe of the first library is in the second. -/
def Within (l l' : Library) : Prop :=
  ∀ code p, l.pipes.get? code = some p → l'.pipes.get? code = some p

theorem Within.registered (h : l.Within l') (hp : l.Registered p) : l'.Registered p :=
  h p.code p hp

/-- A pipe that has been made from a definition and has passed every check. -/
structure Admitted (l : Library) (policy : ReactionPolicy) (p : Pipe) : Prop where
  made : ∃ b, l.concepts.makePipe p.domain p.code b = .ok p
  subPipes : l.checkSubPipes p = .ok ()
  outcomes : l.checkOutcomes p = .ok ()
  signature : l.checkSignature policy p = .ok ()

theorem checkSubPipes_eq_ok_iff :
    l.checkSubPipes p = .ok () ↔ ∀ code ∈ p.subPipes, l.pipes.contains code = true := by
  simp only [checkSubPipes, List.isEmpty_iff, List.filter_eq_nil_iff, Bool.not_eq_true',
    Bool.not_eq_false]
  exact ite_eq_left_iff.trans (by simp)

/-- Adding a pipe of a new code keeps the others. -/
theorem addPipe_ok (h : l.addPipe p = .ok l') :
    l'.concepts = l.concepts ∧ l.Within l' ∧
      ∀ code q, l'.pipes.get? code = some q →
        l.pipes.get? code = some q ∨ (p.code = code ∧ q = p) := by
  unfold addPipe at h
  split at h
  · cases h
  · next hnew =>
    cases h
    exact ⟨rfl, fun code q hq => Dict.get?_insert_of_get? hnew hq,
      fun code q hq => Dict.get?_or_eq_of_get?_insert hq⟩

/-- Adding the pipes of a bundle keeps the others, and adds pipes that are made from it. -/
theorem addPipes_ok {domain : String} {es : List (String × PipeBlueprint)}
    (h : addPipes domain l es = .ok l') :
    l'.concepts = l.concepts ∧ l.Within l' ∧
      ∀ code p, l'.pipes.get? code = some p → l.pipes.get? code = some p ∨
        ∃ b, (code, b) ∈ es ∧ l.concepts.makePipe domain code b = .ok p := by
  induction es generalizing l with
  | nil =>
    cases h
    exact ⟨rfl, fun _ _ hp => hp, fun _ _ hp => .inl hp⟩
  | cons e es ih =>
    obtain ⟨code, b⟩ := e
    simp only [addPipes, bind_eq_ok_iff] at h
    obtain ⟨p, hp, l₁, hl₁, h⟩ := h
    obtain ⟨hc₁, hw₁, hnew₁⟩ := addPipe_ok hl₁
    obtain ⟨hc, hw, hnew⟩ := ih h
    refine ⟨hc.trans hc₁, fun k q hq => hw k q (hw₁ k q hq), ?_⟩
    intro k q hq
    rcases hnew k q hq with hq | ⟨b', hb', hmade⟩
    · rcases hnew₁ k q hq with hq | ⟨hk, rfl⟩
      · exact .inl hq
      · rw [← hk, (ConceptLibrary.makePipe_ok hp).1]
        exact .inr ⟨b, List.mem_cons_self, hp⟩
    · rw [hc₁] at hmade
      exact .inr ⟨b', List.mem_cons_of_mem _ hb', hmade⟩

/-- What is found of a bundle that has been added. -/
theorem mem_pipesOf {b : Bundle} {code : String} {d : PipeBlueprint}
    (hcode : (code, d) ∈ b.pipes.entries) (hp : l.pipes.get? code = some p) : p ∈ l.pipesOf b :=
  List.mem_filterMap.2 ⟨code, List.mem_map_of_mem hcode, hp⟩

/-- A bundle is loaded if its domain is new, its concepts and its pipes can be added one after
another, and then its pipes and its main pipe pass their checks. -/
theorem load_eq_ok_iff {b : Bundle} {policy : ReactionPolicy} : l.load b policy = .ok l' ↔
    l.domains.contains b.domain.code = false ∧
    (∃ concepts, addConcepts b.domain.code l.concepts b.concepts.entries = .ok concepts ∧
      addPipes b.domain.code ⟨l.domains.insert b.domain.code b.domain, concepts, l.pipes⟩
        b.pipes.entries = .ok l') ∧
    (∀ p ∈ l'.pipesOf b, l'.checkSubPipes p = .ok () ∧ l'.checkOutcomes p = .ok () ∧
      l'.checkSignature policy p = .ok ()) ∧
    l'.checkMain b = .ok () := by
  have hdomain (l₀ : Library) : l.addDomain b.domain = .ok l₀ ↔
      l.domains.contains b.domain.code = false ∧
        { l with domains := l.domains.insert b.domain.code b.domain } = l₀ := by
    unfold addDomain
    cases l.domains.contains b.domain.code <;> simp
  simp only [load, define, bind_eq_ok_iff, mapError_eq_ok_iff, hdomain]
  constructor
  · rintro ⟨_, ⟨_, ⟨hnew, rfl⟩, concepts, hconcepts, l₂, hpipes, ⟨⟩, hchecks, ⟨⟩, hmain, hdefined⟩,
      ⟨⟩, hsignatures, hload⟩
    cases hdefined
    cases hload
    refine ⟨hnew, ⟨concepts, hconcepts, hpipes⟩, fun p hp => ?_, hmain⟩
    obtain ⟨⟨⟩, hsub, houtcomes⟩ := bind_eq_ok_iff.1 (forM_eq_ok_iff.1 hchecks p hp)
    exact ⟨hsub, houtcomes, forM_eq_ok_iff.1 hsignatures p hp⟩
  · rintro ⟨hnew, ⟨concepts, hconcepts, hpipes⟩, hchecks, hmain⟩
    refine ⟨l', ⟨_, ⟨hnew, rfl⟩, concepts, hconcepts, l', hpipes, (), ?_, (), hmain, rfl⟩, (), ?_,
      rfl⟩
    · exact forM_eq_ok_iff.2 fun p hp =>
        bind_eq_ok_iff.2 ⟨(), (hchecks p hp).1, (hchecks p hp).2.1⟩
    · exact forM_eq_ok_iff.2 fun p hp => (hchecks p hp).2.2

/-- A load keeps the pipes that were there and adds pipes that pass every check. -/
theorem load_ok {b : Bundle} {policy : ReactionPolicy} (h : l.load b policy = .ok l') :
    addConcepts b.domain.code l.concepts b.concepts.entries = .ok l'.concepts ∧ l.Within l' ∧
      ∀ code p, l'.pipes.get? code = some p →
        l.pipes.get? code = some p ∨ (p.code = code ∧ l'.Admitted policy p) := by
  obtain ⟨_, ⟨concepts, hconcepts, hpipes⟩, hchecks, _⟩ := load_eq_ok_iff.1 h
  obtain ⟨rfl, hw, hnew⟩ := addPipes_ok hpipes
  refine ⟨hconcepts, hw, fun code p hp => ?_⟩
  rcases hnew code p hp with hold | ⟨d, hd, hmade⟩
  · exact .inl hold
  · obtain ⟨hcode, hdomain, _⟩ := ConceptLibrary.makePipe_ok hmade
    obtain ⟨hsub, houtcomes, hsignature⟩ := hchecks p (mem_pipesOf hd hp)
    refine .inr ⟨hcode, ⟨d, ?_⟩, hsub, houtcomes, hsignature⟩
    rw [hcode, hdomain]
    exact hmade

/-- Pipes are under their own codes in the initial library, and they stay so when a bundle is loaded,
under any policy, and when a domain is taken out. -/
theorem keyed_initial : initial.Keyed := nofun

theorem Keyed.load (hk : l.Keyed) {b : Bundle} {policy : ReactionPolicy}
    (h : l.load b policy = .ok l') : l'.Keyed := by
  intro code p hp
  rcases (load_ok h).2.2 code p hp with hold | ⟨hcode, _⟩
  · exact hk code p hold
  · exact hcode

theorem Keyed.unload (hk : l.Keyed) {domain : String} (h : l.unload? domain = some l') :
    l'.Keyed := by
  unfold unload? at h
  split at h
  · cases h
    intro code p hp
    have hmem := List.mem_of_mem_filter (Dict.mem_entries_of_get? hp)
    exact hk code p (Dict.get?_of_mem_entries hmem)
  · cases h

/-! ## Signatures -/

/-- A policy lets findings pass if it lets none of them stop the load. -/
theorem raise?_eq_ok_iff {policy : ReactionPolicy} {pipe : String} {fs : List Finding} :
    policy.raise? pipe fs = .ok () ↔ ∀ f ∈ fs, policy.reaction f.mistake.kind ≠ .raise := by
  simp only [ReactionPolicy.raise?, List.isEmpty_iff, List.filter_eq_nil_iff, beq_iff_eq]
  exact ite_eq_left_iff.trans (by simp)

/-- A signature that passes the check without exceptions has no finding. -/
theorem findings_of_signature (h : l.checkSignature {} p = .ok ()) : l.findings p = .ok [] := by
  simp only [checkSignature, bind_eq_ok_iff, mapError_eq_ok_iff] at h
  obtain ⟨fs, hfs, h⟩ := h
  have hnone : fs = [] :=
    List.eq_nil_iff_forall_not_mem.2 fun f hf => raise?_eq_ok_iff.1 h f hf rfl
  rw [hfs, hnone]

/-- What is found of a pipe follows from what it reads and needs, and from how its declaration
compares with that. -/
theorem findings_congr (hrequired : l'.required p = l.required p) (hneeds : l'.needs p = l.needs p)
    (hmistakes : ∀ needs, l.needs p = .ok needs →
      l'.controllerMistakes p needs = l.controllerMistakes p needs) :
    l'.findings p = l.findings p := by
  unfold findings
  rw [hrequired, hneeds]
  cases p.kind with
  | operator op => rfl
  | sequence _ | parallel _ | condition _ | batch _ _ =>
    refine bind_congr_of_ok fun needs hok => ?_
    rw [hmistakes needs hok]

/-- An operator without findings declares what it reads. -/
theorem required_of_findings {op : Operator} (hkind : p.kind = .operator op)
    (h : l.findings p = .ok []) :
    ∃ read, l.required p = .ok read ∧ ∀ name ∈ read, p.inputs.contains name = true := by
  simp only [findings, hkind, bind_eq_ok_iff] at h
  obtain ⟨read, hread, h⟩ := h
  refine ⟨read, hread, ?_⟩
  intro name hname
  have hnil : operatorMistakes p read = [] := by simpa [pure, Except.pure] using h
  simp only [operatorMistakes, List.append_eq_nil_iff, List.map_eq_nil_iff, List.filter_eq_nil_iff]
    at hnil
  simpa using hnil.1 name hname

/-- A controller without findings declares its inputs and its output as its needs and the pipes that
it runs ask for. -/
theorem controllerMistakes_of_findings (hkind : ∀ op, p.kind ≠ .operator op)
    (h : l.findings p = .ok []) :
    ∃ needs, l.needs p = .ok needs ∧ l.controllerMistakes p needs = [] := by
  unfold findings at h
  cases hk : p.kind with
  | operator op => exact absurd hk (hkind op)
  | _ =>
    simp only [hk, bind_eq_ok_iff] at h
    obtain ⟨needs, hneeds, h⟩ := h
    exact ⟨needs, hneeds, by simpa [pure, Except.pure] using h⟩

/-- A controller without findings declares what it needs, and nothing else. -/
theorem needs_of_findings (hkind : ∀ op, p.kind ≠ .operator op) (h : l.findings p = .ok []) :
    ∃ needs, l.needs p = .ok needs ∧
      ∀ name, p.inputs.contains name = true ↔ needs.contains name = true := by
  obtain ⟨needs, hneeds, hnil⟩ := controllerMistakes_of_findings hkind h
  simp only [controllerMistakes, List.append_eq_nil_iff, List.map_eq_nil_iff,
    List.filter_eq_nil_iff, List.flatMap_eq_nil_iff] at hnil
  refine ⟨needs, hneeds, fun name => ⟨fun hin => ?_, fun hneed => ?_⟩⟩
  · simpa using hnil.1.2 name (Dict.mem_keys_iff.2 hin)
  · obtain ⟨r, hr⟩ := Dict.exists_of_contains hneed
    have hmistakes := hnil.1.1 (name, r) (Dict.mem_entries_of_get? hr)
    cases hin : p.inputs.get? name with
    | none => simp [needMistakes, hin] at hmistakes
    | some declared => exact Dict.contains_of_get? hin

/-! ## What has needs is linked -/

section Inversion

variable {visit : Pipe → Except NeedsError Requirements} {owner : String}

theorem absorb_ok {branch : Pipe} {needs own : Requirements} {b : Batching}
    (h : absorb owner branch needs b = .ok own) : branch.inputs.contains b.item = true := by
  unfold absorb at h
  split at h
  · cases h
  · next hitem => exact Dict.contains_of_get? hitem

theorem stepNeeds_ok {target : Pipe} {s : Step} {needs own : Requirements}
    (h : stepNeeds owner target s needs = .ok own) :
    ∀ b ∈ s.batching, target.inputs.contains b.item = true := by
  intro b hb
  rw [Option.mem_def] at hb
  simp only [stepNeeds, hb] at h
  exact absorb_ok h

theorem sequenceNeeds_ok {steps : List Step} {known needs : Requirements} {produced : List String}
    (h : l.sequenceNeeds visit owner known produced steps = .ok needs) :
    ∀ s ∈ steps, l.StepLinked s := by
  induction steps generalizing known produced with
  | nil => exact fun _ hs => absurd hs List.not_mem_nil
  | cons s rest ih =>
    simp only [sequenceNeeds, bind_eq_ok_iff, mapError_eq_ok_iff, pipe_eq_ok_iff] at h
    obtain ⟨target, ht, _, _, _, hown, h⟩ := h
    exact List.forall_mem_cons.2 ⟨⟨target, ht, stepNeeds_ok hown⟩, ih h⟩

theorem branchNeeds_ok {steps : List Step} {known needs : Requirements}
    (h : l.branchNeeds visit owner known steps = .ok needs) : ∀ s ∈ steps, l.StepLinked s := by
  induction steps generalizing known with
  | nil => exact fun _ hs => absurd hs List.not_mem_nil
  | cons s rest ih =>
    simp only [branchNeeds, bind_eq_ok_iff, mapError_eq_ok_iff, pipe_eq_ok_iff] at h
    obtain ⟨target, ht, _, _, _, hown, h⟩ := h
    exact List.forall_mem_cons.2 ⟨⟨target, ht, stepNeeds_ok hown⟩, ih h⟩

theorem outcomeNeeds_ok {codes : List String} {known needs : Requirements}
    (h : l.outcomeNeeds visit owner known codes = .ok needs) :
    ∀ code ∈ codes, l.pipes.contains code = true := by
  induction codes generalizing known with
  | nil => exact fun _ hs => absurd hs List.not_mem_nil
  | cons code rest ih =>
    simp only [outcomeNeeds, bind_eq_ok_iff, mapError_eq_ok_iff, pipe_eq_ok_iff] at h
    obtain ⟨target, ht, _, _, h⟩ := h
    exact List.forall_mem_cons.2 ⟨Dict.contains_of_get? ht, ih h⟩

/-- What a pipe names is there if its needs can be computed. -/
theorem pipeLinked_of_needsOf {needs : Requirements} (h : l.needsOf visit p = .ok needs) :
    l.PipeLinked p := by
  unfold needsOf at h
  unfold PipeLinked
  cases hkind : p.kind with
  | operator op => trivial
  | sequence steps =>
    simp only [hkind] at h
    exact sequenceNeeds_ok h
  | parallel q =>
    simp only [hkind] at h
    exact branchNeeds_ok h
  | condition c =>
    simp only [hkind, bind_eq_ok_iff] at h
    obtain ⟨names, hnames, h⟩ := h
    exact ⟨⟨names, hnames⟩, outcomeNeeds_ok h⟩
  | batch branch b =>
    simp only [hkind, bind_eq_ok_iff, mapError_eq_ok_iff, pipe_eq_ok_iff] at h
    obtain ⟨target, ht, _, _, h⟩ := h
    exact ⟨target, ht, absorb_ok h⟩

/-- What a pipe names is there if its needs can be computed. -/
theorem pipeLinked_of_needs {needs : Requirements} (h : l.needs p = .ok needs) :
    l.PipeLinked p := by
  unfold Library.needs at h
  rw [needsWithin, if_neg List.not_mem_nil] at h
  exact pipeLinked_of_needsOf h

end Inversion

/-! ## Loading keeps needs -/

section Within

variable {need : Pipe → Prop}

theorem StepLinked.within {s : Step} (hw : l.Within l') (h : l.StepLinked s) : l'.StepLinked s := by
  obtain ⟨target, ht, hi⟩ := h
  exact ⟨target, hw _ _ ht, hi⟩

theorem contains_within {code : String} (hw : l.Within l') (h : l.pipes.contains code = true) :
    l'.pipes.contains code = true := by
  obtain ⟨p, hp⟩ := Dict.exists_of_contains h
  exact Dict.contains_of_get? (hw _ _ hp)

/-- What a pipe names is still there when pipes are added. -/
theorem PipeLinked.within (hw : l.Within l') (h : l.PipeLinked p) : l'.PipeLinked p := by
  unfold PipeLinked at h ⊢
  cases hkind : p.kind with
  | operator op => trivial
  | sequence steps =>
    simp only [hkind] at h
    exact fun s hs => (h s hs).within hw
  | parallel q =>
    simp only [hkind] at h
    exact fun s hs => (h s hs).within hw
  | condition c =>
    simp only [hkind] at h
    exact ⟨h.1, fun code hc => contains_within hw (h.2 code hc)⟩
  | batch branch b =>
    simp only [hkind] at h
    obtain ⟨target, ht, hi⟩ := h
    exact ⟨target, hw _ _ ht, hi⟩

/-- A pipe that was found before is the one that is found after. -/
theorem exists_get?_congr {code : String} {P : Pipe → Prop} (hw : l.Within l')
    (h : l.pipes.get? code = some q) :
    (∃ target, l.pipes.get? code = some target ∧ P target) ↔
      ∃ target, l'.pipes.get? code = some target ∧ P target := by
  simp [h, hw _ _ h]

theorem stepsRule_congr (hw : l.Within l') {steps : List Step} (hl : ∀ s ∈ steps, l.StepLinked s)
    (produced : List String) :
    l.StepsRule name need produced steps ↔ l'.StepsRule name need produced steps := by
  induction steps generalizing produced with
  | nil => exact Iff.rfl
  | cons s rest ih =>
    obtain ⟨target, ht, _⟩ := hl s List.mem_cons_self
    have hrest := ih fun t h => hl t (List.mem_cons_of_mem s h)
    simp only [StepsRule, ht, hw _ _ ht, hrest]

/-- The rule of a pipe does not change when pipes are added to those that it names. -/
theorem rule_congr (hw : l.Within l') (hp : l.PipeLinked p) :
    l.Rule name need p ↔ l'.Rule name need p := by
  unfold PipeLinked at hp
  unfold Rule
  cases hkind : p.kind with
  | operator op => exact Iff.rfl
  | sequence steps =>
    simp only [hkind] at hp ⊢
    exact stepsRule_congr hw hp []
  | parallel q =>
    simp only [hkind] at hp ⊢
    refine exists_congr fun s => and_congr_right fun hs => ?_
    obtain ⟨target, ht, _⟩ := hp s hs
    exact exists_get?_congr hw ht
  | condition c =>
    simp only [hkind] at hp ⊢
    refine or_congr Iff.rfl (exists_congr fun code => and_congr_right fun hc => ?_)
    obtain ⟨target, ht⟩ := Dict.exists_of_contains (hp.2 code hc)
    exact exists_get?_congr hw ht
  | batch branch b =>
    simp only [hkind] at hp ⊢
    obtain ⟨target, ht, _⟩ := hp
    exact exists_get?_congr hw ht

/-- A chain of pipes is still one when pipes are added. -/
theorem NeededPast.within (h : l.Linked) (hw : l.Within l') (hp : l.Registered p)
    (hn : l.NeededPast name [] p) : l'.NeededPast name [] p := by
  induction hn with
  | @reads p hpath hr => exact .reads hpath ((rule_congr hw (h.pipes p hp)).1 hr)
  | @passes p q hpath hq hpass _ ih =>
    exact .passes hpath (hw.registered hq) ((rule_congr hw (h.pipes p hp)).1 hpass) (ih hq)

/-- A chain of pipes that starts among the pipes that were there stays among them. -/
theorem NeededPast.of_within (h : l.Linked) (hw : l.Within l') (hp : l.Registered p)
    (hn : l'.NeededPast name [] p) : l.NeededPast name [] p := by
  induction hn with
  | @reads p hpath hr => exact .reads hpath ((rule_congr hw (h.pipes p hp)).2 hr)
  | @passes p q hpath hq hpass _ ih =>
    have hpass := (rule_congr hw (h.pipes p hp)).2 hpass
    rcases hpass.split h.keyed with hr | ⟨q', hq', rfl, _⟩
    · exact .reads hpath hr
    · exact .passes hpath hq' hpass (ih hq')

/-- Pipes that are added change nothing about the needs of those that were there. -/
theorem needsName_congr (h : l.Linked) (h' : l'.Linked) (hw : l.Within l') (hp : l.Registered p) :
    l.NeedsName name p ↔ l'.NeedsName name p := by
  rw [needs_iff h hp, needs_iff h' (hw.registered hp)]
  exact ⟨.within h hw hp, .of_within h hw hp⟩

end Within

/-! ## Loaded libraries -/

/-- A library that comes from the initial one by loading bundles, with no finding let through. -/
inductive Loaded : Library → Prop where
  | initial : Loaded .initial
  | load {l l' : Library} {b : Bundle} (hl : Loaded l) (h : l.load b {} = .ok l') : Loaded l'

/-- What the runs of a pipe rely on in its declaration: its inputs are the names that it needs, and
an operator declares the names that its templates read. -/
structure Declared (l : Library) (p : Pipe) : Prop where
  proper : p.kind.Proper
  inputs : ∀ name, p.inputs.contains name = true ↔ l.NeedsName name p
  sources : ∀ op, p.kind = .operator op → ∀ source ∈ op.sources,
    ∃ names, Template.freeNames? source = .ok names ∧
      ∀ name ∈ names, p.inputs.contains name = true

/-- What the runs of a library rely on. -/
structure Settled (l : Library) : Prop where
  linked : l.Linked
  declared : ∀ p, l.Registered p → l.Declared p

/-- An operator needs its inputs. -/
theorem needsName_operator {op : Operator} (hkind : p.kind = .operator op) :
    l.NeedsName name p ↔ p.inputs.contains name = true := by
  have hneeds : l.needs p = .ok p.inputs := by
    unfold Library.needs
    rw [needsWithin, if_neg List.not_mem_nil]
    simp only [needsOf, hkind]
  unfold NeedsName
  rw [hneeds]
  constructor
  · rintro ⟨_, he, hn⟩
    cases he
    exact hn
  · exact fun hn => ⟨_, rfl, hn⟩

/-- The images in a prompt are inputs. -/
theorem contains_of_mem_imageInputs (h : name ∈ l.imageInputs p) :
    p.inputs.contains name = true := by
  unfold imageInputs at h
  obtain ⟨entry, hentry, rfl⟩ := List.mem_map.1 h
  rw [← Dict.mem_keys_iff]
  exact List.mem_map_of_mem (List.mem_filter.1 hentry).1

/-- What an operator reads are the names of its templates, and images among its inputs. -/
theorem sources_of_required {op : Operator} {read : List String} (hkind : p.kind = .operator op)
    (h : l.required p = .ok read) :
    ∀ source ∈ op.sources, ∃ names, Template.freeNames? source = .ok names ∧
      ∀ name ∈ names, name ∈ read := by
  cases op with
  | llm prompt system =>
    have hread : ∃ inPrompt inSystem, Template.freeNames? prompt = .ok inPrompt ∧
        (∀ source ∈ system, Template.freeNames? source = .ok inSystem) ∧
        read = distinct (inPrompt ++ inSystem ++ l.imageInputs p) := by
      cases system with
      | none =>
        simp only [required, hkind, bind_eq_ok_iff, mapError_eq_ok_iff] at h
        obtain ⟨inPrompt, hprompt, inSystem, _, h⟩ := h
        cases h
        refine ⟨inPrompt, inSystem, hprompt, fun _ hs => ?_, rfl⟩
        cases hs
      | some source =>
        simp only [required, hkind, bind_eq_ok_iff, mapError_eq_ok_iff] at h
        obtain ⟨inPrompt, hprompt, inSystem, hsystem, h⟩ := h
        cases h
        refine ⟨inPrompt, inSystem, hprompt, ?_, rfl⟩
        intro s hs
        rw [← Option.some.inj hs]
        exact hsystem
    obtain ⟨inPrompt, inSystem, hprompt, hsystem, rfl⟩ := hread
    intro source hs
    rcases List.mem_cons.1 hs with rfl | hs
    · exact ⟨inPrompt, hprompt, fun name hn => by simp [hn]⟩
    · exact ⟨inSystem, hsystem source (Option.mem_toList.1 hs), fun name hn => by simp [hn]⟩
  | imgGen prompt =>
    cases prompt with
    | none => exact fun _ hs => absurd hs List.not_mem_nil
    | some source =>
      simp only [required, hkind, mapError_eq_ok_iff] at h
      exact fun s hs => ⟨read, by rw [List.mem_singleton.1 hs]; exact h, fun _ hn => hn⟩
  | extract pageViews => exact fun _ hs => absurd hs List.not_mem_nil
  | func function => exact fun _ hs => absurd hs List.not_mem_nil
  | compose source =>
    simp only [required, hkind, mapError_eq_ok_iff] at h
    exact fun s hs => ⟨read, by rw [List.mem_singleton.1 hs]; exact h, fun _ hn => hn⟩

/-- A pipe without findings declares what its runs rely on. -/
theorem Declared.of_findings (hproper : p.kind.Proper)
    (hf : l.findings p = .ok []) : l.Declared p where
  proper := hproper
  inputs name := by
    by_cases hkind : ∃ op, p.kind = .operator op
    · obtain ⟨op, hkind⟩ := hkind
      exact (needsName_operator hkind).symm
    · obtain ⟨needs, hneeds, hiff⟩ := needs_of_findings (fun op hop => hkind ⟨op, hop⟩) hf
      rw [hiff]
      exact ⟨fun hn => ⟨needs, hneeds, hn⟩, fun ⟨_, he, hn⟩ => by
        rw [hneeds] at he
        cases he
        exact hn⟩
  sources op hkind source hs := by
    obtain ⟨read, hread, hin⟩ := required_of_findings hkind hf
    obtain ⟨names, hnames, hsub⟩ := sources_of_required hkind hread source hs
    exact ⟨names, hnames, fun name hn => hin name (hsub name hn)⟩

/-- A pipe that has been admitted names what is there. -/
theorem Admitted.pipeLinked (h : l.Admitted {} p) : l.PipeLinked p := by
  by_cases hkind : ∃ op, p.kind = .operator op
  · obtain ⟨op, hkind⟩ := hkind
    unfold PipeLinked
    rw [hkind]
    trivial
  · obtain ⟨needs, hneeds, _⟩ := needs_of_findings (fun op hop => hkind ⟨op, hop⟩)
      (findings_of_signature h.signature)
    exact pipeLinked_of_needs hneeds

/-- A load keeps a library in order. -/
theorem Settled.load {b : Bundle} (h : l.Settled) (hload : l.load b {} = .ok l') : l'.Settled := by
  obtain ⟨_, hw, hnew⟩ := load_ok hload
  have hlinked : l'.Linked := by
    refine ⟨fun code p hp => ?_, fun p hp => ?_⟩
    · rcases hnew code p hp with hold | ⟨hcode, _⟩
      · exact h.linked.keyed code p hold
      · exact hcode
    · rcases hnew p.code p hp with hold | ⟨_, hadm⟩
      · exact (h.linked.pipes p hold).within hw
      · exact hadm.pipeLinked
  refine ⟨hlinked, ?_⟩
  intro p hp
  rcases hnew p.code p hp with hold | ⟨_, hadm⟩
  · have hd := h.declared p hold
    refine ⟨hd.proper, ?_, hd.sources⟩
    intro name
    rw [hd.inputs name]
    exact needsName_congr h.linked hlinked hw hold
  · obtain ⟨d, hmade⟩ := hadm.made
    exact .of_findings (ConceptLibrary.makePipe_ok hmade).2.2
      (findings_of_signature hadm.signature)

/-- The initial library holds no pipes. -/
theorem settled_initial : Settled .initial where
  linked :=
    { keyed := fun _ _ hp => by cases hp
      pipes := fun _ hp => by cases hp }
  declared _ hp := by cases hp

/-- A loaded library is in order. -/
theorem Loaded.settled (h : l.Loaded) : l.Settled := by
  induction h with
  | initial => exact settled_initial
  | load _ hload ih => exact ih.load hload

/-- The inputs that pipes of a library in order declare are closed under their rules. -/
theorem Settled.contains_iff_rule (h : l.Settled) (hp : l.Registered p) :
    p.inputs.contains name = true ↔ l.Rule name (fun q => q.inputs.contains name = true) p := by
  rw [(h.declared p hp).inputs name, needs_iff_rule h.linked hp]
  exact ⟨Rule.imp_registered h.linked.keyed fun q hq => ((h.declared q hq).inputs name).2,
    Rule.imp_registered h.linked.keyed fun q hq => ((h.declared q hq).inputs name).1⟩

/-! ## Loading two pipes that run each other -/

/-- The declaration of a pipe that makes a text from texts. -/
def textDeclaration (inputs : List String) (body : PipeBody) : PipeBlueprint :=
  ⟨⟨"", .ofList (inputs.map fun name => (name, "Text")), "Text"⟩, body⟩

/-- The bundle that makes `relay`. -/
def relayBundle : Bundle where
  domain := ⟨"relay", none, none⟩
  concepts := .empty
  pipes := .ofList [
    ("write", textDeclaration ["topic"] (.compose "${{ topic }}")),
    ("attempt", textDeclaration ["topic", "wanted"]
      (.sequence [⟨"write", some "draft", none, none, none, none⟩,
        ⟨"judge", none, none, none, none, none⟩])),
    ("judge", textDeclaration ["draft", "wanted", "topic"]
      (.condition ⟨some "draft == wanted", none,
        .ofList [("true", "write"), ("false", "attempt")], "fail", none⟩))]
  mainPipe := none

theorem relay_loaded : relay.Loaded := by
  refine .load .initial (b := relayBundle) (eq_ok_of_toOption ?_)
  decide +kernel

end Library

end Conduit
