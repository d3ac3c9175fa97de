import Conduit.Proofs.Library.Admitted
import Conduit.Proofs.Run.Typed

/-!
# Runs put out what is declared

A live run of a pipe of a loaded library that ends well leaves a result whose concept is compatible
with the output that a pipe declares, namely the pipe that answers for the result
(`Engine.run_output`). Most pipes answer for themselves (`Pipe.KeepsOutput`). Two kinds do not, and
may miss what they declare (`Engine.not_forall_run_output`):

* The output of a condition is compared, when it is loaded, with the outputs that the pipes declare
  to which it may lead. Compatibility is not transitive, so this settles the matter only for content
  of the very concept that was compared, which an operator or a batch makes.
* The output of a parallel that stores its results and does not combine them is compared with
  nothing. Its last branch decides.

The invariant of the induction over runs is `Engine.PutsOut`.
-/

namespace Conduit

/-! ## The concept of the latest result -/

/-- The concept of the latest result. -/
def Memory.mainConcept? (m : Memory) : Option Concept :=
  (m.find? mainAlias).map Stuff.concept

namespace Memory

variable {m : Memory} {s : Stuff} {c : Concept}

theorem mainConcept?_of_main (h : m.main = .ok s) : m.mainConcept? = some s.concept :=
  congrArg (Option.map Stuff.concept) (find?_of_main h)

theorem exists_main (h : m.mainConcept? = some c) : ∃ s, m.main = .ok s ∧ s.concept = c := by
  obtain ⟨s, hs, hc⟩ := Option.map_eq_some_iff.1 h
  refine ⟨s, ?_, hc⟩
  unfold main
  rw [hs]

end Memory

/-! ## Who answers for a result -/

/-- A pipe puts out what it declares, as far as its concept goes. -/
def Pipe.KeepsOutput (p : Pipe) : Prop :=
  match p.kind with
  | .operator _ | .batch _ _ | .sequence _ => True
  | .parallel q => q.combined.isSome = true
  | .condition _ => False

/-- A pipe stores content of its own, under the concept that it declares. -/
def Pipe.Makes (p : Pipe) : Prop :=
  match p.kind with
  | .operator _ | .batch _ _ => True
  | .sequence _ | .parallel _ | .condition _ => False

/-- A condition comes to an outcome on a memory, and goes on with another one. -/
def Pipe.Chooses (p : Pipe) (m : Memory) (o : Outcome) (m₁ : Memory) : Prop :=
  ∃ c text, p.kind = .condition c ∧ Engine.evaluated m c.subject = .ok text ∧
    Engine.aliased m text c.aliasTarget = .ok m₁ ∧ c.outcome text = o

/-- The last branch of a parallel that only stores its results. -/
def Pipe.EndsWith (p : Pipe) (s : Step) : Prop :=
  ∃ b, p.kind = .parallel b ∧ b.combined = none ∧ b.branches.getLast? = some s

namespace Library

/-- A pipe that answers, by what it declares, for the result of a live run of another pipe on a
memory. -/
inductive Answers (l : Library) : Pipe → Memory → Pipe → Prop where
  | own {p : Pipe} {m : Memory} (hp : p.KeepsOutput) : Answers l p m p
  | made {p q : Pipe} {m m₁ : Memory} {code : String} (hp : p.Chooses m (.run code) m₁)
      (hq : l.pipes.get? code = some q) (hmakes : q.Makes) : Answers l p m p
  | outcome {p q d : Pipe} {m m₁ : Memory} {code : String} (hp : p.Chooses m (.run code) m₁)
      (hq : l.pipes.get? code = some q) (h : Answers l q m₁ d) : Answers l p m d
  | last {p q d : Pipe} {m : Memory} {s : Step} (hp : p.EndsWith s) (hs : s.batching = none)
      (hq : l.pipes.get? s.pipe = some q) (h : Answers l q m d) : Answers l p m d
  | each {p q : Pipe} {m : Memory} {s : Step} {b : Batching} (hp : p.EndsWith s)
      (hs : s.batching = some b) (hq : l.pipes.get? s.pipe = some q) : Answers l p m q

/-- The result of a live run of a pipe is what was the latest result before, for a condition keeps
it. -/
inductive EndsOnKeep (l : Library) : Pipe → Memory → Prop where
  | keep {p : Pipe} {m m₁ : Memory} (hp : p.Chooses m .keep m₁) : EndsOnKeep l p m
  | outcome {p q : Pipe} {m m₁ : Memory} {code : String} (hp : p.Chooses m (.run code) m₁)
      (hq : l.pipes.get? code = some q) (h : EndsOnKeep l q m₁) : EndsOnKeep l p m
  | last {p q : Pipe} {m : Memory} {s : Step} (hp : p.EndsWith s) (hs : s.batching = none)
      (hq : l.pipes.get? s.pipe = some q) (h : EndsOnKeep l q m) : EndsOnKeep l p m

end Library

section Rules

variable {l : Library} {p q q' d : Pipe} {m m₁ m₂ : Memory} {o o' : Outcome} {s t : Step}
  {code code' : String}

/-- A condition comes to one outcome. -/
theorem Pipe.Chooses.unique (h : p.Chooses m o m₁) (h' : p.Chooses m o' m₂) : o = o' ∧ m₁ = m₂ := by
  obtain ⟨c, text, hkind, htext, hm₁, rfl⟩ := h
  obtain ⟨c', text', hkind', htext', hm₂, rfl⟩ := h'
  rw [hkind] at hkind'
  cases hkind'
  rw [htext] at htext'
  cases htext'
  rw [hm₁] at hm₂
  cases hm₂
  exact ⟨rfl, rfl⟩

/-- A condition leads to one pipe. -/
theorem Pipe.Chooses.target_unique (h : p.Chooses m (.run code) m₁)
    (h' : p.Chooses m (.run code') m₂) (hq : l.pipes.get? code = some q)
    (hq' : l.pipes.get? code' = some q') : q = q' ∧ m₁ = m₂ := by
  obtain ⟨hcode, rfl⟩ := h.unique h'
  cases hcode
  exact ⟨Option.some.inj (hq.symm.trans hq'), rfl⟩

/-- A parallel has one last branch. -/
theorem Pipe.EndsWith.target_unique (h : p.EndsWith s) (h' : p.EndsWith t)
    (hq : l.pipes.get? s.pipe = some q) (hq' : l.pipes.get? t.pipe = some q') :
    s = t ∧ q = q' := by
  obtain ⟨b, hkind, _, hs⟩ := h
  obtain ⟨b', hkind', _, ht⟩ := h'
  rw [hkind] at hkind'
  cases hkind'
  obtain rfl : s = t := Option.some.inj (hs.symm.trans ht)
  exact ⟨rfl, Option.some.inj (hq.symm.trans hq')⟩

/-- A condition is no parallel. -/
theorem Pipe.Chooses.not_endsWith (h : p.Chooses m o m₁) : ¬ p.EndsWith s := by
  rintro ⟨b, hkind', _⟩
  obtain ⟨c, _, hkind, _⟩ := h
  rw [hkind] at hkind'
  cases hkind'

/-- A condition does not keep its output. -/
theorem Pipe.Chooses.not_keepsOutput (h : p.Chooses m o m₁) : ¬ p.KeepsOutput := by
  obtain ⟨c, _, hkind, _⟩ := h
  unfold KeepsOutput
  rw [hkind]
  exact not_false

/-- A parallel that only stores its results does not keep its output. -/
theorem Pipe.EndsWith.not_keepsOutput (h : p.EndsWith s) : ¬ p.KeepsOutput := by
  obtain ⟨b, hkind, hnone, _⟩ := h
  unfold KeepsOutput
  simp [hkind, hnone]

theorem Pipe.KeepsOutput.of_makes (h : p.Makes) : p.KeepsOutput := by
  unfold Makes at h
  unfold KeepsOutput
  cases hkind : p.kind with
  | operator _ | batch _ _ => trivial
  | sequence _ | parallel _ | condition _ =>
    rw [hkind] at h
    exact h.elim

namespace Library

/-- Nobody else answers for a pipe that keeps its output. -/
theorem Answers.eq_of_keepsOutput (hp : p.KeepsOutput) (h : l.Answers p m d) : d = p := by
  cases h with
  | own _ => rfl
  | made hchooses _ _ => exact absurd hp hchooses.not_keepsOutput
  | outcome hchooses _ _ => exact absurd hp hchooses.not_keepsOutput
  | last hends _ _ _ => exact absurd hp hends.not_keepsOutput
  | each hends _ _ => exact absurd hp hends.not_keepsOutput

/-- A condition answers itself for what the pipe makes to which it leads, and else that pipe does,
or who answers for it. -/
theorem Answers.of_chooses (hp : p.Chooses m (.run code) m₁) (hq : l.pipes.get? code = some q)
    (h : l.Answers p m d) : d = p ∧ q.Makes ∨ l.Answers q m₁ d := by
  cases h with
  | own hkeeps => exact absurd hkeeps hp.not_keepsOutput
  | made hp' hq' hmakes =>
    obtain ⟨rfl, _⟩ := hp.target_unique hp' hq hq'
    exact .inl ⟨rfl, hmakes⟩
  | outcome hp' hq' h =>
    obtain ⟨rfl, rfl⟩ := hp.target_unique hp' hq hq'
    exact .inr h
  | last hends _ _ _ => exact absurd hends hp.not_endsWith
  | each hends _ _ => exact absurd hends hp.not_endsWith

/-- The pipe of the last branch answers for a parallel that only stores its results, or who answers
for that pipe if it runs once. -/
theorem Answers.of_endsWith (hp : p.EndsWith s) (hq : l.pipes.get? s.pipe = some q)
    (h : l.Answers p m d) :
    s.batching = none ∧ l.Answers q m d ∨ s.batching.isSome = true ∧ d = q := by
  cases h with
  | own hkeeps => exact absurd hkeeps hp.not_keepsOutput
  | made hchooses _ _ => exact absurd hp hchooses.not_endsWith
  | outcome hchooses _ _ => exact absurd hp hchooses.not_endsWith
  | last hp' hs hq' h =>
    obtain ⟨rfl, rfl⟩ := hp.target_unique hp' hq hq'
    exact .inl ⟨hs, h⟩
  | each hp' hs hq' =>
    obtain ⟨rfl, rfl⟩ := hp.target_unique hp' hq hq'
    exact .inr ⟨by rw [hs]; rfl, rfl⟩

/-- A run of a pipe that keeps its output does not end with a condition. -/
theorem EndsOnKeep.not_keepsOutput (h : l.EndsOnKeep p m) : ¬ p.KeepsOutput := by
  cases h with
  | keep hchooses => exact hchooses.not_keepsOutput
  | outcome hchooses _ _ => exact hchooses.not_keepsOutput
  | last hends _ _ _ => exact hends.not_keepsOutput

/-- A condition that leads to a pipe ends as that pipe does. -/
theorem EndsOnKeep.of_chooses (hp : p.Chooses m (.run code) m₁) (hq : l.pipes.get? code = some q)
    (h : l.EndsOnKeep p m) : l.EndsOnKeep q m₁ := by
  cases h with
  | keep hp' => cases (hp.unique hp').1
  | outcome hp' hq' h =>
    obtain ⟨rfl, rfl⟩ := hp.target_unique hp' hq hq'
    exact h
  | last hends _ _ _ => exact absurd hends hp.not_endsWith

/-- A parallel that only stores its results ends as the pipe of its last branch does. -/
theorem EndsOnKeep.of_endsWith (hp : p.EndsWith s) (hq : l.pipes.get? s.pipe = some q)
    (h : l.EndsOnKeep p m) : l.EndsOnKeep q m := by
  cases h with
  | keep hchooses => exact absurd hp hchooses.not_endsWith
  | outcome hchooses _ _ => exact absurd hp hchooses.not_endsWith
  | last hp' _ hq' h =>
    obtain ⟨_, rfl⟩ := hp.target_unique hp' hq hq'
    exact h

end Library

end Rules

/-! ## What a load compares -/

namespace Library

variable {l : Library} {p q : Pipe}

/-- What a parallel combines its results to goes with what it declares. -/
theorem Loaded.combined_compatible (hl : l.Loaded) (hp : l.Registered p) {b : Parallel} {c : Concept}
    (hkind : p.kind = .parallel b) (hc : b.combined = some c) :
    l.concepts.isCompatible c p.output false = true := by
  obtain ⟨l₀, h₀⟩ := hl.exists_admission hp
  obtain ⟨needs, _, hnil⟩ := controllerMistakes_of_findings
    (fun op hop => by rw [hkind] at hop; cases hop) h₀.findings
  have houtput : l₀.outputMistakes p = [] := (List.append_eq_nil_iff.1 hnil).2
  have hcovers := h₀.loaded.covers h₀.registered
  rw [h₀.isCompatible_eq (hcovers.combined b hkind c hc) hcovers.output]
  by_contra hnot
  simp [outputMistakes, produced?, hkind, hc, hnot] at houtput

/-- What a pipe declares to which a condition may lead goes with what the condition declares. -/
theorem Loaded.outcome_compatible (hl : l.Loaded) (hp : l.Registered p) {c : Condition}
    {code : String} (hkind : p.kind = .condition c) (hcode : code ∈ c.pipes)
    (hq : l.pipes.get? code = some q) : l.concepts.isCompatible q.output p.output false = true := by
  obtain ⟨l₀, h₀⟩ := hl.exists_admission hp
  have houtcomes := h₀.admitted.outcomes
  unfold checkOutcomes at houtcomes
  simp only [hkind] at houtcomes
  have hcheck := forM_eq_ok_iff.1 houtcomes code hcode
  simp only [checkOutcome, bind_eq_ok_iff, mapError_eq_ok_iff, pipe_eq_ok_iff] at hcheck
  obtain ⟨q₀, hq₀, hcheck⟩ := hcheck
  obtain rfl : q₀ = q := Option.some.inj ((h₀.pipes _ _ hq₀).symm.trans hq)
  have hregistered := h₀.loaded.settled.linked.keyed.registered hq₀
  rw [h₀.isCompatible_eq (h₀.loaded.covers hregistered).output
    (h₀.loaded.covers h₀.registered).output]
  by_contra hnot
  simp [hnot] at hcheck

end Library

namespace Engine

variable {e : Engine} {p q : Pipe} {m m' : Memory} {params : RunParams} {name : Option String}
  {c : Concept} {run : Runner}

/-! ## Storing results -/

/-- The latest result has the concept under which it is stored. -/
theorem storeResult_concept {pipe stored : String} {content : Content}
    (h : storeResult m pipe c content name = .ok (stored, m')) : m'.mainConcept? = some c := by
  unfold Memory.mainConcept?
  rw [Memory.find?_set_setAlias (storeResult_ok h).2]
  rfl

/-- Another name changes nothing about the concept of the latest result. -/
theorem storeAs_concept (h : storeAs m name = .ok m') : m'.mainConcept? = m.mainConcept? := by
  rcases storeAs_ok h with rfl | ⟨key, s, hs, halias⟩
  · rfl
  · rw [Memory.mainConcept?_of_main hs]
    unfold Memory.mainConcept?
    rw [Memory.find?_set_setAlias halias]
    rfl

/-- A batch stores a list under the concept of its results. -/
theorem runBatch_concept {owner branch : String} {b : Batching} :
    (e.runBatch run owner branch b c m params name).Gives fun m' => m'.mainConcept? = some c :=
  runBatch_gives.imp fun _ ⟨_, _, _, _, _, _, hstored⟩ => storeResult_concept hstored

/-! ## What a run puts out -/

/-- What is known of the concept of a pipe's result. Content that a pipe makes is of the declared
concept itself, if no other is asked for; that is what a condition relies on. -/
structure Suits (l : Library) (p : Pipe) (m : Memory) (asked : Option String) (c : Concept) :
    Prop where
  answered : ∃ d, l.Answers p m d
  compatible : ∀ d, l.Answers p m d → l.concepts.isCompatible c d.output false = true
  made : p.Makes → asked = none → c = p.output

/-- A run leaves a result of a concept that suits its pipe, unless it ends with a condition that
keeps what was there. -/
def PutsOut (e : Engine) (p : Pipe) (m : Memory) (asked : Option String) (m' : Memory) : Prop :=
  e.library.EndsOnKeep p m ∨ ∃ c, m'.mainConcept? = some c ∧ Suits e.library p m asked c

/-- Every live run of a pipe puts out what suits the pipe. -/
def PutsOutAll (e : Engine) (run : Runner) : Prop :=
  ∀ code p m params name, e.library.pipes.get? code = some p → params.dry = false →
    (run code m params name).Gives (e.PutsOut p m params.dynamic)

/-- A concept suits a pipe that keeps its output if it goes with the output. -/
theorem Suits.own {l : Library} (hp : p.KeepsOutput)
    (hc : l.concepts.isCompatible c p.output false = true)
    (hmade : p.Makes → params.dynamic = none → c = p.output) : Suits l p m params.dynamic c where
  answered := ⟨p, .own hp⟩
  compatible d hd := by
    rw [hd.eq_of_keepsOutput hp]
    exact hc
  made := hmade

/-- The concept of what a pipe puts out goes with the declared one, for another one can only be asked
for in place of a wildcard. -/
theorem outputConcept_compatible (h : e.outputConcept p params = .ok c) :
    e.library.concepts.isCompatible c p.output false = true ∧
      (params.dynamic = none → c = p.output) := by
  unfold outputConcept at h
  split at h
  · next reference hreference hdynamic =>
    refine ⟨?_, fun hnone => ?_⟩
    · simp [ConceptLibrary.isCompatible, Concept.isWildcard, hdynamic]
    · rw [hnone] at hreference
      cases hreference
  · cases h
    exact ⟨ConceptLibrary.isCompatible_self .., fun _ => rfl⟩

/-- An operator stores its content under its output concept. -/
theorem runOperator_putsOut {op : Operator} (hkind : p.kind = .operator op) :
    (e.runOperator p op m params name).Gives (e.PutsOut p m params.dynamic) := by
  have hkeeps : p.KeepsOutput := by
    unfold Pipe.KeepsOutput
    rw [hkind]
    trivial
  refine Run.gives_lift_bind fun c hc => ?_
  obtain ⟨hcompatible, hdeclared⟩ := outputConcept_compatible hc
  refine (Run.gives_any _).bind fun content _ => ?_
  refine Run.gives_lift_bind fun ⟨stored, m'⟩ hm' => ?_
  exact Run.ends_mark_bind (Run.ends_pure
    (.inr ⟨c, storeResult_concept hm', .own hkeeps hcompatible fun _ => hdeclared⟩))

/-- A sequence checks its result when it ends. -/
theorem runSequence_putsOut {steps : List Step} (hkind : p.kind = .sequence steps) :
    (e.runSequence run p steps m params name).Gives (e.PutsOut p m params.dynamic) := by
  have hkeeps : p.KeepsOutput ∧ ¬ p.Makes := by
    unfold Pipe.KeepsOutput Pipe.Makes
    simp [hkind]
  refine (Run.gives_any _).bind fun m₁ _ => ?_
  refine Run.gives_lift_bind fun _ hcheck => ?_
  simp only [checkOutput, bind_eq_ok_iff, mapError_eq_ok_iff] at hcheck
  obtain ⟨s, hs, hcheck⟩ := hcheck
  have hcompatible : e.library.concepts.isCompatible s.concept p.output false = true := by
    by_contra hnot
    rw [if_pos (by simpa using hnot)] at hcheck
    cases hcheck
  refine Run.gives_lift fun m' hm' => .inr ⟨s.concept, ?_, ?_⟩
  · rw [storeAs_concept hm', Memory.mainConcept?_of_main hs]
  · exact .own hkeeps.1 hcompatible fun hmakes => absurd hmakes hkeeps.2

/-- The result of the last branch suits a parallel that only stores its results. -/
theorem runStep_putsOut {s : Step} (hrun : e.PutsOutAll run) (hlive : params.dry = false)
    (hp : p.EndsWith s) (hq : e.library.pipes.get? s.pipe = some q) :
    (e.runStep run p s m (params.forStep s)).Gives (e.PutsOut p m params.dynamic) := by
  have hmakes : ¬ p.Makes := fun h => hp.not_keepsOutput (.of_makes h)
  unfold runStep
  cases hs : s.batching with
  | none =>
    refine (hrun _ q m (params.forStep s) s.result hq hlive).imp fun m' hm' => ?_
    rcases hm' with hkeep | ⟨c, hc, hsuits⟩
    · exact .inl (.last hp hs hq hkeep)
    · refine .inr ⟨c, hc, ?_, fun d hd => ?_, fun h => absurd h hmakes⟩
      · obtain ⟨d, hd⟩ := hsuits.answered
        exact ⟨d, .last hp hs hq hd⟩
      · rcases hd.of_endsWith hp hq with ⟨_, hd⟩ | ⟨hsome, _⟩
        · exact hsuits.compatible d hd
        · rw [hs] at hsome
          cases hsome
  | some b =>
    refine Run.gives_lift_bind fun found hfound => ?_
    rw [batchTarget, Library.pipe_of_get? hq] at hfound
    cases hfound
    refine runBatch_concept.imp fun m' hm' => .inr ⟨_, hm', ⟨q, .each hp hs hq⟩, ?_, ?_⟩
    · intro d hd
      rcases hd.of_endsWith hp hq with ⟨hnone, _⟩ | ⟨_, rfl⟩
      · rw [hs] at hnone
        cases hnone
      · exact ConceptLibrary.isCompatible_self ..
    · exact fun h => absurd h hmakes

/-- A parallel leaves the record that combines the results, or what its last branch leaves. -/
theorem runParallel_putsOut {b : Parallel} (hl : e.library.Loaded) (hp : e.library.Registered p)
    (hrun : e.PutsOutAll run) (hlive : params.dry = false) (hkind : p.kind = .parallel b) :
    (e.runParallel run p b m params name).Gives (e.PutsOut p m params.dynamic) := by
  have hproper := (hl.settled.declared p hp).proper
  have hlinked := hl.settled.linked.pipes p hp
  unfold Library.PipeLinked at hlinked
  simp only [hkind] at hlinked
  refine Run.gives_lift_bind fun _ _ => ?_
  refine (Run.ends_join fun r _ => r.gives_any).bind fun memories hmemories => ?_
  refine Run.gives_lift_bind fun results hresults => ?_
  refine Run.gives_lift_bind fun m₁ hm₁ => ?_
  split
  · next hnone =>
    obtain ⟨heach, s, hs⟩ := hproper.stores hkind hnone
    obtain ⟨result, hresult, m₂, hm₂, hmain, _⟩ :=
      exists_of_forall₂_getLast? (branchResults_ok hmemories hresults) hs
    obtain ⟨q, hq, _⟩ := hlinked s (List.mem_of_getLast? hs)
    have hlast := (runStep_putsOut hrun hlive ⟨b, hkind, hnone, hs⟩ hq).post_of_ok hm₂
    refine Run.gives_lift fun m' hm' => hlast.imp id fun ⟨c, hc, hsuits⟩ => ⟨c, ?_, hsuits⟩
    rw [heach, if_pos rfl] at hm₁
    rw [Memory.mainConcept?_of_main hmain] at hc
    rw [storeAs_concept hm', ← hc]
    unfold Memory.mainConcept?
    rw [find?_storeResults hresult hm₁]
    rfl
  · next c hsome =>
    refine Run.gives_lift_bind fun content _ => ?_
    refine Run.gives_lift_bind fun ⟨stored, m'⟩ hm' => ?_
    refine Run.ends_mark_bind (Run.ends_pure (.inr ⟨c, storeResult_concept hm', ?_⟩))
    refine .own ?_ (hl.combined_compatible hp hkind hsome) ?_
    · unfold Pipe.KeepsOutput
      simp [hkind, hsome]
    · intro hmakes
      unfold Pipe.Makes at hmakes
      rw [hkind] at hmakes
      exact hmakes.elim

/-- A condition leaves what the pipe leaves to which it leads. -/
theorem runCondition_putsOut {d : Condition} (hl : e.library.Loaded) (hp : e.library.Registered p)
    (hrun : e.PutsOutAll run) (hlive : params.dry = false) (hkind : p.kind = .condition d) :
    (runCondition run p d m params name).Gives (e.PutsOut p m params.dynamic) := by
  have hlinked := hl.settled.linked.pipes p hp
  unfold Library.PipeLinked at hlinked
  simp only [hkind] at hlinked
  refine Run.gives_lift_bind fun text htext => ?_
  refine Run.gives_lift_bind fun m₁ hm₁ => ?_
  refine Run.ends_mark_bind (Run.ends_mark_bind ?_)
  have hchooses : p.Chooses m (d.outcome text) m₁ := ⟨d, text, hkind, htext, hm₁, rfl⟩
  rw [hlive, if_neg (by simp)]
  cases hout : d.outcome text with
  | keep =>
    rw [hout] at hchooses
    exact Run.ends_pure (.inl (.keep hchooses))
  | fail => exact Run.ends_fail trivial
  | run code =>
    rw [hout] at hchooses
    have hcode := Condition.mem_pipes_of_outcome hout
    obtain ⟨q, hq⟩ := Dict.exists_of_contains (hlinked.2 code hcode)
    refine (hrun code q m₁ params.nested name hq hlive).imp fun m' hm' => ?_
    rcases hm' with hkeep | ⟨c, hc, hsuits⟩
    · exact .inl (.outcome hchooses hq hkeep)
    · refine .inr ⟨c, hc, ?_, fun a ha => ?_, fun hmakes => ?_⟩
      · obtain ⟨a, ha⟩ := hsuits.answered
        exact ⟨a, .outcome hchooses hq ha⟩
      · rcases ha.of_chooses hchooses hq with ⟨rfl, hmakes⟩ | ha
        -- the load compared what `q` declares, and that is the concept of what `q` makes
        · rw [hsuits.made hmakes rfl]
          exact hl.outcome_compatible hp hkind hcode hq
        · exact hsuits.compatible a ha
      · exact absurd (.of_makes hmakes) hchooses.not_keepsOutput

/-- What one pipe does: it puts out what suits it if the pipes do that it runs. -/
theorem dispatch_putsOut (hl : e.library.Loaded) (hp : e.library.Registered p)
    (hrun : e.PutsOutAll run) (hlive : params.dry = false) :
    (e.dispatch run p m params name).Gives (e.PutsOut p m params.dynamic) := by
  refine Run.ends_mark_bind (Run.gives_lift_bind fun _ _ => ?_)
  cases hkind : p.kind with
  | sequence steps => exact runSequence_putsOut hkind
  | parallel b => exact runParallel_putsOut hl hp hrun hlive hkind
  | condition d => exact runCondition_putsOut hl hp hrun hlive hkind
  | batch branch b =>
    refine runBatch_concept.imp fun m' hm' => .inr ⟨_, hm', ?_⟩
    refine .own ?_ (ConceptLibrary.isCompatible_self ..) fun _ _ => rfl
    unfold Pipe.KeepsOutput
    rw [hkind]
    trivial
  | operator op => exact runOperator_putsOut hkind

/-- What all live runs do. -/
theorem runWithin_putsOut (hl : e.library.Loaded) (levels : Nat) :
    e.PutsOutAll (e.runWithin levels) := by
  intro code p m params name hp hlive
  refine runWithin_induct e (motive := fun code m params name r =>
    ∀ p, e.library.pipes.get? code = some p → params.dry = false →
      r.Gives (e.PutsOut p m params.dynamic))
    ?missing ?overflow ?step levels code m params name p hp hlive
  case missing =>
    intro code m params name cause place _ p _ _
    exact Run.Ends.located trivial
  case overflow =>
    intro code m params name p place _ p' _ _
    exact Run.Ends.located trivial
  case step =>
    intro run hrun code m params name p place hlookup p' hp' hlive
    simp only [lookup, Library.pipe_of_get? hp'] at hlookup
    cases hlookup
    have hregistered := hl.settled.linked.keyed.registered hp'
    have hall : e.PutsOutAll run := fun code p m params name hp hlive =>
      hrun code m params name p hp hlive
    have hdispatch : (e.dispatch run p m (onStack params p) name).Gives
        (e.PutsOut p m params.dynamic) := dispatch_putsOut hl hregistered hall hlive
    exact hdispatch.located

/-- A live run of a pipe of a loaded library that ends well leaves a result, unless it ends with a
condition that keeps what was there. There is a pipe that answers for the result, and the concept of
the result is compatible with what each such pipe declares. -/
theorem run_output (hl : e.library.Loaded) (hp : e.library.Registered p)
    (hlive : params.dry = false) (h : (e.run p.code m params name).result = .ok m')
    (hkeep : ¬ e.library.EndsOnKeep p m) :
    ∃ s, m'.main = .ok s ∧ (∃ d, e.library.Answers p m d) ∧
      ∀ d, e.library.Answers p m d →
        e.library.concepts.isCompatible s.concept d.output false = true := by
  have hrun := runWithin_putsOut hl (e.config.maxDepth - params.layer) p.code p m params name hp
    hlive
  rcases hrun.post_of_ok h with hends | ⟨c, hc, hsuits⟩
  · exact absurd hends hkeep
  · obtain ⟨s, hs, rfl⟩ := Memory.exists_main hc
    exact ⟨s, hs, hsuits.answered, hsuits.compatible⟩

end Engine

/-! ## Notes on cards -/

namespace Library

/-- Texts that are remarks. -/
def remarkConcept : Concept :=
  ⟨"Remark", "notes", "", Structure.textContent, some NativeConcept.text.concept.name⟩

/-- Cards with a text on them. -/
def cardConcept : Concept :=
  ⟨"Card", "notes", "", "Card", none⟩

/-- A pipe of a word. -/
def notesPipe (code : String) (output : Concept) (kind : PipeKind) : Pipe where
  code
  domain := "notes"
  description := ""
  inputs := .ofList [("word", ⟨NativeConcept.text.concept, .single⟩)]
  output
  multiplicity := .single
  kind

/-- A remark. -/
def jot : Pipe := notesPipe "jot" remarkConcept (.operator (.compose "${{ word }}"))

/-- A remark that is declared as a text. -/
def note : Pipe :=
  notesPipe "note" NativeConcept.text.concept (.sequence [⟨"jot", none, none, none⟩])

/-- A note that is declared as a card, for a text will do for a card. -/
def filed : Pipe :=
  notesPipe "filed" cardConcept (.condition ⟨.expression "word", .empty, .run "note", none⟩)

/-- A remark that is declared as a card. -/
def pinned : Pipe :=
  notesPipe "pinned" cardConcept
    (.parallel ⟨[⟨"jot", some "line", none, none⟩], true, none⟩)

/-- A library in which a remark goes as a text and a text as a card, but a remark not as a card. -/
def notes : Library where
  domains := .ofList [("notes", ⟨"notes", none, none⟩)]
  concepts := {
    concepts := (ConceptLibrary.initial.concepts.insert "notes.Remark" remarkConcept).insert
      "notes.Card" cardConcept
    registry := ⟨Registry.initial.structures.insert "Card"
      ⟨"Card", some Structure.root, .ofList [("text", ⟨"text", .text, true, none, [], none⟩)],
        false⟩⟩ }
  pipes := .ofList [("jot", jot), ("note", note), ("filed", filed), ("pinned", pinned)]

/-- The declaration of a pipe of a word. -/
def notesDeclaration (output : String) (body : PipeBody) : PipeBlueprint :=
  ⟨⟨"", .ofList [("word", "Text")], output⟩, body⟩

/-- The bundle that makes `notes`. -/
def notesBundle : Bundle where
  domain := ⟨"notes", none, none⟩
  concepts := .ofList [
    ("Remark", .detailed { refines := some "Text" }),
    ("Card", .detailed { shape := some (.schema (.ofList [("text", .detailed {})])) })]
  pipes := .ofList [
    ("jot", notesDeclaration "Remark" (.compose "${{ word }}")),
    ("note", notesDeclaration "Text" (.sequence [⟨"jot", none, none, none, none, none⟩])),
    ("filed", notesDeclaration "Card" (.condition ⟨some "word", none, .empty, "note", none⟩)),
    ("pinned", notesDeclaration "Card"
      (.parallel [⟨"jot", some "line", none, none, none, none⟩] true none))]
  mainPipe := none

theorem notes_loaded : notes.Loaded := by
  refine .load .initial (b := notesBundle) (eq_ok_of_toOption ?_)
  decide +kernel

end Library

namespace Engine

/-- An engine for notes, in which branches end in their order. -/
def notesEngine : Engine :=
  { galleryEngine with library := Library.notes }

/-- A note is filed on the same memory. -/
theorem filed_chooses : Library.filed.Chooses words (.run "note") words :=
  ⟨_, "red", rfl, eq_ok_of_toOption (by decide +kernel), rfl, rfl⟩

/-- A remark is pinned. -/
theorem pinned_endsWith : Library.pinned.EndsWith ⟨"jot", some "line", none, none⟩ :=
  ⟨_, rfl, rfl, rfl⟩

/-- What is filed or pinned is a remark and no card, and no condition keeps what was there. -/
theorem notes_missed : ∀ p ∈ [Library.filed, Library.pinned], Library.notes.Registered p ∧
    ¬ Library.notes.EndsOnKeep p words ∧
    ∃ m', (notesEngine.run p.code words {} none).result = .ok m' ∧
      ∀ s, m'.main = .ok s → Library.notes.concepts.isCompatible s.concept p.output false = false := by
  have hjot : Library.notes.pipes.get? "jot" = some Library.jot := by decide
  have hnote : Library.notes.pipes.get? "note" = some Library.note := by decide
  have hruns : ∀ p ∈ [Library.filed, Library.pinned], Library.notes.pipes.get? p.code = some p ∧
      (((notesEngine.run p.code words {} none).result.toOption.bind Memory.mainConcept?).any
        fun c => !Library.notes.concepts.isCompatible c p.output false) = true := by
    decide +kernel
  intro p hp
  obtain ⟨hregistered, hany⟩ := hruns p hp
  refine ⟨hregistered, ?_, ?_⟩
  · simp only [List.mem_cons, List.not_mem_nil, or_false] at hp
    rcases hp with rfl | rfl
    · exact fun h => (h.of_chooses filed_chooses hnote).not_keepsOutput trivial
    · exact fun h => (h.of_endsWith pinned_endsWith hjot).not_keepsOutput trivial
  · obtain ⟨c, hc, hbad⟩ := Option.any_eq_true _ _ |>.1 hany
    obtain ⟨m', hm', hmain⟩ := Option.bind_eq_some_iff.1 hc
    refine ⟨m', eq_ok_of_toOption hm', fun s hs => ?_⟩
    rw [Memory.mainConcept?_of_main hs] at hmain
    cases hmain
    simpa using hbad

/-- Not every live run that ends well leaves a result of the concept that its pipe declares, or of a
compatible one. -/
theorem not_forall_run_output : ¬ ∀ (e : Engine) (p : Pipe) (m m' : Memory) (params : RunParams)
      (name : Option String), e.library.Loaded → e.library.Registered p → params.dry = false →
    (e.run p.code m params name).result = .ok m' → ¬ e.library.EndsOnKeep p m →
      ∃ s, m'.main = .ok s ∧ e.library.concepts.isCompatible s.concept p.output false = true := by
  intro hall
  obtain ⟨hp, hkeep, m', hm', hmissed⟩ := notes_missed Library.filed List.mem_cons_self
  obtain ⟨s, hs, hcompatible⟩ :=
    hall notesEngine Library.filed words m' {} none Library.notes_loaded hp rfl hm' hkeep
  exact Bool.false_ne_true ((hmissed s hs).symm.trans hcompatible)

/-- What is filed goes with what the note declares. -/
theorem run_output_filed : Library.notes.Loaded ∧ Library.notes.Registered Library.filed ∧
    ¬ Library.notes.EndsOnKeep Library.filed words ∧
    Library.notes.Answers Library.filed words Library.note ∧
    ∃ m', (notesEngine.run "filed" words {} none).result = .ok m' ∧ ∃ s, m'.main = .ok s ∧
      (∃ d, Library.notes.Answers Library.filed words d) ∧
      ∀ d, Library.notes.Answers Library.filed words d →
        Library.notes.concepts.isCompatible s.concept d.output false = true := by
  obtain ⟨hp, hkeep, m', hm', _⟩ := notes_missed Library.filed List.mem_cons_self
  have hnote : Library.notes.pipes.get? "note" = some Library.note := by decide
  exact ⟨Library.notes_loaded, hp, hkeep, .outcome filed_chooses hnote (.own trivial), m', hm',
    run_output (e := notesEngine) Library.notes_loaded hp rfl hm' hkeep⟩

end Engine

end Conduit
