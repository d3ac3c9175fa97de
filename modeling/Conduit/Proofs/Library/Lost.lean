import Conduit.Proofs.Library.BuiltIns
import Conduit.Proofs.Library.Leaves
import Conduit.Proofs.Library.Signature

/-!
# Pipes that are lost

A load checks that every pipe that a new pipe names is there. Unloading a domain takes its pipes out
and checks nothing, so a pipe of another domain may be left that names one of them. That is the only
way: a name that a registered pipe has no pipe for was lost when the domain of that pipe was
unloaded (`Library.not_contains_iff_lost`). The needs of a pipe are refused for a missing pipe only
if it, or a pipe that it reaches, has lost one (`Library.needs_missing`).
-/

namespace Conduit.Library

variable {l l' : Library} {p q : Pipe} {code domain owner : String}

/-! ## Changes -/

/-- Unloading a domain leaves the pipes of the others. -/
theorem get?_unload_pipe (h : l.unload? domain = some l') (code : String) :
    l'.pipes.get? code = (l.pipes.get? code).filter fun q => q.domain != domain := by
  unfold unload? at h
  split at h
  · cases h
    exact Dict.get?_filter _ _ _
  · cases h

/-- Pipes are under their own codes after all changes. -/
theorem keyed_after (changes : List Change) : (after changes).Keyed := by
  induction changes using List.reverseRecOn with
  | nil => exact keyed_initial
  | append_singleton changes change ih =>
    rw [after_concat]
    rcases (after changes).change_cases change with hsame | ⟨b, policy, _, hload⟩ |
      ⟨domain, _, hunload⟩
    · rw [hsame]
      exact ih
    · exact ih.load hload
    · exact ih.unload hunload

/-- The pipe of a code was taken out with its domain, which is not that of a pipe that was there and
has stayed since, and no pipe of the code has come back. -/
def Lost (changes : List Change) (p : Pipe) (code : String) : Prop :=
  ∃ before domain later, changes = before ++ .unload domain :: later ∧
    (after before).Registered p ∧ p.domain ≠ domain ∧
    (∃ q, (after before).pipes.get? code = some q ∧ q.domain = domain) ∧
    ∀ since, since <+: later →
      (after (before ++ .unload domain :: since)).Registered p ∧
        (after (before ++ .unload domain :: since)).pipes.contains code = false

/-- A lost pipe stays lost as long as none of its code comes back. -/
theorem Lost.concat {changes : List Change} {change : Change} (h : Lost changes p code)
    (hp : (after (changes ++ [change])).Registered p)
    (hmissing : (after (changes ++ [change])).pipes.contains code = false) :
    Lost (changes ++ [change]) p code := by
  obtain ⟨before, domain, later, rfl, hbefore, hdomain, howner, hsince⟩ := h
  refine ⟨before, domain, later ++ [change], by simp, hbefore, hdomain, howner, ?_⟩
  intro since hprefix
  rcases List.prefix_concat_iff.1 hprefix with rfl | hprefix
  · rw [← List.cons_append, ← List.append_assoc]
    exact ⟨hp, hmissing⟩
  · exact hsince since hprefix

/-- A pipe that names a code without a pipe has lost that pipe. -/
theorem lost_of_not_contains {changes : List Change} (hp : (after changes).Registered p)
    (hcode : code ∈ p.subPipes) (hmissing : (after changes).pipes.contains code = false) :
    Lost changes p code := by
  induction changes using List.reverseRecOn with
  | nil => cases hp
  | append_singleton changes change ih =>
    -- a change that finds the pipe there and the code missing adds nothing
    have hlater (hp' : (after changes).Registered p)
        (hmissing' : (after changes).pipes.contains code = false) :
        Lost (changes ++ [change]) p code :=
      (ih hp' hmissing').concat hp hmissing
    rw [after_concat] at hp hmissing
    rcases (after changes).change_cases change with hsame | ⟨b, policy, rfl, hload⟩ |
      ⟨domain, rfl, hunload⟩
    · rw [hsame] at hp hmissing
      exact hlater hp hmissing
    · obtain ⟨_, hwithin, hnew⟩ := load_ok hload
      rcases hnew p.code p hp with hold | ⟨_, hadmitted⟩
      · refine hlater hold (Bool.eq_false_iff.2 fun hthere => ?_)
        exact Bool.eq_false_iff.1 hmissing (contains_within hwithin hthere)
      · have hthere := checkSubPipes_eq_ok_iff.1 hadmitted.subPipes code hcode
        exact absurd hthere (Bool.eq_false_iff.1 hmissing)
    · obtain ⟨hold, hdomain⟩ : (after changes).Registered p ∧ p.domain ≠ domain := by
        have hfound := hp
        rw [Registered, get?_unload_pipe hunload, Option.filter_eq_some_iff] at hfound
        exact ⟨hfound.1, by simpa using hfound.2⟩
      cases hthere : (after changes).pipes.contains code with
      | false => exact hlater hold hthere
      | true =>
        obtain ⟨q, hq⟩ := Dict.exists_of_contains hthere
        have howner : q.domain = domain := by
          by_contra hne
          rw [Dict.contains, get?_unload_pipe hunload, hq] at hmissing
          simp [hne] at hmissing
        refine ⟨changes, domain, [], rfl, hold, hdomain, ⟨q, hq, howner⟩, ?_⟩
        intro since hnil
        rw [List.prefix_nil.1 hnil, after_concat]
        exact ⟨hp, hmissing⟩

/-- A registered pipe names a code without a pipe exactly if it has lost that pipe. -/
theorem not_contains_iff_lost {changes : List Change} (hp : (after changes).Registered p)
    (hcode : code ∈ p.subPipes) :
    (after changes).pipes.contains code = false ↔ Lost changes p code := by
  refine ⟨lost_of_not_contains hp hcode, ?_⟩
  rintro ⟨before, domain, later, rfl, _, _, _, hsince⟩
  exact (hsince later (List.prefix_refl later)).2

/-! ## Needs -/

section Needs

variable {visit : Pipe → Except NeedsError Requirements} {missing : MissingPipes}

/-- What some pipes are visited for fails for a missing pipe: one of them is not there, or the visit
of one of them has failed for that reason. -/
def Misses (l : Library) (visit : Pipe → Except NeedsError Requirements) (missing : MissingPipes)
    (code : String) : Prop :=
  l.pipes.get? code = none ∨
    ∃ target, l.pipes.get? code = some target ∧ visit target = .error (.missingPipes missing)

theorem absorb_not_missing {branch : Pipe} {needs : Requirements} {b : Batching} :
    absorb owner branch needs b ≠ .error (.missingPipes missing) := by
  unfold absorb
  split <;> nofun

theorem stepNeeds_not_missing {target : Pipe} {s : Step} {needs : Requirements} :
    stepNeeds owner target s needs ≠ .error (.missingPipes missing) := by
  unfold stepNeeds
  split
  · exact absorb_not_missing
  · nofun

/-- A pipe is looked up and visited, and what follows fails for another reason. -/
theorem misses_of_visit {rest : Pipe → Requirements → Except NeedsError Requirements}
    (h : ((l.pipe code owner).mapError .missingPipes >>= fun target =>
      visit target >>= rest target) = .error (.missingPipes missing)) :
    l.Misses visit missing code ∨ ∃ target needs, rest target needs =
      .error (.missingPipes missing) := by
  rcases bind_eq_error_iff.1 h with h | ⟨target, ht, h⟩
  · obtain ⟨_, he, _⟩ := mapError_eq_error_iff.1 h
    exact .inl (.inl (pipe_eq_error_iff.1 he).1)
  · have ht := pipe_eq_ok_iff.1 (mapError_eq_ok_iff.1 ht)
    rcases bind_eq_error_iff.1 h with h | ⟨needs, _, h⟩
    · exact .inl (.inr ⟨target, ht, h⟩)
    · exact .inr ⟨target, needs, h⟩

theorem sequenceNeeds_missing {steps : List Step} {known : Requirements} {produced : List String}
    (h : l.sequenceNeeds visit owner known produced steps = .error (.missingPipes missing)) :
    ∃ s ∈ steps, l.Misses visit missing s.pipe := by
  induction steps generalizing known produced with
  | nil => cases h
  | cons s rest ih =>
    rcases misses_of_visit h with hs | ⟨target, needs, h⟩
    · exact ⟨s, List.mem_cons_self, hs⟩
    · rcases bind_eq_error_iff.1 h with h | ⟨_, _, h⟩
      · exact absurd h stepNeeds_not_missing
      · obtain ⟨s', hs', hmisses⟩ := ih h
        exact ⟨s', List.mem_cons_of_mem s hs', hmisses⟩

theorem branchNeeds_missing {steps : List Step} {known : Requirements}
    (h : l.branchNeeds visit owner known steps = .error (.missingPipes missing)) :
    ∃ s ∈ steps, l.Misses visit missing s.pipe := by
  induction steps generalizing known with
  | nil => cases h
  | cons s rest ih =>
    rcases misses_of_visit h with hs | ⟨target, needs, h⟩
    · exact ⟨s, List.mem_cons_self, hs⟩
    · rcases bind_eq_error_iff.1 h with h | ⟨_, _, h⟩
      · exact absurd h stepNeeds_not_missing
      · obtain ⟨s', hs', hmisses⟩ := ih h
        exact ⟨s', List.mem_cons_of_mem s hs', hmisses⟩

theorem conditionVariables_not_missing {c : Condition} :
    conditionVariables c ≠ .error (.missingPipes missing) := by
  intro h
  simp only [conditionVariables] at h
  split at h
  all_goals
    rcases bind_eq_error_iff.1 h with h | ⟨_, _, h⟩
    · obtain ⟨_, _, herr⟩ := mapError_eq_error_iff.1 h
      cases herr
    · cases h

/-- The needs of a pipe fail for a missing pipe as one of the pipes does that it names. -/
theorem needsOf_missing (h : l.needsOf visit p = .error (.missingPipes missing)) :
    ∃ code ∈ p.subPipes, l.Misses visit missing code := by
  unfold needsOf at h
  cases hkind : p.kind with
  | operator op =>
    rw [hkind] at h
    cases h
  | sequence steps =>
    rw [hkind] at h
    obtain ⟨s, hs, hmisses⟩ := sequenceNeeds_missing h
    exact ⟨s.pipe, Pipe.mem_subPipes_of_step hkind hs, hmisses⟩
  | parallel q =>
    rw [hkind] at h
    obtain ⟨s, hs, hmisses⟩ := branchNeeds_missing h
    exact ⟨s.pipe, Pipe.mem_subPipes_of_branch hkind hs, hmisses⟩
  | condition c =>
    simp only [hkind, bind_eq_error_iff, outcomeNeeds_eq_branchNeeds] at h
    rcases h with h | ⟨_, _, h⟩
    · exact absurd h conditionVariables_not_missing
    · obtain ⟨s, hs, hmisses⟩ := branchNeeds_missing h
      obtain ⟨code, hcode, rfl⟩ := List.mem_map.1 hs
      exact ⟨code, Pipe.mem_subPipes_of_outcome hkind hcode, hmisses⟩
  | batch branch b =>
    rw [hkind] at h
    rcases misses_of_visit h with hmisses | ⟨_, _, h⟩
    · exact ⟨branch, Pipe.mem_subPipes_of_batch hkind, hmisses⟩
    · exact absurd h absorb_not_missing

theorem needsWithin_missing {n : Nat} {path : List String}
    (h : l.needsWithin n path p = .error (.missingPipes missing)) :
    ∃ q, l.Reaches p q ∧ ∃ code ∈ q.subPipes, l.pipes.get? code = none := by
  induction n generalizing path p with
  | zero => cases h
  | succ n ih =>
    rw [needsWithin] at h
    split at h
    · cases h
    · obtain ⟨code, hcode, hnone | ⟨target, ht, hvisit⟩⟩ := needsOf_missing h
      · exact ⟨p, .refl, code, hcode, hnone⟩
      · obtain ⟨q, hq, hlost⟩ := ih hvisit
        exact ⟨q, .head ⟨code, hcode, ht⟩ hq, hlost⟩

/-- The needs of a pipe fail for a missing pipe only if it reaches a pipe that names one. -/
theorem needs_missing (h : l.needs p = .error (.missingPipes missing)) :
    ∃ q, l.Reaches p q ∧ ∃ code ∈ q.subPipes, l.pipes.get? code = none :=
  needsWithin_missing h

end Needs

end Conduit.Library
