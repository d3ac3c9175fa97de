import Conduit.Proofs.Dict
import Conduit.Proofs.Library.History

/-!
# The order of the pipes of a bundle

A pipe is made from its declaration and the concepts alone, and it is compared with other pipes only
after all of them are there. So a bundle can be added if and only if each of its pipes can be made
and has a new code (`Library.addPipes_isOk_iff`), and what the library then answers for a code does
not depend on the order in which the pipes came (`Library.Alike`). All checks look pipes up by their
codes, or count them, and so give the same in two such libraries. `Library.load_perm` puts the two
halves together.
-/

namespace Conduit.Library

variable {l l' l₁ l₂ : Library} {p : Pipe} {domain : String} {b : Bundle}
  {policy : ReactionPolicy}

/-- Two libraries with the same domains and concepts and, in some order, the same pipes. -/
structure Alike (l l' : Library) : Prop where
  domains : l'.domains = l.domains
  concepts : l'.concepts = l.concepts
  pipes : ∀ code, l'.pipes.get? code = l.pipes.get? code

/-! ## Checks -/

section Needs

variable {visit : Pipe → Except NeedsError Requirements} {owner : String} {known : Requirements}

theorem Alike.contains (h : l.Alike l') (code : String) :
    l'.pipes.contains code = l.pipes.contains code := by
  unfold Dict.contains
  rw [h.pipes]

theorem Alike.pipe (h : l.Alike l') (code owner : String) :
    l'.pipe code owner = l.pipe code owner := by
  unfold Library.pipe
  rw [h.pipes]

theorem Alike.size (h : l.Alike l') : l'.pipes.size = l.pipes.size :=
  (Dict.perm_iff.2 h.pipes).length_eq

theorem Alike.sequenceNeeds (h : l.Alike l') (steps : List Step) (produced : List String) :
    l'.sequenceNeeds visit owner known produced steps =
      l.sequenceNeeds visit owner known produced steps := by
  induction steps generalizing known produced with
  | nil => rfl
  | cons s rest ih => simp only [Library.sequenceNeeds, h.pipe, ih]

theorem Alike.branchNeeds (h : l.Alike l') (steps : List Step) :
    l'.branchNeeds visit owner known steps = l.branchNeeds visit owner known steps := by
  induction steps generalizing known with
  | nil => rfl
  | cons s rest ih => simp only [Library.branchNeeds, h.pipe, ih]

theorem Alike.outcomeNeeds (h : l.Alike l') (codes : List String) :
    l'.outcomeNeeds visit owner known codes = l.outcomeNeeds visit owner known codes := by
  induction codes generalizing known with
  | nil => rfl
  | cons code rest ih => simp only [Library.outcomeNeeds, h.pipe, ih]

theorem Alike.needsOf (h : l.Alike l') (p : Pipe) : l'.needsOf visit p = l.needsOf visit p := by
  unfold Library.needsOf declaredOrAnything
  simp only [h.sequenceNeeds, h.branchNeeds, h.outcomeNeeds, h.pipe, h.concepts]

theorem Alike.needsWithin (h : l.Alike l') (n : Nat) (path : List String) :
    l'.needsWithin n path = l.needsWithin n path := by
  induction n generalizing path with
  | zero => rfl
  | succ n ih =>
    funext p
    rw [Library.needsWithin, Library.needsWithin, h.needsOf, ih]

theorem Alike.needs (h : l.Alike l') (p : Pipe) : l'.needs p = l.needs p := by
  unfold Library.needs
  rw [h.needsWithin, h.size]

end Needs

theorem Alike.required (h : l.Alike l') (p : Pipe) : l'.required p = l.required p := by
  unfold Library.required imageInputs
  rw [h.needs, h.concepts]

/-- The same is found of a pipe in two libraries with the same pipes. -/
theorem Alike.findings (h : l.Alike l') (p : Pipe) : l'.findings p = l.findings p := by
  refine findings_congr (h.required p) (h.needs p) fun needs _ => ?_
  unfold controllerMistakes needMistakes outputMistakes produced?
  simp only [h.pipes, h.concepts]

theorem Alike.checkSignature (h : l.Alike l') (p : Pipe) :
    l'.checkSignature policy p = l.checkSignature policy p := by
  unfold Library.checkSignature
  rw [h.findings]

theorem Alike.checkSubPipes (h : l.Alike l') (p : Pipe) :
    l'.checkSubPipes p = l.checkSubPipes p := by
  unfold Library.checkSubPipes
  simp only [h.contains]

theorem Alike.checkOutcomes (h : l.Alike l') (p : Pipe) :
    l'.checkOutcomes p = l.checkOutcomes p := by
  have hone : l'.checkOutcome p = l.checkOutcome p := by
    funext code
    unfold checkOutcome
    rw [h.pipe, h.concepts]
  unfold Library.checkOutcomes
  rw [hone]

theorem Alike.checkMain (h : l.Alike l') (b : Bundle) : l'.checkMain b = l.checkMain b := by
  unfold Library.checkMain
  simp only [h.contains]

/-! ## Adding pipes -/

variable {es es' : List (String × PipeBlueprint)}

/-- Pipes of distinct codes can be added if each of them can be made and its code is new. -/
theorem addPipes_isOk_iff (hn : (es.map Prod.fst).Nodup) : (addPipes domain l es).isOk = true ↔
    ∀ e ∈ es, l.pipes.contains e.1 = false ∧
      (l.concepts.makePipe domain e.1 e.2).isOk = true := by
  induction es generalizing l with
  | nil => exact ⟨fun _ _ he => absurd he List.not_mem_nil, fun _ => rfl⟩
  | cons e es ih =>
    obtain ⟨code, d⟩ := e
    rw [List.map_cons, List.nodup_cons] at hn
    rw [List.forall_mem_cons]
    cases hmade : l.concepts.makePipe domain code d with
    | error e =>
      rw [addPipes, hmade]
      constructor
      · intro h
        cases h
      · rintro ⟨⟨_, h⟩, _⟩
        cases h
    | ok p =>
      obtain rfl : p.code = code := (ConceptLibrary.makePipe_ok hmade).1
      rw [addPipes, hmade, ok_bind, addPipe]
      by_cases hnew : l.pipes.contains p.code = true
      · rw [if_pos hnew, hnew]
        constructor
        · intro h
          cases h
        · rintro ⟨⟨h, _⟩, _⟩
          cases h
      · rw [if_neg hnew, ok_bind, ih hn.2, Bool.not_eq_true] at *
        -- the pipe that has been added takes the code of none of the others
        have hrest : ∀ e ∈ es, (l.pipes.insert p.code p).contains e.1 = l.pipes.contains e.1 := by
          intro e he
          have hne : p.code ≠ e.1 := fun heq => hn.1 (List.mem_map.2 ⟨e, he, heq.symm⟩)
          simp [hne]
        constructor
        · exact fun h => ⟨⟨hnew, rfl⟩, fun e he => hrest e he ▸ h e he⟩
        · exact fun h e he => (hrest e he).symm ▸ h.2 e he

/-- Pipes that are added are each made from a declaration. -/
theorem exists_makePipe (hn : (es.map Prod.fst).Nodup) (h : addPipes domain l es = .ok l') :
    ∀ e ∈ es, ∃ p, l.concepts.makePipe domain e.1 e.2 = .ok p :=
  fun e he => exists_of_isOk ((addPipes_isOk_iff hn).1 (isOk_of_eq_ok h) e he).2

/-- After pipes have been added, the pipe of a code is the one that was there or the one that is
made from the declaration of the code. -/
theorem get?_addPipes_iff (h : addPipes domain l es = .ok l') {code : String} :
    l'.pipes.get? code = some p ↔ l.pipes.get? code = some p ∨
      ∃ d, (code, d) ∈ es ∧ l.concepts.makePipe domain code d = .ok p := by
  obtain ⟨-, hw, hnew⟩ := addPipes_ok h
  refine ⟨hnew code p, ?_⟩
  rintro (hold | ⟨d, hd, hmade⟩)
  · exact hw code p hold
  · clear hw hnew
    induction es generalizing l with
    | nil => cases hd
    | cons e es ih =>
      simp only [addPipes, bind_eq_ok_iff] at h
      obtain ⟨first, hfirst, l₁, hl₁, h⟩ := h
      have hconcepts := (addPipe_ok hl₁).1
      rcases List.mem_cons.1 hd with rfl | hd
      · have hsame : first = p := Except.ok.inj (hfirst.symm.trans hmade)
        rw [hsame] at hl₁
        refine (addPipes_ok h).2.1 code p ?_
        unfold addPipe at hl₁
        split at hl₁
        · cases hl₁
        · cases hl₁
          simp [(ConceptLibrary.makePipe_ok hmade).1]
      · exact ih h hd (by rw [hconcepts]; exact hmade)

/-- Pipes that are added in another order give the same pipe for every code. -/
theorem addPipes_perm (hn : (es.map Prod.fst).Nodup) (hperm : es'.Perm es)
    (h : addPipes domain l es = .ok l₁) :
    ∃ l₂, addPipes domain l es' = .ok l₂ ∧ l₁.Alike l₂ := by
  have hn' : (es'.map Prod.fst).Nodup := (hperm.map Prod.fst).nodup_iff.2 hn
  have hok := (addPipes_isOk_iff hn).1 (isOk_of_eq_ok h)
  have hok' : (addPipes domain l es').isOk = true :=
    (addPipes_isOk_iff hn').2 fun e he => hok e (hperm.mem_iff.1 he)
  obtain ⟨l₂, h'⟩ := exists_of_isOk hok'
  refine ⟨l₂, h', ?_, ?_, fun code => ?_⟩
  · rw [(addPipes_others h').1, (addPipes_others h).1]
  · rw [(addPipes_ok h').1, (addPipes_ok h).1]
  · ext p
    rw [get?_addPipes_iff h', get?_addPipes_iff h]
    simp only [hperm.mem_iff]

/-! ## Loading -/

variable {pipes : Dict PipeBlueprint}

/-- The pipes of a bundle are found in either library, whatever their order. -/
theorem Alike.mem_pipesOf (h : l.Alike l') (hperm : pipes.entries.Perm b.pipes.entries) :
    p ∈ l'.pipesOf { b with pipes } ↔ p ∈ l.pipesOf b := by
  unfold pipesOf
  simp only [List.mem_filterMap, h.pipes]
  exact exists_congr fun code => and_congr_left' (hperm.map Prod.fst).mem_iff

/-- A bundle with its pipes in another order is loaded alike. -/
theorem exists_load_perm (hperm : pipes.entries.Perm b.pipes.entries)
    (h : l.load b policy = .ok l₁) :
    ∃ l₂, l.load { b with pipes } policy = .ok l₂ ∧ l₁.Alike l₂ := by
  obtain ⟨hnew, ⟨concepts, hconcepts, hadded⟩, hchecks, hmain⟩ := load_eq_ok_iff.1 h
  obtain ⟨l₂, hadded', halike⟩ := addPipes_perm b.pipes.nodup hperm hadded
  refine ⟨l₂, load_eq_ok_iff.2 ⟨hnew, ⟨concepts, hconcepts, hadded'⟩, fun p hp => ?_,
    (halike.checkMain b).trans hmain⟩, halike⟩
  rw [halike.checkSubPipes, halike.checkOutcomes, halike.checkSignature]
  exact hchecks p ((halike.mem_pipesOf hperm).1 hp)

/-- A bundle can be loaded with its pipes in any order if it can be loaded with them in one, and the
library has the same domains, the same concepts and structures, and the same pipe for every code. -/
theorem load_perm (l : Library) (b : Bundle) (policy : ReactionPolicy) (pipes : Dict PipeBlueprint)
    (hperm : pipes.entries.Perm b.pipes.entries) :
    ((l.load { b with pipes } policy).isOk = true ↔ (l.load b policy).isOk = true) ∧
    ∀ l₁ l₂, l.load b policy = .ok l₁ → l.load { b with pipes } policy = .ok l₂ →
      l₂.domains = l₁.domains ∧ l₂.concepts = l₁.concepts ∧
        ∀ code, l₂.pipes.get? code = l₁.pipes.get? code := by
  refine ⟨⟨fun hok => ?_, fun hok => ?_⟩, fun l₁ l₂ h₁ h₂ => ?_⟩
  · obtain ⟨l₂, h₂⟩ := exists_of_isOk hok
    obtain ⟨l₁, h₁, _⟩ := exists_load_perm (b := { b with pipes }) hperm.symm h₂
    rw [show l.load b policy = .ok l₁ from h₁]
    rfl
  · obtain ⟨l₁, h₁⟩ := exists_of_isOk hok
    obtain ⟨l₂, h₂, _⟩ := exists_load_perm hperm h₁
    rw [h₂]
    rfl
  · obtain ⟨l₂', h₂', halike⟩ := exists_load_perm hperm h₁
    rw [h₂] at h₂'
    cases h₂'
    exact ⟨halike.domains, halike.concepts, halike.pipes⟩

/-- The two pipes of `relay` that run each other may come before the one that both run. -/
theorem load_perm_relay : ∃ pipes : Dict PipeBlueprint,
    pipes.entries.Perm relayBundle.pipes.entries ∧ pipes.keys = ["judge", "attempt", "write"] ∧
    (initial.load { relayBundle with pipes } {}).isOk = true ∧
    ∀ l, initial.load { relayBundle with pipes } {} = .ok l → l.domains = relay.domains ∧
      l.concepts = relay.concepts ∧ ∀ code, l.pipes.get? code = relay.pipes.get? code := by
  have hload : initial.load relayBundle {} = .ok relay := by
    refine eq_ok_of_toOption ?_
    decide +kernel
  have hok : (initial.load relayBundle {}).isOk = true := by
    rw [hload]
    rfl
  let pipes : Dict PipeBlueprint := ⟨relayBundle.pipes.entries.reverse, by
    rw [List.map_reverse, List.nodup_reverse]
    exact relayBundle.pipes.nodup⟩
  have hperm : pipes.entries.Perm relayBundle.pipes.entries := List.reverse_perm _
  obtain ⟨hiff, hsame⟩ := load_perm initial relayBundle {} pipes hperm
  exact ⟨pipes, hperm, by decide, hiff.2 hok, fun l hl => hsame relay l hload hl⟩

end Conduit.Library
