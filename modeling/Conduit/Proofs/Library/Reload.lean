import Conduit.Proofs.Library.Kept
import Conduit.Proofs.Library.Lost

/-!
# Loading a bundle again

A bundle stays loaded until its own domain is unloaded (`Library.Hosts`), and then it is gone with
all its pipes and concepts. But a structure that it brought stays if a concept of another domain has
it, and then the bundle cannot be loaded again, for the name of the structure is taken. That is the
only obstacle, as long as everything is left over which the bundle can be loaded
(`Library.reload_isOk_iff`), and changes take away nothing of a library if they unload none of its
domains (`kept_after`). What a bundle names may also be gone when it is loaded again
(`reload_refused`).
-/

namespace Conduit

namespace Library

variable {l l' l₁ : Library} {domain : String} {b : Bundle} {policy : ReactionPolicy}

/-! ## What stays -/

/-- What is there stays when a bundle is loaded. -/
theorem Kept.loaded (h : l.Kept l') (hload : l'.load b policy = .ok l₁) : l.Kept l₁ := by
  obtain ⟨hconcepts, hwithin, _⟩ := load_ok hload
  have hkeep := (addConcepts_codes hconcepts).1
  have hpart := (load_others hload).2.2.1
  exact ⟨⟨fun name c hc => hkeep name c (h.concepts.concepts name c hc),
      fun name s hs => hpart.get? (h.concepts.registry name s hs)⟩,
    fun code p hp => hwithin code p (h.pipes code p hp)⟩

/-- What is there stays when a domain is unloaded to which nothing of it belongs. -/
theorem Kept.unloaded (hl : l.Reserves) (hl' : l'.Reserves) (h : l.Kept l')
    (hunload : l'.unload? domain = some l₁) (hnative : domain ≠ Concept.nativeDomain)
    (hnew : l.domains.contains domain = false) : l.Kept l₁ := by
  have hconcepts : ∀ name c, l.concepts.get? name = some c →
      l₁.concepts.get? name = some c := by
    intro name c hc
    have hother : c.domain ≠ domain := by
      rintro rfl
      rcases hl.coherent.conceptDomains name c hc with hloaded | ⟨n, rfl⟩
      · rw [hnew] at hloaded
        cases hloaded
      · exact hnative rfl
    rw [hl'.get?_unload hunload, h.concepts.concepts name c hc]
    simp [hother]
  refine ⟨⟨hconcepts, fun name s hs => ?_⟩, fun code p hp => ?_⟩
  · have hold := h.concepts.registry name s hs
    have hpart := unload_part hunload
    refine hpart.get?_of_contains hold ?_
    cases hbuiltIn : s.native with
    | true =>
      refine hpart.native name ?_
      rw [registry, Registry.isNative, hold, Option.any_some, hbuiltIn]
    | false =>
      -- a concept that stays has the structure
      obtain ⟨key, c, hc, rfl⟩ := hl.coherent.concepts.owned name s hs hbuiltIn
      exact (hl'.unload hunload).coherent.concepts.shaped key c (hconcepts key c hc)
  · have hother : p.domain ≠ domain := by
      rintro rfl
      rw [hl.coherent.pipeDomains code p hp] at hnew
      cases hnew
    rw [get?_unload_pipe hunload, h.pipes code p hp]
    simp [hother]

/-- A change that unloads none of the domains that were loaded, nor the native one, leaves
everything in the library that was there. -/
theorem Kept.change (hl : l.Reserves) (hl' : l'.Reserves) (h : l.Kept l') {change : Change}
    (hstays : ∀ domain, change = .unload domain →
      domain ≠ Concept.nativeDomain ∧ l.domains.contains domain = false) :
    l.Kept (l'.change change) := by
  rcases l'.change_cases change with hsame | ⟨b, policy, _, hload⟩ | ⟨domain, rfl, hunload⟩
  · rw [hsame]
    exact h
  · exact h.loaded hload
  · obtain ⟨hnative, hnew⟩ := hstays domain rfl
    exact h.unloaded hl hl' hunload hnative hnew

/-- Changes that unload none of the domains that are loaded before them, nor the native one, leave
everything in the library that was there. -/
theorem kept_after (before : List Change) {later : List Change}
    (hstays : ∀ domain, .unload domain ∈ later →
      domain ≠ Concept.nativeDomain ∧ (after before).domains.contains domain = false) :
    (after before).Kept (after (before ++ later)) := by
  induction later using List.reverseRecOn with
  | nil =>
    rw [List.append_nil]
    exact ⟨.refl _, fun _ _ hp => hp⟩
  | append_singleton later change ih =>
    rw [← List.append_assoc, after_concat]
    refine (ih fun domain hmem => hstays domain (List.mem_append_left _ hmem)).change
      (reserves_after _) (reserves_after _) ?_
    rintro domain rfl
    exact hstays domain (List.mem_append_right _ List.mem_cons_self)

/-- The built-in structures are the same after every change. -/
theorem isNative_after (changes : List Change) (name : String) :
    (after changes).registry.isNative name = Registry.initial.isNative name := by
  induction changes using List.reverseRecOn with
  | nil => rfl
  | append_singleton changes change ih =>
    rw [after_concat, ← ih]
    rcases (after changes).change_cases change with hsame | ⟨b, policy, _, hload⟩ |
      ⟨domain, _, hunload⟩
    · rw [hsame]
    · exact ((load_others hload).2.2.1.isNative_eq name).symm
    · exact (unload_part hunload).isNative_eq name

theorem domains_unload (h : l.unload? domain = some l') :
    l'.domains = l.domains.erase domain := by
  unfold unload? at h
  split at h
  · cases h
    rfl
  · cases h

/-- The domain of the bundle is loaded, and the pipes that the bundle declares belong to it. -/
structure Hosts (l : Library) (b : Bundle) : Prop where
  domain : l.domains.contains b.domain.code = true
  pipes : ∀ code, b.pipes.contains code = true →
    ∃ p, l.pipes.get? code = some p ∧ p.domain = b.domain.code

theorem hosts_load (h : l.load b policy = .ok l') : l'.Hosts b where
  domain := by
    obtain ⟨_, hdomains, _⟩ := load_others h
    rw [hdomains, Dict.contains_insert, decide_eq_true rfl, Bool.true_or]
  pipes code hcode := by
    obtain ⟨_, ⟨concepts, _, hpipes⟩, _⟩ := load_eq_ok_iff.1 h
    obtain ⟨d, hd⟩ := Dict.exists_of_contains hcode
    have hd := Dict.mem_entries_of_get? hd
    obtain ⟨p, hp⟩ := exists_makePipe b.pipes.nodup hpipes _ hd
    exact ⟨p, (get?_addPipes_iff hpipes).2 (.inr ⟨d, hd, hp⟩), (ConceptLibrary.makePipe_ok hp).2.1⟩

/-- A bundle stays until its own domain is unloaded. -/
theorem Hosts.change (h : l.Hosts b) {change : Change} (hother : change ≠ .unload b.domain.code) :
    (l.change change).Hosts b := by
  rcases l.change_cases change with hsame | ⟨b', policy, _, hload⟩ | ⟨domain, rfl, hunload⟩
  · rw [hsame]
    exact h
  · refine ⟨?_, fun code hcode => ?_⟩
    · rw [(load_others hload).2.1, Dict.contains_insert, h.domain, Bool.or_true]
    · obtain ⟨p, hp, hdomain⟩ := h.pipes code hcode
      exact ⟨p, (load_ok hload).2.1 code p hp, hdomain⟩
  · rw [ne_eq, Change.unload.injEq] at hother
    refine ⟨?_, fun code hcode => ?_⟩
    · rw [domains_unload hunload, Dict.contains_erase, h.domain]
      simpa using hother
    · obtain ⟨p, hp, hdomain⟩ := h.pipes code hcode
      refine ⟨p, ?_, hdomain⟩
      rw [get?_unload_pipe hunload, hp]
      simp [hdomain, Ne.symm hother]

/-- Unloading the domain of a bundle makes room for it. -/
theorem Hosts.unload (h : l.Hosts b) : ∃ l', l.unload? b.domain.code = some l' ∧ l'.Lacks b := by
  obtain ⟨l', hl'⟩ : ∃ l', l.unload? b.domain.code = some l' := by
    rw [unload?, if_pos h.domain]
    exact ⟨_, rfl⟩
  refine ⟨l', hl', ?_, fun code hcode => ?_⟩
  · rw [domains_unload hl', Dict.contains_erase, decide_eq_true rfl]
    rfl
  · obtain ⟨p, hp, hdomain⟩ := h.pipes code hcode
    rw [Dict.contains, get?_unload_pipe hl', hp]
    simp [hdomain]

theorem hosts_after {before later : List Change}
    (hloaded : ((after before).load b policy).isOk = true)
    (hstays : .unload b.domain.code ∉ later) :
    (after (before ++ .load b policy :: later)).Hosts b := by
  induction later using List.reverseRecOn with
  | nil =>
    obtain ⟨l', hl'⟩ := exists_of_isOk hloaded
    rw [after_concat, change, hl']
    exact hosts_load hl'
  | append_singleton later change ih =>
    rw [List.mem_append, not_or] at hstays
    rw [← List.cons_append, ← List.append_assoc, after_concat]
    refine (ih hstays.1).change ?_
    rintro rfl
    exact hstays.2 List.mem_cons_self

/-! ## Loading again -/

/-- What a bundle brings that could be loaded at some time is no built-in structure, so it is there
only as that of a concept. -/
theorem contains_iff_of_brings {earlier changes : List Change} {shape : String}
    (hloaded : ((after earlier).load b policy).isOk = true) (hshape : b.Brings shape) :
    (after changes).registry.contains shape = true ↔
      ∃ name c, (after changes).concepts.get? name = some c ∧ c.shape = shape := by
  obtain ⟨l', hl'⟩ := exists_of_isOk hloaded
  have hnone : (after changes).concepts.registry.isNative shape = false := by
    refine Bool.eq_false_iff.2 fun hbuiltIn => ?_
    have hearlier : (after earlier).registry.isNative shape = true :=
      (isNative_after earlier shape).trans ((isNative_after changes shape).symm.trans hbuiltIn)
    exact Bool.eq_false_iff.1 (not_contains_of_load hl' hshape)
      ((Registry.Part.refl _).native shape hearlier)
  have hiff : (after changes).concepts.registry.contains shape = true ↔ _ :=
    (coherent_after changes).concepts.contains_iff
  rw [hnone, Bool.false_eq_true, false_or] at hiff
  exact hiff

/-- A bundle that is loaded, of another domain than the native one, can be unloaded. If all is left
over which it can be loaded, then it can be loaded again exactly if no concept is left whose
structure is one that the bundle brings. And all is left over which it was loaded, if none of the
domains that were loaded then has been unloaded since, nor the native one. -/
theorem reload_isOk_iff (before later : List Change) (b : Bundle) (policy : ReactionPolicy)
    (hnative : b.domain.code ≠ Concept.nativeDomain)
    (hloaded : ((after before).load b policy).isOk = true)
    (hstays : .unload b.domain.code ∉ later) :
    ∃ rest, (after (before ++ .load b policy :: later)).unload? b.domain.code = some rest ∧
      (∀ earlier, ((after earlier).load b policy).isOk = true → (after earlier).Kept rest →
        ((rest.load b policy).isOk = true ↔
          ∀ name c, rest.concepts.get? name = some c → ¬ b.Brings c.shape)) ∧
      ((∀ domain, .unload domain ∈ later →
          domain ≠ Concept.nativeDomain ∧ (after before).domains.contains domain = false) →
        (after before).Kept rest) := by
  obtain ⟨rest, hrest, hlacks⟩ := (hosts_after hloaded hstays).unload
  have hafter : after (before ++ .load b policy :: (later ++ [.unload b.domain.code])) = rest := by
    rw [← List.cons_append, ← List.append_assoc, after_concat, change, hrest]
    rfl
  subst hafter
  refine ⟨_, hrest, fun earlier hearlier hkept => ?_, fun hothers => ?_⟩
  · rw [hkept.load_isOk_iff (reserves_after earlier) (keyed_after earlier) (reserves_after _) hlacks
      hnative hearlier]
    constructor
    · intro hnew name c hc hbrings
      have hthere := (contains_iff_of_brings hearlier hbrings).2 ⟨name, c, hc, rfl⟩
      exact Bool.eq_false_iff.1 (hnew c.shape hbrings) hthere
    · intro hunused shape hbrings
      refine Bool.eq_false_iff.2 fun hthere => ?_
      obtain ⟨name, c, hc, rfl⟩ := (contains_iff_of_brings hearlier hbrings).1 hthere
      exact hunused name c hc hbrings
  · refine kept_after before fun domain hmem => ?_
    simp only [List.mem_cons, List.mem_append, List.not_mem_nil, or_false, reduceCtorEq, false_or,
      Change.unload.injEq] at hmem
    rcases hmem with hmem | rfl
    · exact hothers domain hmem
    · obtain ⟨l', hl'⟩ := exists_of_isOk hloaded
      exact ⟨hnative, (load_others hl').1⟩

/-! ## Members and guests -/

/-- A club with members. -/
def clubBundle : Bundle :=
  conceptBundle "club" [("Member", { shape := some nameSchema })]

/-- Guests, who share the structure of the members of the club. -/
def visitBundle : Bundle :=
  conceptBundle "visit" [("Guest", { shape := some (.named "Member") })]

theorem eq_of_clubBundle_brings {shape : String} (h : clubBundle.Brings shape) :
    shape = "Member" := by
  obtain ⟨d, hd, _⟩ := h
  have hkeys := Dict.mem_keys_iff.2 (Dict.contains_of_get? hd)
  exact List.mem_singleton.1 hkeys

/-- The club can be loaded again after the guests have come and gone. -/
theorem reload_isOk_iff_club :
    clubBundle.domain.code ≠ Concept.nativeDomain ∧
    ((after []).load clubBundle {}).isOk = true ∧
    .unload clubBundle.domain.code ∉ [.load visitBundle {}, Change.unload "visit"] ∧
    ∃ rest, (after [.load clubBundle {}, .load visitBundle {}, .unload "visit"]).unload? "club" =
        some rest ∧ (after []).Kept rest ∧ (rest.load clubBundle {}).isOk = true := by
  have hnative : clubBundle.domain.code ≠ Concept.nativeDomain := by decide
  have hloaded : ((after []).load clubBundle {}).isOk = true := by decide +kernel
  have hstays : .unload clubBundle.domain.code ∉
      [.load visitBundle {}, Change.unload "visit"] := by
    simp [clubBundle, conceptBundle]
  obtain ⟨rest, hrest, hiff, hkept⟩ := reload_isOk_iff [] _ clubBundle {} hnative hloaded hstays
  have hall : ((after [.load clubBundle {}, .load visitBundle {}, .unload "visit"]).unload?
      "club").all (fun rest => rest.concepts.concepts.values.all (·.shape != "Member")) = true := by
    decide +kernel
  have hothers : (after []).Kept rest := by
    refine hkept fun domain hmem => ?_
    simp only [List.mem_cons, reduceCtorEq, Change.unload.injEq, List.not_mem_nil, or_false,
      false_or] at hmem
    rw [hmem]
    decide
  refine ⟨hnative, hloaded, hstays, rest, hrest, hothers, (hiff [] hloaded hothers).2 ?_⟩
  intro name c hc hbrings
  have hmember := List.all_eq_true.1 (Option.all_eq_true .. |>.1 hall rest hrest) c
    (Dict.mem_values_of_get? hc)
  rw [eq_of_clubBundle_brings hbrings] at hmember
  exact Bool.false_ne_true hmember

/-- The club cannot be loaded again while a guest has the structure of the members; and when the
club is unloaded and then the guests are, these cannot be loaded again without it. -/
theorem reload_refused :
    (after guestChanges).load clubBundle {} =
      .error ⟨"club", .definition (.duplicateStructure "Member")⟩ ∧
    (after (guestChanges ++ [.unload "visit"])).load visitBundle {} =
      .error ⟨"visit", .definition (.unknownStructure "visit.Guest" "Member")⟩ := by
  decide +kernel

/-- A bundle that has been unloaded cannot always be loaded again. -/
theorem not_forall_reload : ¬ ∀ (before later : List Change) (b : Bundle) (policy : ReactionPolicy)
    (rest : Library), b.domain.code ≠ Concept.nativeDomain →
      ((after before).load b policy).isOk = true → .unload b.domain.code ∉ later →
      (after (before ++ .load b policy :: later)).unload? b.domain.code = some rest →
      (rest.load b policy).isOk = true := by
  intro hall
  have hok := hall [] [.load visitBundle {}] clubBundle {} (after guestChanges) (by decide)
    (by decide +kernel) (by simp) (by decide +kernel)
  rw [reload_refused.1] at hok
  cases hok

end Library

end Conduit
