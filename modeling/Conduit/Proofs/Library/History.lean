import Conduit.Proofs.Concept.Coherent
import Conduit.Proofs.Library.Loaded

/-!
# Histories of a library

However bundles are loaded and unloaded one after another, under whatever policies and whether the
loads succeed or not, the library stays coherent (`Library.Coherent`): the structures of its
concepts are registered and end at the root, every structure that is not built in is that of a
concept, and every concept and every pipe belongs to a loaded domain, native concepts apart
(`Library.after_coherent`).

What a load adds belongs to the domain of its bundle, and nothing else of the library belongs to it.
So unloading the domain after the load gives the library back as it was (`Library.unload_load`).
For the structures this is seen from the two ends: what is left of them are, in their order, those
of the concepts that are left, and so were those before the load.
-/

namespace Conduit

namespace Library

variable {l l' : Library} {c c' : ConceptLibrary} {domain : String} {b : Bundle}
  {policy : ReactionPolicy}

/-! ## What belongs to other domains -/

/-- A concept that is defined for a domain makes no difference to those of other domains, and the
structures that were there stay in their order. -/
theorem define_others {code : String} {blueprint : ConceptBlueprint} {concept : Concept}
    {c₁ : ConceptLibrary} (hmake : c.make domain code blueprint = .ok (concept, c₁))
    (hadd : c₁.add concept = .ok c') : c.registry.Part c'.registry ∧
      (c'.concepts.filter fun _ d => d.domain != domain) =
        c.concepts.filter fun _ d => d.domain != domain := by
  obtain ⟨hdomain, hconcepts, hsupplies⟩ := ConceptLibrary.make_supplies hmake
  unfold ConceptLibrary.add at hadd
  split at hadd
  · cases hadd
  · next hnew =>
    split at hadd
    · cases hadd
    · cases hadd
      refine ⟨hsupplies.part, ?_⟩
      have hmine : (concept.domain != domain) = false := by simp [hdomain]
      rw [← hconcepts]
      exact Dict.filter_insert hmine fun d hd => absurd (Dict.contains_of_get? hd) hnew

/-- The concepts of a bundle are defined one after another. -/
theorem addConcepts_others {es : List (String × ConceptBlueprint)}
    (h : addConcepts domain c es = .ok c') : c.registry.Part c'.registry ∧
      (c'.concepts.filter fun _ d => d.domain != domain) =
        c.concepts.filter fun _ d => d.domain != domain := by
  induction es generalizing c with
  | nil =>
    cases h
    exact ⟨.refl _, rfl⟩
  | cons e es ih =>
    obtain ⟨code, blueprint⟩ := e
    simp only [addConcepts, bind_eq_ok_iff] at h
    obtain ⟨⟨concept, c₁⟩, hmake, c₂, hadd, h⟩ := h
    obtain ⟨hpart, hothers⟩ := define_others hmake hadd
    obtain ⟨hpart', hothers'⟩ := ih h
    exact ⟨hpart.trans hpart', hothers'.trans hothers⟩

theorem addConcepts_coherent {es : List (String × ConceptBlueprint)} (hc : c.Coherent)
    (h : addConcepts domain c es = .ok c') : c'.Coherent := by
  induction es generalizing c with
  | nil =>
    cases h
    exact hc
  | cons e es ih =>
    obtain ⟨code, blueprint⟩ := e
    simp only [addConcepts, bind_eq_ok_iff] at h
    obtain ⟨⟨concept, c₁⟩, hmake, c₂, hadd, h⟩ := h
    exact ih (hc.define hmake hadd) h

/-- Pipes that are added for a domain make no difference to those of other domains. -/
theorem addPipes_others {es : List (String × PipeBlueprint)} (h : addPipes domain l es = .ok l') :
    l'.domains = l.domains ∧ (l'.pipes.filter fun _ p => p.domain != domain) =
      l.pipes.filter fun _ p => p.domain != domain := by
  induction es generalizing l with
  | nil =>
    cases h
    exact ⟨rfl, rfl⟩
  | cons e es ih =>
    obtain ⟨code, blueprint⟩ := e
    simp only [addPipes, bind_eq_ok_iff] at h
    obtain ⟨p, hp, l₁, hl₁, h⟩ := h
    obtain ⟨hdomains, hothers⟩ := ih h
    unfold addPipe at hl₁
    split at hl₁
    · cases hl₁
    · next hnew =>
      cases hl₁
      refine ⟨hdomains, hothers.trans ?_⟩
      have hmine : (p.domain != domain) = false := by
        simp [(ConceptLibrary.makePipe_ok hp).2.1]
      exact Dict.filter_insert hmine fun q hq => absurd (Dict.contains_of_get? hq) hnew

/-- A load adds a domain that is new, and makes no difference to the concepts and pipes of other
domains. The structures that were there stay in their order. -/
theorem load_others (h : l.load b policy = .ok l') :
    l.domains.contains b.domain.code = false ∧
    l'.domains = l.domains.insert b.domain.code b.domain ∧
    l.registry.Part l'.registry ∧
    ((l'.concepts.concepts.filter fun _ d => d.domain != b.domain.code) =
      l.concepts.concepts.filter fun _ d => d.domain != b.domain.code) ∧
    (l'.pipes.filter fun _ p => p.domain != b.domain.code) =
      l.pipes.filter fun _ p => p.domain != b.domain.code := by
  obtain ⟨hnew, ⟨concepts, hconcepts, hadded⟩, _⟩ := load_eq_ok_iff.1 h
  obtain rfl := (addPipes_ok hadded).1
  obtain ⟨hpart, hothers⟩ := addConcepts_others hconcepts
  obtain ⟨hdomains, hpipes⟩ := addPipes_others hadded
  exact ⟨hnew, hdomains, hpart, hothers, hpipes⟩

/-! ## Coherent libraries -/

/-- The concepts are coherent, and every concept and every pipe belongs to a loaded domain, native
concepts apart. -/
structure Coherent (l : Library) : Prop where
  concepts : l.concepts.Coherent
  conceptDomains : ∀ name c, l.concepts.get? name = some c →
    l.domains.contains c.domain = true ∨ ∃ n : NativeConcept, c = n.concept
  pipeDomains : ∀ code p, l.pipes.get? code = some p → l.domains.contains p.domain = true

theorem initial_coherent : initial.Coherent where
  concepts := ConceptLibrary.initial_coherent
  conceptDomains := by
    have hall : ∀ e ∈ ConceptLibrary.initial.concepts.entries,
        ∃ n ∈ NativeConcept.all, e.2 = n.concept := by
      decide
    intro name c hc
    obtain ⟨n, _, hn⟩ := hall (name, c) (Dict.mem_entries_of_get? hc)
    exact .inr ⟨n, hn⟩
  pipeDomains := nofun

theorem Coherent.load (hl : l.Coherent) (h : l.load b policy = .ok l') : l'.Coherent := by
  obtain ⟨hnew, hdomains, _, hconcepts, hpipes⟩ := load_others h
  -- what is in the library was there or belongs to the domain of the bundle
  have hloaded : ∀ d, (l.domains.contains d = true ∨ (d != b.domain.code) = false) →
      l'.domains.contains d = true := by
    intro d hd
    rw [hdomains, Dict.contains_insert, Bool.or_eq_true, decide_eq_true_eq]
    rw [bne_eq_false_iff_eq] at hd
    exact hd.symm.imp Eq.symm id
  refine ⟨addConcepts_coherent hl.concepts (load_ok h).1, ?_, ?_⟩
  · intro name c hc
    rcases Dict.get?_of_filter_eq hconcepts hc with hold | hmine
    · exact (hl.conceptDomains name c hold).imp (fun hd => hloaded _ (.inl hd)) id
    · exact .inl (hloaded _ (.inr hmine))
  · intro code p hp
    rcases Dict.get?_of_filter_eq hpipes hp with hold | hmine
    · exact hloaded _ (.inl (hl.pipeDomains code p hold))
    · exact hloaded _ (.inr hmine)

theorem Coherent.unload (hl : l.Coherent) (h : l.unload? domain = some l') : l'.Coherent := by
  unfold unload? at h
  split at h
  · cases h
    -- what is left belongs to another domain
    have hstays : ∀ d, l.domains.contains d = true → (d != domain) = true →
        (l.domains.erase domain).contains d = true := by
      intro d hd hother
      rw [bne_iff_ne] at hother
      simp [hd, Ne.symm hother]
    refine ⟨hl.concepts.removeDomain domain, ?_, ?_⟩
    · intro name c hc
      have hc : (l.concepts.removeDomain domain).concepts.get? name = some c := hc
      rw [hl.concepts.removeDomain_concepts] at hc
      obtain ⟨hmem, hother⟩ := List.mem_filter.1 (Dict.mem_entries_of_get? hc)
      exact (hl.conceptDomains name c (Dict.get?_of_mem_entries hmem)).imp
        (fun hd => hstays _ hd hother) id
    · intro code p hp
      obtain ⟨hmem, hother⟩ := List.mem_filter.1 (Dict.mem_entries_of_get? hp)
      exact hstays _ (hl.pipeDomains code p (Dict.get?_of_mem_entries hmem)) hother
  · cases h

/-! ## Histories -/

/-- A bundle is loaded under a policy, or a domain is unloaded. -/
inductive Change where
  | load (b : Bundle) (policy : ReactionPolicy)
  | unload (domain : String)

/-- A library after a change; a load that fails and the unloading of a domain that is not loaded
leave it as it is. -/
def change (l : Library) : Change → Library
  | .load b policy => (l.load b policy).toOption.getD l
  | .unload domain => (l.unload? domain).getD l

/-- The library after some changes, one after another. -/
def after (changes : List Change) : Library :=
  changes.foldl change initial

/-- A change leaves a library as it is, or it is a load that succeeds or the unloading of a domain
that is loaded. -/
theorem change_cases (l : Library) (change : Change) : l.change change = l ∨
    (∃ b policy, change = .load b policy ∧ l.load b policy = .ok (l.change change)) ∨
    ∃ domain, change = .unload domain ∧ l.unload? domain = some (l.change change) := by
  cases change with
  | load b policy =>
    cases h : l.load b policy with
    | error e =>
      left
      rw [Library.change, h]
      rfl
    | ok l' =>
      refine .inr (.inl ⟨b, policy, rfl, ?_⟩)
      rw [h, Library.change, h]
      rfl
  | unload domain =>
    cases h : l.unload? domain with
    | none =>
      left
      rw [Library.change, h]
      rfl
    | some l' =>
      refine .inr (.inr ⟨domain, rfl, ?_⟩)
      rw [h, Library.change, h]
      rfl

theorem Coherent.change (hl : l.Coherent) (change : Change) : (l.change change).Coherent := by
  rcases l.change_cases change with hsame | ⟨b, policy, _, hload⟩ | ⟨domain, _, hunload⟩
  · rw [hsame]
    exact hl
  · exact hl.load hload
  · exact hl.unload hunload

theorem coherent_after (changes : List Change) : (after changes).Coherent := by
  induction changes using List.reverseRecOn with
  | nil => exact initial_coherent
  | append_singleton changes change ih =>
    rw [after, List.foldl_concat]
    exact ih.change change

/-- After any changes, the structure of every concept is registered, and its ancestors end at the
root; every structure that is not built in is the structure of a concept; and every concept and
every pipe belongs to a loaded domain, or is a native concept. -/
theorem after_coherent (changes : List Change) :
    (∀ name c, (after changes).concepts.get? name = some c →
      (after changes).registry.contains c.shape = true ∧
        (after changes).registry.isContent c.shape = true) ∧
    (∀ name s, (after changes).registry.get? name = some s → s.native = false →
      ∃ key c, (after changes).concepts.get? key = some c ∧ c.shape = name) ∧
    (∀ name c, (after changes).concepts.get? name = some c →
      (after changes).domains.contains c.domain = true ∨ ∃ n : NativeConcept, c = n.concept) ∧
    ∀ code p, (after changes).pipes.get? code = some p →
      (after changes).domains.contains p.domain = true := by
  have h := coherent_after changes
  refine ⟨fun name c hc => ?_, h.concepts.owned, h.conceptDomains, h.pipeDomains⟩
  have hshape := h.concepts.shaped name c hc
  exact ⟨hshape, h.concepts.rooted.isContent hshape⟩

/-! ## Unloading what has been loaded -/

/-- Nothing of a library belongs to a domain that is not loaded, unless it is the native one. -/
theorem Coherent.filter_others (hl : l.Coherent) (hnew : l.domains.contains domain = false)
    (hnative : domain ≠ Concept.nativeDomain) :
    (l.concepts.concepts.filter fun _ c => c.domain != domain) = l.concepts.concepts ∧
      (l.pipes.filter fun _ p => p.domain != domain) = l.pipes := by
  constructor
  · refine Dict.filter_eq_self fun name c hc => bne_iff_ne.2 ?_
    rintro rfl
    rcases hl.conceptDomains name c hc with hloaded | ⟨n, rfl⟩
    · rw [hnew] at hloaded
      cases hloaded
    · exact hnative rfl
  · refine Dict.filter_eq_self fun code p hp => bne_iff_ne.2 ?_
    rintro rfl
    rw [hl.pipeDomains code p hp] at hnew
    cases hnew

/-- Two coherent libraries with the same concepts, whose structures are parts of one registry, are
the same. -/
theorem eq_of_concepts {r : Registry} (hc : c.Coherent) (hc' : c'.Coherent)
    (hconcepts : c.concepts = c'.concepts) (hpart : c.registry.Part r)
    (hpart' : c'.registry.Part r) : c = c' := by
  have hregistry : c.registry = c'.registry := by
    refine Registry.eq_of_part hpart hpart' fun name => ?_
    rw [Bool.eq_iff_iff, hc.contains_iff, hc'.contains_iff, hpart.isNative_eq, hpart'.isNative_eq]
    simp only [ConceptLibrary.get?, hconcepts]
  cases c
  cases c'
  rw [ConceptLibrary.mk.injEq]
  exact ⟨hconcepts, hregistry⟩

/-- Unloading the domain of a bundle that has just been loaded gives the library back as it was,
with the order of its domains, concepts, structures and pipes. -/
theorem unload_load (changes : List Change) (h : (after changes).load b policy = .ok l')
    (hnative : b.domain.code ≠ Concept.nativeDomain) :
    l'.unload? b.domain.code = some (after changes) := by
  have hl := coherent_after changes
  have hl' := hl.load h
  obtain ⟨hnew, hdomains, hpart, hconcepts, hpipes⟩ := load_others h
  obtain ⟨hconcepts', hpipes'⟩ := hl.filter_others hnew hnative
  have hcontains : l'.domains.contains b.domain.code = true := by
    rw [hdomains, Dict.contains_insert, decide_eq_true rfl, Bool.true_or]
  have hkeys : b.domain.code ∉ (after changes).domains.keys := by
    rw [Dict.mem_keys_iff, hnew]
    exact Bool.false_ne_true
  have hremoved : l'.concepts.removeDomain b.domain.code = (after changes).concepts := by
    refine eq_of_concepts (hl'.concepts.removeDomain _) hl.concepts ?_
      (l'.concepts.removeDomain_part _) hpart
    rw [hl'.concepts.removeDomain_concepts, hconcepts, hconcepts']
  rw [unload?, if_pos hcontains, hremoved, hpipes, hpipes', hdomains,
    Dict.erase_insert_of_not_mem hkeys]

/-! ## Clubs and guests -/

/-- A bundle that declares concepts only. -/
def conceptBundle (domain : String) (concepts : List (String × ConceptDetail)) : Bundle where
  domain := ⟨domain, none, none⟩
  concepts := .ofList (concepts.map fun (code, detail) => (code, .detailed detail))
  pipes := .empty
  mainPipe := none

/-- A schema with a name. -/
def nameSchema : StructureBlueprint :=
  .schema (.ofList [("name", .detailed {})])

/-- Guests share the structure of the members of a club, which then is unloaded. -/
def guestChanges : List Change := [
  .load (conceptBundle "club" [("Member", { shape := some nameSchema })]) {},
  .load (conceptBundle "visit" [("Guest", { shape := some (.named "Member") })]) {},
  .unload "club"]

/-- A party, whose hosts share the structure of the guests and have badges. -/
def partyBundle : Bundle :=
  conceptBundle "party" [("Host", { shape := some (.named "Member") }),
    ("Badge", { shape := some nameSchema })]

/-- When the party is unloaded, the structure goes that only it had, and the one stays that it
shared. -/
theorem unload_load_party : ∃ l', (after guestChanges).load partyBundle {} = .ok l' ∧
    partyBundle.domain.code ≠ Concept.nativeDomain ∧ l'.registry.contains "Badge" = true ∧
    l'.unload? "party" = some (after guestChanges) ∧
    (after guestChanges).registry.contains "Badge" = false ∧
    (after guestChanges).registry.contains "Member" = true ∧
    (after guestChanges).domains.keys = ["visit"] := by
  have hbefore : (after guestChanges).registry.contains "Badge" = false ∧
      (after guestChanges).registry.contains "Member" = true ∧
      (after guestChanges).domains.keys = ["visit"] := by
    decide +kernel
  have hloads : ((after guestChanges).load partyBundle {}).toOption.map
      (fun l' => l'.registry.contains "Badge") = some true := by
    decide +kernel
  obtain ⟨l', hl', hbadge⟩ := Option.map_eq_some_iff.1 hloads
  have hload := eq_ok_of_toOption hl'
  exact ⟨l', hload, by decide, hbadge, unload_load guestChanges hload (by decide), hbefore⟩

end Library

end Conduit
