import Conduit.Proofs.Dict
import Conduit.Proofs.Library.History

/-!
# What is always there

The built-in structures stay through all histories of a library, for a structure that is built in is
never taken out. Nothing takes the place of a native concept either: its code is reserved, so no
bundle of any domain defines another concept under its name (`ConceptLibrary.Reserves`). But native
concepts are told apart by their domain alone, and a bundle may have that domain; they are gone once
it has been unloaded (`Library.DropsNatives`). `Library.after_builtIns` says that this is the only
way to lose them.
-/

namespace Conduit

/-! ## Reserved names -/

/-- The code of a concept that a bundle defines has no dot. -/
theorem dot_notMem_of_isConceptCode {code : String} (h : Text.isConceptCode code = true) :
    '.' ∉ code.toList := by
  unfold Text.isConceptCode at h
  cases hchars : code.toList with
  | nil => exact List.not_mem_nil
  | cons c cs =>
    rw [hchars] at h
    obtain ⟨hupper, hall⟩ := Bool.and_eq_true_iff.1 h
    intro hdot
    rcases List.mem_cons.1 hdot with rfl | hdot
    · revert hupper
      decide
    · have hword := List.all_eq_true.1 hall '.' hdot
      revert hword
      decide

/-- A full name has one domain and one code, if the codes have no dots. -/
theorem Concept.eq_of_fullName {domain domain' code code' : String} (hcode : '.' ∉ code.toList)
    (hcode' : '.' ∉ code'.toList) (h : fullName domain code = fullName domain' code') :
    domain = domain' ∧ code = code' := by
  have hchars : domain.toList ++ '.' :: code.toList = domain'.toList ++ '.' :: code'.toList := by
    have := congrArg String.toList h
    simpa [fullName] using this
  rcases List.append_eq_append_iff.1 hchars with ⟨more, hdomain, hrest⟩ | ⟨more, hdomain, hrest⟩
  · cases more with
    | nil =>
      rw [List.append_nil] at hdomain
      rw [List.nil_append, List.cons.injEq] at hrest
      exact ⟨(String.toList_inj.1 hdomain).symm, String.toList_inj.1 hrest.2⟩
    | cons c more =>
      rw [List.cons_append, List.cons.injEq] at hrest
      exact absurd (by simp [hrest.2]) hcode
  · cases more with
    | nil =>
      rw [List.append_nil] at hdomain
      rw [List.nil_append, List.cons.injEq] at hrest
      exact ⟨String.toList_inj.1 hdomain, (String.toList_inj.1 hrest.2).symm⟩
    | cons c more =>
      rw [List.cons_append, List.cons.injEq] at hrest
      exact absurd (by simp [hrest.2]) hcode'

namespace NativeConcept

/-- The code of a native concept stands for it, and has no dot and no white space around it. -/
theorem code_plain (n : NativeConcept) : ofCode? n.code = some n ∧ '.' ∉ n.code.toList ∧
    Text.trimmed n.code = n.code := by
  cases n <;> decide +kernel

theorem eq_of_code {n m : NativeConcept} (h : n.code = m.code) : n = m := by
  have hn := n.code_plain.1
  rw [h, m.code_plain.1] at hn
  exact (Option.some.inj hn).symm

end NativeConcept

namespace ConceptLibrary

variable {l l' l₁ : ConceptLibrary} {c : Concept} {domain code name : String}

/-- A native concept, or one whose code is not reserved. -/
def Reserved (c : Concept) : Prop :=
  (∃ n : NativeConcept, c = n.concept) ∨ codeFault? c.code = none

/-- Only native concepts have reserved codes. -/
def Reserves (l : ConceptLibrary) : Prop :=
  ∀ name c, l.get? name = some c → Reserved c

theorem initial_reserves : ConceptLibrary.initial.Reserves := by
  have hall : ∀ e ∈ ConceptLibrary.initial.concepts.entries,
      ∃ n ∈ NativeConcept.all, e.2 = n.concept := by
    decide
  intro name c hc
  obtain ⟨n, _, hn⟩ := hall (name, c) (Dict.mem_entries_of_get? hc)
  exact .inl ⟨n, hn⟩

/-- A concept that is made has the code that it is made for, which is not reserved. -/
theorem make_code {b : ConceptBlueprint} (h : l.make domain code b = .ok (c, l₁)) :
    codeFault? c.code = none := by
  unfold make at h
  split at h
  · cases h
  · next hcode =>
    simp only [bind_eq_ok_iff] at h
    obtain ⟨_, _, h⟩ := h
    cases h
    exact hcode

/-- The code of a concept has no dot. -/
theorem dot_notMem_of_codeFault (h : codeFault? code = none) : '.' ∉ code.toList := by
  unfold codeFault? at h
  split at h
  · cases h
  · next hpascal =>
    rw [Bool.not_eq_true, Bool.not_eq_false'] at hpascal
    exact dot_notMem_of_isConceptCode hpascal

/-- Under a full name with the code of a native concept there is nothing but the concept, which is
under its own name. -/
theorem Coherent.eq_of_reserved (hl : l.Coherent) (hr : l.Reserves) {n : NativeConcept}
    (h : l.get? (Concept.fullName domain n.code) = some c) :
    c = n.concept ∧ domain = Concept.nativeDomain := by
  have hname : Concept.fullName c.domain c.code = Concept.fullName domain n.code :=
    hl.keyed _ _ h
  have hplain := n.code_plain
  rcases hr _ _ h with ⟨m, rfl⟩ | hcode
  · obtain ⟨hdomain, hcode⟩ := Concept.eq_of_fullName m.code_plain.2.1 hplain.2.1 hname
    rw [NativeConcept.eq_of_code hcode]
    exact ⟨rfl, hdomain.symm⟩
  · -- the code of the concept would be reserved
    obtain ⟨_, heq⟩ := Concept.eq_of_fullName (dot_notMem_of_codeFault hcode) hplain.2.1 hname
    unfold codeFault? at hcode
    rw [heq, hplain.1] at hcode
    split at hcode
    · cases hcode
    · cases hcode

/-- The code of a native concept stands for the concept in every domain, if it is in the library,
and else for nothing. -/
theorem Coherent.resolve?_native (hl : l.Coherent) (hr : l.Reserves) (n : NativeConcept)
    (domain : String) : l.resolve? n.code domain = l.get? n.concept.name := by
  obtain ⟨_, hdot, htrimmed⟩ := n.code_plain
  have hfind : (l.get? (Concept.fullName domain n.code)).or (l.get? n.concept.name) =
      l.get? n.concept.name := by
    cases h : l.get? (Concept.fullName domain n.code) with
    | none => rfl
    | some c =>
      obtain ⟨rfl, rfl⟩ := hl.eq_of_reserved hr h
      exact h.symm
  unfold resolve?
  simp only [htrimmed]
  rw [if_neg (by simpa using hdot)]
  exact hfind

end ConceptLibrary

namespace Library

variable {l l' : Library} {c c' : ConceptLibrary} {domain name : String} {b : Bundle}
  {policy : ReactionPolicy}

/-! ## Loading and unloading -/

/-- Concepts that a bundle defines leave the others as they are, and their codes are not
reserved. -/
theorem addConcepts_codes {es : List (String × ConceptBlueprint)}
    (h : addConcepts domain c es = .ok c') :
    (∀ name d, c.get? name = some d → c'.get? name = some d) ∧
      ∀ name d, c'.get? name = some d →
        c.get? name = some d ∨ ConceptLibrary.codeFault? d.code = none := by
  induction es generalizing c with
  | nil =>
    cases h
    exact ⟨fun _ _ hd => hd, fun _ _ hd => .inl hd⟩
  | cons e es ih =>
    obtain ⟨code, blueprint⟩ := e
    simp only [addConcepts, bind_eq_ok_iff] at h
    obtain ⟨⟨concept, c₁⟩, hmake, c₂, hadd, h⟩ := h
    obtain ⟨_, hconcepts, _⟩ := ConceptLibrary.make_supplies hmake
    obtain ⟨_, _, hkeep, hcases⟩ := ConceptLibrary.add_ok hadd
    simp only [ConceptLibrary.get?, hconcepts] at hkeep hcases
    obtain ⟨hkeep', hcases'⟩ := ih h
    refine ⟨fun name d hd => hkeep' name d (hkeep name d hd), fun name d hd => ?_⟩
    rcases hcases' name d hd with hd | hcode
    · rcases hcases name d hd with hd | ⟨_, rfl⟩
      · exact .inl hd
      · exact .inr (ConceptLibrary.make_code hmake)
    · exact .inr hcode

theorem addConcepts_reserves (hc : c.Reserves) {es : List (String × ConceptBlueprint)}
    (h : addConcepts domain c es = .ok c') : c'.Reserves := by
  intro name d hd
  rcases (addConcepts_codes h).2 name d hd with hold | hcode
  · exact hc name d hold
  · exact .inr hcode

/-- A library that is coherent and in which only native concepts have reserved codes. -/
structure Reserves (l : Library) : Prop where
  coherent : l.Coherent
  concepts : l.concepts.Reserves

theorem initial_reserves : initial.Reserves :=
  ⟨initial_coherent, ConceptLibrary.initial_reserves⟩

theorem Reserves.load (hl : l.Reserves) (h : l.load b policy = .ok l') : l'.Reserves :=
  ⟨hl.coherent.load h, addConcepts_reserves hl.concepts (load_ok h).1⟩

/-- The concepts that are left when a domain is unloaded. -/
theorem Reserves.get?_unload (hl : l.Reserves) (h : l.unload? domain = some l') (name : String) :
    l'.concepts.get? name = (l.concepts.get? name).filter fun c => c.domain != domain := by
  unfold unload? at h
  split at h
  · cases h
    simp only [ConceptLibrary.get?, hl.coherent.concepts.removeDomain_concepts]
    exact Dict.get?_filter _ _ _
  · cases h

theorem Reserves.unload (hl : l.Reserves) (h : l.unload? domain = some l') : l'.Reserves := by
  refine ⟨hl.coherent.unload h, fun name d hd => ?_⟩
  rw [hl.get?_unload h, Option.filter_eq_some_iff] at hd
  exact hl.concepts name d hd.1

/-- A load changes nothing about native concepts, whether they are there or not. -/
theorem Reserves.native_load (hl : l.Reserves) (h : l.load b policy = .ok l') (n : NativeConcept) :
    l'.concepts.get? n.concept.name = l.concepts.get? n.concept.name := by
  obtain ⟨hkeep, hcases⟩ := addConcepts_codes (load_ok h).1
  cases hold : l.concepts.get? n.concept.name with
  | some d => exact hkeep _ d hold
  | none =>
    cases hnew : l'.concepts.get? n.concept.name with
    | none => rfl
    | some d =>
      obtain ⟨rfl, _⟩ := (hl.load h).coherent.concepts.eq_of_reserved (hl.load h).concepts hnew
      rcases hcases _ _ hnew with hd | hcode
      · rw [hold] at hd
        cases hd
      · have hfault : ConceptLibrary.codeFault? n.concept.code ≠ none := by
          cases n <;> decide
        exact absurd hcode hfault

/-- Unloading the native domain takes all native concepts out; unloading another one, none. -/
theorem Reserves.native_unload (hl : l.Reserves) (h : l.unload? domain = some l')
    (n : NativeConcept) : l'.concepts.get? n.concept.name =
      if domain = Concept.nativeDomain then none else l.concepts.get? n.concept.name := by
  rw [hl.get?_unload h]
  cases hold : l.concepts.get? n.concept.name with
  | none => simp
  | some d =>
    obtain ⟨rfl, _⟩ := hl.coherent.concepts.eq_of_reserved hl.concepts hold
    by_cases hdomain : domain = Concept.nativeDomain
    · simp [hdomain, NativeConcept.concept, Option.filter]
    · simp [Ne.symm hdomain, hdomain, NativeConcept.concept, Option.filter]

/-- Unloading a domain leaves part of the structures, in their order. -/
theorem unload_part (h : l.unload? domain = some l') : l'.registry.Part l.registry := by
  unfold unload? at h
  split at h
  · cases h
    exact l.concepts.removeDomain_part domain
  · cases h

/-- A change leaves the built-in structures in place. -/
theorem builtIns_change {s : Structure} (hs : l.registry.get? name = some s)
    (hnative : s.native = true) (change : Change) :
    (l.change change).registry.get? name = some s := by
  rcases l.change_cases change with hsame | ⟨b, policy, _, hload⟩ | ⟨domain, _, hunload⟩
  · rw [hsame]
    exact hs
  · exact (load_others hload).2.2.1.get? hs
  · have hpart := unload_part hunload
    refine hpart.get?_of_contains hs (hpart.native name ?_)
    rw [Registry.isNative, hs, Option.any_some, hnative]

/-! ## Histories -/

/-- The change unloads the native domain, which is loaded. -/
def Drops (l : Library) (change : Change) : Prop :=
  change = .unload Concept.nativeDomain ∧ l.domains.contains Concept.nativeDomain = true

/-- The native domain was unloaded at some point at which it was loaded. -/
def DropsNatives (changes : List Change) : Prop :=
  ∃ earlier change later, changes = earlier ++ change :: later ∧ (after earlier).Drops change

theorem after_concat (changes : List Change) (change : Change) :
    after (changes ++ [change]) = (after changes).change change :=
  List.foldl_concat ..

theorem dropsNatives_concat {changes : List Change} {change : Change} :
    DropsNatives (changes ++ [change]) ↔
      DropsNatives changes ∨ (after changes).Drops change := by
  constructor
  · rintro ⟨earlier, first, later, heq, hdrops⟩
    rcases List.eq_nil_or_concat later with rfl | ⟨later, last, rfl⟩
    · obtain ⟨rfl, hlast⟩ := List.append_inj' heq rfl
      rw [List.singleton_inj.1 hlast]
      exact .inr hdrops
    · rw [List.concat_eq_append, ← List.cons_append, ← List.append_assoc] at heq
      obtain ⟨rfl, _⟩ := List.append_inj' heq rfl
      exact .inl ⟨earlier, first, later, rfl, hdrops⟩
  · rintro (⟨earlier, first, later, rfl, hdrops⟩ | hdrops)
    · exact ⟨earlier, first, later ++ [change], by simp, hdrops⟩
    · exact ⟨changes, change, [], rfl, hdrops⟩

theorem Reserves.change (hl : l.Reserves) (change : Change) : (l.change change).Reserves := by
  rcases l.change_cases change with hsame | ⟨b, policy, _, hload⟩ | ⟨domain, _, hunload⟩
  · rw [hsame]
    exact hl
  · exact hl.load hload
  · exact hl.unload hunload

theorem reserves_after (changes : List Change) : (after changes).Reserves := by
  induction changes using List.reverseRecOn with
  | nil => exact initial_reserves
  | append_singleton changes change ih =>
    rw [after_concat]
    exact ih.change change

/-- A change takes the native concepts out if it unloads the native domain, and only then. -/
theorem Reserves.native_change (hl : l.Reserves) (change : Change) (n : NativeConcept) :
    (l.Drops change → (l.change change).concepts.get? n.concept.name = none) ∧
      (¬ l.Drops change →
        (l.change change).concepts.get? n.concept.name = l.concepts.get? n.concept.name) := by
  cases change with
  | load b policy =>
    refine ⟨fun hdrops => (nomatch hdrops.1), fun _ => ?_⟩
    cases h : l.load b policy with
    | error e =>
      rw [Library.change, h]
      rfl
    | ok l' =>
      rw [Library.change, h]
      exact hl.native_load h n
  | unload domain =>
    have hcontains : (l.unload? domain).isSome = l.domains.contains domain := by
      unfold unload?
      split <;> simp_all
    unfold Drops
    rw [Change.unload.injEq, Library.change]
    cases h : l.unload? domain with
    | none =>
      refine ⟨?_, fun _ => rfl⟩
      rintro ⟨rfl, hloaded⟩
      rw [h, hloaded] at hcontains
      cases hcontains
    | some l' =>
      rw [Option.getD_some, hl.native_unload h]
      refine ⟨fun hdrops => if_pos hdrops.1, fun hkeeps => if_neg ?_⟩
      rintro rfl
      rw [h, Option.isSome_some] at hcontains
      exact hkeeps ⟨rfl, hcontains.symm⟩

/-- A native concept is found unless the native domain has been unloaded. -/
theorem native_after (changes : List Change) (n : NativeConcept) :
    (DropsNatives changes → (after changes).concepts.get? n.concept.name = none) ∧
      (¬ DropsNatives changes →
        (after changes).concepts.get? n.concept.name = some n.concept) := by
  induction changes using List.reverseRecOn with
  | nil =>
    refine ⟨?_, fun _ => ?_⟩
    · rintro ⟨earlier, first, later, heq, _⟩
      simp at heq
    · cases n <;> decide
  | append_singleton changes change ih =>
    rw [dropsNatives_concat, after_concat]
    obtain ⟨hdrops, hkeeps⟩ := (reserves_after changes).native_change change n
    by_cases hchange : (after changes).Drops change
    · exact ⟨fun _ => hdrops hchange, fun hnot => absurd (.inr hchange) hnot⟩
    · rw [hkeeps hchange]
      exact ⟨fun h => ih.1 (h.resolve_right hchange), fun h => ih.2 fun hbefore => h (.inl hbefore)⟩

theorem builtIns_after (changes : List Change) {s : Structure} (hs : s ∈ Registry.builtIns) :
    (after changes).registry.get? s.name = some s := by
  have hall : ∀ s ∈ Registry.builtIns,
      initial.registry.get? s.name = some s ∧ s.native = true := by
    decide
  induction changes using List.reverseRecOn with
  | nil => exact (hall s hs).1
  | append_singleton changes change ih =>
    rw [after_concat]
    exact builtIns_change ih (hall s hs).2 change

/-- After any changes, every built-in structure is registered as it was. A native concept is in the
library, and its code stands for it in every domain, exactly if the native domain was never unloaded
while it was loaded; else it is gone, and its code stands for nothing in any domain. -/
theorem after_builtIns (changes : List Change) :
    (∀ s ∈ Registry.builtIns, (after changes).registry.get? s.name = some s) ∧
    ∀ n : NativeConcept,
      ((after changes).concepts.get? n.concept.name = some n.concept ↔ ¬ DropsNatives changes) ∧
      ((after changes).concepts.get? n.concept.name = none ↔ DropsNatives changes) ∧
      ∀ domain, (after changes).concepts.resolve? n.code domain =
        (after changes).concepts.get? n.concept.name := by
  refine ⟨fun s hs => builtIns_after changes hs, fun n => ?_⟩
  have h := reserves_after changes
  obtain ⟨hgone, hthere⟩ := native_after changes n
  refine ⟨⟨fun hget hdrops => ?_, hthere⟩, ⟨fun hget => ?_, hgone⟩,
    h.coherent.concepts.resolve?_native h.concepts n⟩
  · rw [hgone hdrops] at hget
    cases hget
  · by_contra hnot
    rw [hthere hnot] at hget
    cases hget

/-- A bundle of the native domain is loaded, and the domain is unloaded. -/
def dropChanges : List Change :=
  [.load (conceptBundle Concept.nativeDomain []) {}, .unload Concept.nativeDomain]

/-- Native concepts do not stay through all changes. -/
theorem not_forall_after_builtIns : ¬ ∀ changes : List Change,
    (∀ s ∈ Registry.builtIns, (after changes).registry.get? s.name = some s) ∧
    ∀ n : NativeConcept, (after changes).concepts.get? n.concept.name = some n.concept ∧
      ∀ domain, (after changes).concepts.get? (Concept.fullName domain n.code) = none →
        (after changes).concepts.resolve? n.code domain = some n.concept := by
  intro hall
  have hgone : (after dropChanges).concepts.get? NativeConcept.text.concept.name = none := by
    decide +kernel
  rw [((hall dropChanges).2 .text).1] at hgone
  cases hgone

end Library

end Conduit
