import Conduit.Proofs.Library.BuiltIns
import Conduit.Proofs.Library.Larger
import Conduit.Proofs.Library.Order

/-!
# Loading into larger libraries

A bundle that can be loaded into a library can be loaded into every larger one (`Library.Kept`) that
has neither its domain nor its pipes, with one exception: no structure of the larger library may
have the name of one that the bundle brings (`Kept.load_isOk_iff`). The concepts come first and then
the pipes, which are made alike in both libraries; after that the one that results from the smaller
library underlies the other one, so that all checks are passed there as well.
-/

namespace Conduit

/-- A concept of the bundle brings a structure of its own, which has the code of the concept as its
name. -/
def Bundle.Brings (b : Bundle) (shape : String) : Prop :=
  ∃ d, b.concepts.get? shape = some d ∧ d.HasSchema

namespace Library

variable {l l' l₁ : Library} {c c' c₁ : ConceptLibrary} {domain code : String} {b : Bundle}
  {policy : ReactionPolicy}

/-! ## Definitions -/

section Definitions

variable {es : List (String × ConceptBlueprint)}

/-- Concepts of a domain are added alike to a larger library in which no structure has the name of
one that they bring. -/
theorem addConcepts_embeds (hn : (es.map Prod.fst).Nodup) (hc : c.Coherent)
    (h : c.Embeds domain c')
    (hnew : ∀ e ∈ es, e.2.HasSchema → c'.registry.contains e.1 = false)
    (hadd : addConcepts domain c es = .ok c₁) :
    ∃ c₁', addConcepts domain c' es = .ok c₁' ∧ c₁.Embeds domain c₁' := by
  induction es generalizing c c' with
  | nil =>
    cases hadd
    exact ⟨c', rfl, h⟩
  | cons e es ih =>
    obtain ⟨code, d⟩ := e
    rw [List.map_cons, List.nodup_cons] at hn
    rw [List.forall_mem_cons] at hnew
    simp only [addConcepts, bind_eq_ok_iff] at hadd ⊢
    obtain ⟨⟨concept, made⟩, hmake, added, hadded, hadd⟩ := hadd
    obtain ⟨made', hmake', hmade⟩ := h.make hc.rooted hnew.1 hmake
    obtain ⟨added', hadded', hembeds⟩ := hmade.add (ConceptLibrary.make_supplies hmake).1
      (ConceptLibrary.dot_notMem_of_codeFault (ConceptLibrary.make_code hmake)) hadded
    -- only the structure of this concept may have been added, and the others have other codes
    have hrest : ∀ e ∈ es, e.2.HasSchema → added'.registry.contains e.1 = false := by
      intro e he hschema
      rw [(ConceptLibrary.add_ok hadded').1]
      rcases ConceptLibrary.make_registry hmake' with ⟨_, hsame⟩ | ⟨s, hname, hregister⟩
      · rw [hsame]
        exact hnew.2 e he hschema
      · refine Bool.eq_false_iff.2 fun hthere => ?_
        obtain ⟨t, ht⟩ := Dict.exists_of_contains hthere
        rcases (Registry.register?_ok hregister).2 e.1 t ht with hold | ⟨heq, _⟩
        · exact Bool.eq_false_iff.1 (hnew.2 e he hschema) (Dict.contains_of_get? hold)
        · exact hn.1 (List.mem_map.2 ⟨e, he, heq.symm.trans hname⟩)
    obtain ⟨c₁', hadd', hembeds'⟩ := ih hn.2 (hc.define hmake hadded) hembeds hrest hadd
    exact ⟨c₁', ⟨(concept, made'), hmake', added', hadded', hadd'⟩, hembeds'⟩

/-- Concepts can only be added if no structure has the name of one that they bring. -/
theorem not_contains_of_addConcepts (hadd : addConcepts domain c es = .ok c₁) :
    ∀ e ∈ es, e.2.HasSchema → c.registry.contains e.1 = false := by
  induction es generalizing c with
  | nil => exact fun _ he => absurd he List.not_mem_nil
  | cons e es ih =>
    obtain ⟨code, d⟩ := e
    simp only [addConcepts, bind_eq_ok_iff] at hadd
    obtain ⟨⟨concept, made⟩, hmake, added, hadded, hadd⟩ := hadd
    refine List.forall_mem_cons.2 ⟨fun hschema => ?_, fun e he hschema => ?_⟩
    · rcases ConceptLibrary.make_registry hmake with ⟨hnone, _⟩ | ⟨s, rfl, hregister⟩
      · exact absurd hschema hnone
      · exact (Registry.keys_register? hregister).1
    · refine Bool.eq_false_iff.2 fun hthere => ?_
      obtain ⟨s, hs⟩ := Dict.exists_of_contains hthere
      have hstays := (define_others hmake hadded).1.get? hs
      exact Bool.eq_false_iff.1 (ih hadd e he hschema) (Dict.contains_of_get? hstays)

/-- Pipes of a domain are added alike to a larger library in which their codes are free, if they are
made alike. -/
theorem addPipes_of_within {ps : List (String × PipeBlueprint)} (hn : (ps.map Prod.fst).Nodup)
    (hadd : addPipes domain l ps = .ok l₁) (l' : Library) (hw : l.Within l')
    (hmake : ∀ code d p, l.concepts.makePipe domain code d = .ok p →
      l'.concepts.makePipe domain code d = .ok p)
    (hfree : ∀ e ∈ ps, l'.pipes.contains e.1 = false) :
    ∃ l₁', addPipes domain l' ps = .ok l₁' ∧ l₁.Within l₁' ∧
      ∀ e ∈ ps, l₁'.pipes.get? e.1 = l₁.pipes.get? e.1 := by
  have hok := exists_makePipe hn hadd
  have hok' : (addPipes domain l' ps).isOk = true := by
    refine (addPipes_isOk_iff hn).2 fun e he => ⟨hfree e he, ?_⟩
    obtain ⟨p, hp⟩ := hok e he
    exact isOk_of_eq_ok (hmake _ _ _ hp)
  obtain ⟨l₁', hadd'⟩ := exists_of_isOk hok'
  refine ⟨l₁', hadd', fun code p hp => ?_, fun e he => ?_⟩
  · rw [get?_addPipes_iff hadd] at hp
    rw [get?_addPipes_iff hadd']
    exact hp.imp (hw code p) fun ⟨d, hd, hmade⟩ => ⟨d, hd, hmake code d p hmade⟩
  · obtain ⟨p, hp⟩ := hok e he
    rw [(get?_addPipes_iff hadd).2 (.inr ⟨e.2, he, hp⟩),
      (get?_addPipes_iff hadd').2 (.inr ⟨e.2, he, hmake _ _ _ hp⟩)]

end Definitions

/-! ## Loads -/

/-- Every concept, structure and pipe of the first library is in the second. -/
structure Kept (l l' : Library) : Prop where
  concepts : l.concepts.Within l'.concepts
  pipes : l.Within l'

/-- Neither the domain of the bundle is loaded, nor is the code of one of its pipes taken. -/
structure Lacks (l : Library) (b : Bundle) : Prop where
  domain : l.domains.contains b.domain.code = false
  pipes : ∀ code, b.pipes.contains code = true → l.pipes.contains code = false

/-- A library has no concepts under the full names of a domain that is not loaded, unless it is the
native one. -/
theorem Reserves.get?_fullName (hl : l.Reserves) (hnew : l.domains.contains domain = false)
    (hnative : domain ≠ Concept.nativeDomain) (hdot : '.' ∉ code.toList) :
    l.concepts.get? (Concept.fullName domain code) = none := by
  cases h : l.concepts.get? (Concept.fullName domain code) with
  | none => rfl
  | some c =>
    have hname := hl.coherent.concepts.keyed _ c h
    have hplain : '.' ∉ c.code.toList := by
      rcases hl.concepts _ c h with ⟨n, rfl⟩ | hcode
      · exact n.code_plain.2.1
      · exact ConceptLibrary.dot_notMem_of_codeFault hcode
    obtain ⟨hdomain, _⟩ := Concept.eq_of_fullName hplain hdot hname
    rcases hl.coherent.conceptDomains _ c h with hloaded | ⟨n, rfl⟩
    · rw [hdomain, hnew] at hloaded
      cases hloaded
    · exact absurd hdomain.symm hnative

/-- The native concepts are what they are, in the library or not, and after concepts are added. -/
theorem native_of_addConcepts (hl : l.Reserves) {es : List (String × ConceptBlueprint)}
    (hadd : addConcepts domain l.concepts es = .ok c) (n : NativeConcept) :
    c.native n = n.concept := by
  have hcoherent := addConcepts_coherent hl.coherent.concepts hadd
  have hreserves := addConcepts_reserves hl.concepts hadd
  unfold ConceptLibrary.native
  cases h : c.get? n.concept.name with
  | none => rfl
  | some d => exact (hcoherent.eq_of_reserved hreserves h).1

/-- A bundle that can be loaded into a library can be loaded into a larger one that lacks it, if no
structure there has the name of one that the bundle brings. -/
theorem Kept.load (hl : l.Reserves) (hk : l.Keyed) (hl' : l'.Reserves) (h : l.Kept l')
    (hlacks : l'.Lacks b) (hnative : b.domain.code ≠ Concept.nativeDomain)
    (hnew : ∀ shape, b.Brings shape → l'.registry.contains shape = false)
    (hload : l.load b policy = .ok l₁) : ∃ l₁', l'.load b policy = .ok l₁' := by
  have hloaded := hl.load hload
  have hkeyed := hk.load hload
  obtain ⟨hdomain, ⟨concepts, hconcepts, hpipes⟩, hchecks, hmain⟩ := load_eq_ok_iff.1 hload
  obtain rfl := (addPipes_ok hpipes).1
  -- the concepts
  have hembeds : l.concepts.Embeds b.domain.code l'.concepts :=
    ⟨h.concepts, fun code hdot => by
      rw [hl.get?_fullName hdomain hnative hdot, hl'.get?_fullName hlacks.domain hnative hdot]⟩
  obtain ⟨concepts', hconcepts', hembeds⟩ := addConcepts_embeds b.concepts.nodup
    hl.coherent.concepts hembeds
    (fun e he hschema => hnew e.1 ⟨e.2, Dict.get?_of_mem_entries he, hschema⟩) hconcepts
  have hclosed : l₁.registry.Closed := hloaded.coherent.concepts.rooted.closed
  have hnatives : ∀ n, concepts'.native n = l₁.concepts.native n := fun n =>
    (native_of_addConcepts hl' hconcepts' n).trans (native_of_addConcepts hl hconcepts n).symm
  -- the pipes
  obtain ⟨l₁', hpipes', hwithin, hsame⟩ := addPipes_of_within b.pipes.nodup hpipes
    ⟨l'.domains.insert b.domain.code b.domain, concepts', l'.pipes⟩ h.pipes
    (fun code d p hp => hembeds.makePipe hclosed hnatives hp)
    (fun e he => hlacks.pipes e.1 (Dict.contains_of_get? (Dict.get?_of_mem_entries he)))
  have hpipesOf : l₁'.pipesOf b = l₁.pipesOf b := by
    refine List.filterMap_congr fun code hcode => ?_
    obtain ⟨e, he, rfl⟩ := List.mem_map.1 hcode
    exact hsame e he
  -- the checks
  have hconcepts₁ := (addPipes_ok hpipes').1
  have hunderlies : l₁.Underlies l₁' := {
    keyed := hkeyed
    closed := hclosed
    registry := by
      rw [registry, registry, hconcepts₁]
      exact hembeds.within.registry
    pipes := hwithin
    native := by
      rw [hconcepts₁]
      exact hnatives }
  refine ⟨l₁', load_eq_ok_iff.2 ⟨hlacks.domain, ⟨concepts', hconcepts', hpipes'⟩, fun p hp => ?_,
    hunderlies.checkMain hmain⟩⟩
  rw [hpipesOf] at hp
  obtain ⟨hsub, houtcomes, hsignature⟩ := hchecks p hp
  have hregistered : l₁.Registered p := by
    obtain ⟨code, _, hp⟩ := List.mem_filterMap.1 hp
    exact hkeyed.registered hp
  exact ⟨hunderlies.checkSubPipes hsub, hunderlies.checkOutcomes houtcomes,
    hunderlies.checkSignature hregistered hsignature⟩

/-- A bundle that is loaded brings no structure of a name that was taken. -/
theorem not_contains_of_load (hload : l.load b policy = .ok l₁) {shape : String}
    (hshape : b.Brings shape) : l.registry.contains shape = false := by
  obtain ⟨_, ⟨concepts, hconcepts, _⟩, _⟩ := load_eq_ok_iff.1 hload
  obtain ⟨d, hd, hschema⟩ := hshape
  exact not_contains_of_addConcepts hconcepts (shape, d) (Dict.mem_entries_of_get? hd) hschema

/-- A bundle that can be loaded into a library can be loaded into a larger one that lacks it exactly
if no structure there has the name of one that the bundle brings. -/
theorem Kept.load_isOk_iff (hl : l.Reserves) (hk : l.Keyed) (hl' : l'.Reserves) (h : l.Kept l')
    (hlacks : l'.Lacks b) (hnative : b.domain.code ≠ Concept.nativeDomain)
    (hload : (l.load b policy).isOk = true) : (l'.load b policy).isOk = true ↔
      ∀ shape, b.Brings shape → l'.registry.contains shape = false := by
  obtain ⟨l₁, hload⟩ := exists_of_isOk hload
  constructor
  · intro hok shape hshape
    obtain ⟨l₁', hload'⟩ := exists_of_isOk hok
    exact not_contains_of_load hload' hshape
  · intro hnew
    obtain ⟨l₁', hload'⟩ := Kept.load hl hk hl' h hlacks hnative hnew hload
    exact isOk_of_eq_ok hload'

end Library

end Conduit
