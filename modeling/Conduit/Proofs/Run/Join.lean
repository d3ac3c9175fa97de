import Conduit.Proofs.Except
import Conduit.Run.Join
import Mathlib.Data.List.ProdSigma
import Mathlib.Data.List.Sigma
import Mathlib.Data.Set.List

/-!
# Branches side by side

The results of branches that run side by side do not depend on the order in which the branches end.
Each result that arrives fills the slot of its branch and no other (`Join.Filled`), so once all have
arrived the slots hold them in the order of the branches, and no branch is lost. Where branches
fail, the first of them to end decides (`Join.FirstFailure`). `Join.collect_eq_ok_iff` and
`Join.collect_eq_error_iff` say so of results in any order, and `Run.join_eq_ok_iff` and
`Run.join_eq_error_iff` of the branches of a pipe.
-/

namespace Conduit

namespace Join

variable {α ε : Type} {slots filled : List (Option α)}
  {done : List (Nat × Except ε α)} {outcomes : List (Except ε α)} {outputs : List α} {e : ε}

/-! ## Failures -/

/-- The first failure to arrive is `e`: all that arrives before it has succeeded. -/
def FirstFailure (done : List (Nat × Except ε α)) (e : ε) : Prop :=
  ∃ before i after, done = before ++ (i, .error e) :: after ∧ ∀ d ∈ before, ∃ a, d.2 = .ok a

theorem FirstFailure.cons {d : Nat × Except ε α} (h : FirstFailure done e)
    (hd : ∃ a, d.2 = .ok a) : FirstFailure (d :: done) e := by
  obtain ⟨before, i, after, rfl, hbefore⟩ := h
  exact ⟨d :: before, i, after, rfl, List.forall_mem_cons.2 ⟨hd, hbefore⟩⟩

/-- Either all that arrives has succeeded, or there is a first failure. -/
theorem forall_ok_or_firstFailure (done : List (Nat × Except ε α)) :
    (∀ d ∈ done, ∃ a, d.2 = .ok a) ∨ ∃ e, FirstFailure done e := by
  induction done with
  | nil => exact .inl nofun
  | cons d done ih =>
    obtain ⟨i, e | a⟩ := d
    · exact .inr ⟨e, [], i, done, rfl, nofun⟩
    · rcases ih with hall | ⟨e, he⟩
      · exact .inl (List.forall_mem_cons.2 ⟨⟨a, rfl⟩, hall⟩)
      · exact .inr ⟨e, he.cons ⟨a, rfl⟩⟩

/-- The first failure ends the filling of slots. -/
theorem fill_of_firstFailure (h : FirstFailure done e) : fill slots done = .error e := by
  obtain ⟨before, i, after, rfl, hbefore⟩ := h
  induction before generalizing slots with
  | nil => rfl
  | cons d before ih =>
    obtain ⟨j, r⟩ := d
    rw [List.forall_mem_cons] at hbefore
    obtain ⟨⟨a, rfl⟩, hrest⟩ := hbefore
    exact ih hrest

/-- The first failure decides. -/
theorem collect_of_firstFailure {lost : Nat → ε} {count : Nat} (h : FirstFailure done e) :
    collect lost count done = .error e := by
  rw [collect, fill_of_firstFailure h]
  rfl

/-! ## Slots -/

/-- The slots are filled with the results that have arrived, and the others are as they were. -/
structure Filled (slots : List (Option α)) (done : List (Nat × Except ε α))
    (filled : List (Option α)) : Prop where
  length : filled.length = slots.length
  arrived : ∀ i a, (i, .ok a) ∈ done → i < slots.length → filled[i]? = some (some a)
  untouched : ∀ i, i ∉ done.map Prod.fst → filled[i]? = slots[i]?

/-- One more result fills one more slot, if the slot is not filled again later. -/
theorem Filled.cons {i : Nat} {a : α} (h : Filled (slots.set i (some a)) done filled)
    (hi : i ∉ done.map Prod.fst) : Filled slots ((i, .ok a) :: done) filled where
  length := by rw [h.length, List.length_set]
  arrived j b hmem hj := by
    rcases List.mem_cons.1 hmem with heq | hmem
    · cases heq
      rw [h.untouched _ hi, List.getElem?_set_self hj]
    · exact h.arrived j b hmem (by rwa [List.length_set])
  untouched j hj := by
    rw [List.map_cons, List.mem_cons, not_or] at hj
    rw [h.untouched j hj.2, List.getElem?_set_ne (Ne.symm hj.1)]

/-- Results of different branches fill the slots of these branches. -/
theorem exists_filled (slots : List (Option α)) (hok : ∀ d ∈ done, ∃ a, d.2 = .ok a)
    (hnodup : (done.map Prod.fst).Nodup) :
    ∃ filled, fill slots done = .ok filled ∧ Filled slots done filled := by
  induction done generalizing slots with
  | nil => exact ⟨slots, rfl, rfl, nofun, fun _ _ => rfl⟩
  | cons d done ih =>
    obtain ⟨i, r⟩ := d
    rw [List.forall_mem_cons] at hok
    obtain ⟨⟨a, rfl⟩, hrest⟩ := hok
    rw [List.map_cons, List.nodup_cons] at hnodup
    obtain ⟨filled, hfill, hfilled⟩ := ih (slots.set i (some a)) hrest hnodup.2
    exact ⟨filled, hfill, hfilled.cons hnodup.1⟩

/-- Slots of which each holds a result give their results. -/
theorem mapM_zipIdx_some (lost : Nat → ε) (outputs : List α) (start : Nat) :
    ((outputs.map some).zipIdx start).mapM
      (fun (slot, i) => slot.elim (.error (lost i)) .ok : _ → Except ε α) = .ok outputs := by
  induction outputs generalizing start with
  | nil => rfl
  | cons a outputs ih =>
    rw [List.map_cons, List.zipIdx_cons, List.mapM_cons, ih]
    rfl

/-! ## Results in any order -/

section

variable (hperm : done.Perm (outcomes.zipIdx.map Prod.swap))
include hperm

theorem mem_done_iff {i : Nat} {r : Except ε α} : (i, r) ∈ done ↔ outcomes[i]? = some r := by
  rw [hperm.mem_iff, List.mem_map_swap, List.mem_zipIdx_iff_getElem?]

theorem nodup_done : (done.map Prod.fst).Nodup := by
  have hindices := hperm.map Prod.fst
  rw [List.map_map] at hindices
  exact hindices.nodup_iff.2 (List.nodup_zipIdx_map_snd outcomes)

/-- Results that have all arrived, and that all are successes, are given in the order of the
branches, and no branch is lost. -/
theorem collect_of_ok (lost : Nat → ε) (h : outcomes = outputs.map .ok) :
    collect lost outcomes.length done = .ok outputs := by
  subst h
  have hok : ∀ d ∈ done, ∃ a, d.2 = .ok a := by
    intro ⟨i, r⟩ hmem
    obtain ⟨a, _, rfl⟩ := List.mem_map.1 (List.mem_of_getElem? ((mem_done_iff hperm).1 hmem))
    exact ⟨a, rfl⟩
  obtain ⟨filled, hfill, hfilled⟩ :=
    exists_filled (List.replicate outputs.length none) hok (nodup_done hperm)
  have hslots : filled = outputs.map some := by
    refine List.ext_getElem? fun i => ?_
    by_cases hi : i < outputs.length
    · have hmem : (i, .ok outputs[i]) ∈ done := by
        rw [mem_done_iff hperm, List.getElem?_map, List.getElem?_eq_getElem hi]
        rfl
      rw [hfilled.arrived i _ hmem (by simpa using hi), List.getElem?_map,
        List.getElem?_eq_getElem hi]
      rfl
    · have hlength := hfilled.length
      rw [List.length_replicate] at hlength
      rw [List.getElem?_eq_none (by omega), List.getElem?_eq_none (by simpa using hi)]
  simp only [collect, List.length_map, hfill, ok_bind, hslots]
  exact mapM_zipIdx_some lost outputs 0

/-- The result is that of all branches if each has succeeded, and otherwise that of the first to
fail. -/
theorem collect_cases (lost : Nat → ε) :
    (∃ outputs, outcomes = outputs.map .ok ∧ collect lost outcomes.length done = .ok outputs) ∨
      ∃ e, FirstFailure done e ∧ collect lost outcomes.length done = .error e := by
  rcases forall_ok_or_firstFailure done with hok | ⟨e, he⟩
  · have hrange : outcomes ∈ Set.range (List.map (Except.ok : α → Except ε α)) := by
      rw [Set.range_list_map]
      intro r hr
      obtain ⟨i, hi⟩ := List.getElem?_of_mem hr
      obtain ⟨a, ha⟩ := hok _ ((mem_done_iff hperm).2 hi)
      exact ⟨a, ha.symm⟩
    obtain ⟨outputs, houtputs⟩ := hrange
    exact .inl ⟨outputs, houtputs.symm, collect_of_ok hperm lost houtputs.symm⟩
  · exact .inr ⟨e, he, collect_of_firstFailure he⟩

/-- Branches give results in their own order exactly if each has succeeded with its result. -/
theorem collect_eq_ok_iff (lost : Nat → ε) :
    collect lost outcomes.length done = .ok outputs ↔ outcomes = outputs.map .ok := by
  refine ⟨fun h => ?_, collect_of_ok hperm lost⟩
  rcases collect_cases hperm lost with ⟨outputs', hall, h'⟩ | ⟨e, _, h'⟩
  · rw [h] at h'
    cases h'
    exact hall
  · rw [h] at h'
    cases h'

/-- No branch is lost: the error for one makes no difference. -/
theorem collect_congr_lost (lost lost' : Nat → ε) :
    collect lost outcomes.length done = collect lost' outcomes.length done := by
  rcases collect_cases hperm lost with ⟨outputs, hall, h⟩ | ⟨e, he, h⟩
  · rw [h, collect_of_ok hperm lost' hall]
  · rw [h, collect_of_firstFailure he]

/-- Branches fail exactly as the first of them that fails. -/
theorem collect_eq_error_iff (lost : Nat → ε) :
    collect lost outcomes.length done = .error e ↔ FirstFailure done e := by
  refine ⟨fun h => ?_, collect_of_firstFailure⟩
  rcases collect_cases hperm lost with ⟨outputs, _, h'⟩ | ⟨e', he', h'⟩
  · rw [h] at h'
    cases h'
  · rw [h] at h'
    cases h'
    exact he'

end

end Join

namespace Run

variable {s : Schedule} {pipe : String} {branches : List (Run Memory)} {memories : List Memory}
  {err : RunError}

/-- The ends of branches in the order of a schedule are those of the branches. -/
theorem order_perm (s : Schedule) (branches : List (Run Memory)) :
    ((s.order branches.zipIdx).map fun (r, i) => (i, r.result)).Perm
      ((branches.map result).zipIdx.map Prod.swap) := by
  have h := (s.perm branches.zipIdx).map fun (r, i) => (i, r.result)
  rwa [List.zipIdx_map, List.map_map]

/-- Branches that run side by side give their results in their own order exactly if each
succeeds. -/
theorem join_eq_ok_iff : (join s pipe branches).result = .ok memories ↔
    branches.map result = memories.map .ok := by
  have h : Join.collect _ (branches.map result).length _ = .ok memories ↔ _ :=
    Join.collect_eq_ok_iff (order_perm s branches) fun i => { cause := .branchLost pipe i }
  rwa [List.length_map] at h

/-- Branches that run side by side fail exactly as the first of them to end that fails. -/
theorem join_eq_error_iff : (join s pipe branches).result = .error err ↔
    ∃ before r i after, s.order branches.zipIdx = before ++ (r, i) :: after ∧
      r.result = .error err ∧ ∀ b ∈ before, ∃ m, b.1.result = .ok m := by
  have h : Join.collect _ (branches.map result).length _ = .error err ↔ _ :=
    Join.collect_eq_error_iff (order_perm s branches) fun i => { cause := .branchLost pipe i }
  rw [List.length_map] at h
  refine h.trans ⟨?_, ?_⟩
  · rintro ⟨before, i, after, hdone, hbefore⟩
    obtain ⟨before, rest, hsplit, rfl, hrest⟩ := List.map_eq_append_iff.1 hdone
    obtain ⟨⟨r, j⟩, after, rfl, hr, rfl⟩ := List.map_eq_cons_iff.1 hrest
    refine ⟨before, r, j, after, hsplit, congrArg Prod.snd hr, fun b hb => ?_⟩
    exact hbefore _ (List.mem_map_of_mem hb)
  · rintro ⟨before, r, i, after, hsplit, hr, hbefore⟩
    refine ⟨before.map fun (r, i) => (i, r.result), i,
      after.map fun (r, i) => (i, r.result), ?_, ?_⟩
    · rw [hsplit, List.map_append, List.map_cons, ← hr]
    · intro d hd
      obtain ⟨b, hb, rfl⟩ := List.mem_map.1 hd
      exact hbefore b hb

/-- Branches that all succeed give their results in their order. -/
theorem forall₂_of_join (h : (join s pipe branches).result = .ok memories) :
    List.Forall₂ (fun r m => r.result = .ok m) branches memories := by
  have hall : List.Forall₂ Eq (branches.map result) (memories.map .ok) := by
    rw [join_eq_ok_iff.1 h]
    exact List.forall₂_refl _
  rwa [List.forall₂_map_left_iff, List.forall₂_map_right_iff] at hall

/-- Branches fail together as one of them fails. -/
theorem exists_of_join_error (h : (join s pipe branches).result = .error err) :
    ∃ r ∈ branches, r.result = .error err := by
  obtain ⟨before, r, i, after, hsplit, hr, _⟩ := join_eq_error_iff.1 h
  have hmem : (r, i) ∈ s.order branches.zipIdx := hsplit ▸ by simp
  exact ⟨r, List.fst_mem_of_mem_zipIdx ((s.perm _).mem_iff.1 hmem), hr⟩

/-- There is a schedule for each order in which branches can end. -/
theorem exists_schedule {done : List (Run Memory × Nat)} (hperm : done.Perm branches.zipIdx) :
    ∃ s : Schedule, s.order branches.zipIdx = done := by
  classical
  refine ⟨⟨fun ends => if ends = branches.zipIdx then done else ends, fun ends => ?_⟩, if_pos rfl⟩
  split
  · next h => exact h ▸ hperm
  · exact .refl _

/-- Branches may end in any order. Whatever it is, they give their results, all of them and in the
order of the branches, exactly if every branch succeeds, and otherwise fail as the failing branch
that ends first. No branch is lost: the error that would say so makes no difference. -/
theorem join_any_order {done : List (Run Memory × Nat)} (hperm : done.Perm branches.zipIdx)
    (pipe : String) :
    (∃ s : Schedule, s.order branches.zipIdx = done) ∧
      ∀ s : Schedule, s.order branches.zipIdx = done →
        (∀ memories, (join s pipe branches).result = .ok memories ↔
          branches.map result = memories.map .ok) ∧
        (∀ err, (join s pipe branches).result = .error err ↔
          ∃ before r i after, done = before ++ (r, i) :: after ∧ branches[i]? = some r ∧
            r.result = .error err ∧ ∀ b ∈ before, ∃ m, b.1.result = .ok m) ∧
        ∀ lost, Join.collect lost branches.length (done.map fun (r, i) => (i, r.result)) =
          (join s pipe branches).result := by
  refine ⟨exists_schedule hperm, ?_⟩
  rintro s rfl
  refine ⟨fun memories => join_eq_ok_iff, fun err => ?_, fun lost => ?_⟩
  · rw [join_eq_error_iff]
    refine exists_congr fun before => exists_congr fun r => exists_congr fun i =>
      exists_congr fun after => and_congr_right fun hsplit => ?_
    have hmem : (r, i) ∈ s.order branches.zipIdx := hsplit ▸ by simp
    have hbranch := List.mem_zipIdx_iff_getElem?.1 ((s.perm _).mem_iff.1 hmem)
    exact ⟨fun h => ⟨hbranch, h⟩, fun h => h.2⟩
  · have h := Join.collect_congr_lost (order_perm s branches) lost fun i =>
      { cause := .branchLost pipe i }
    rwa [List.length_map] at h

/-- Branches that end from the last to the first: the memories of two that succeed come in the order
of the branches, and of two that fail the last decides. -/
theorem join_reversed :
    (∃ s : Schedule,
      (join s "pair" [pure .empty, pure ⟨.empty, Dict.empty.insert "a" "b"⟩]).result =
        .ok [.empty, ⟨.empty, Dict.empty.insert "a" "b"⟩]) ∧
      ∃ s : Schedule, (join s "pair" [fail (.timeout "pair" 1), fail (.timeout "pair" 2)]).result =
        .error { cause := .timeout "pair" 2 } := by
  constructor
  · obtain ⟨⟨s, hs⟩, hjoin⟩ := join_any_order (List.reverse_perm
      (List.zipIdx [pure .empty, pure ⟨.empty, Dict.empty.insert "a" "b"⟩])) "pair"
    exact ⟨s, ((hjoin s hs).1 _).2 rfl⟩
  · obtain ⟨⟨s, hs⟩, hjoin⟩ := join_any_order (List.reverse_perm
      (List.zipIdx [fail (.timeout "pair" 1), fail (.timeout "pair" 2)])) "pair"
    refine ⟨s, ((hjoin s hs).2.1 _).2 ⟨[], fail (.timeout "pair" 2), 1, ?_⟩⟩
    exact ⟨[(fail (.timeout "pair" 1), 0)], rfl, rfl, rfl, List.forall_mem_nil _⟩

end Run

end Conduit
