import Conduit.Proofs.Structure.Nesting

/-!
# Histories of a registry

A structure is accepted if what it refers to is registered, so that structures would be nested in
older ones only. But structures can be removed while others still refer to them (`Registry.Refers`),
and a structure that is then defined under the same name may refer to those: a loop is closed
(`Registry.Closes`), and work on the structures need not end any more. By
`Registry.after_acyclic_iff` this is all that goes wrong, whatever is defined and removed, and in
what order.

A structure whose parent is missing has fewer fields than before, and gets those of the structure
that is defined in its parent's place. So it is not only the new structure that may be nested in
itself, but also one that extends it.
-/

namespace Conduit.Registry

open Placeholder (Calls)
open Relation (ReflTransGen TransGen)

variable {r r' : Registry} {name source inner outer target : String} {s : Structure}

/-! ## Changes -/

/-- A structure is compiled and registered, or one is removed. -/
inductive Change where
  | define (name source : String)
  | drop (name : String)

/-- The registry with the structure of a source. -/
def define? (r : Registry) (name source : String) : Option Registry :=
  (r.compile name source).toOption.bind r.register?

/-- A registry after a change; a definition that fails leaves it as it is. -/
def change (r : Registry) : Change → Registry
  | .define name source => (r.define? name source).getD r
  | .drop name => r.remove name

/-- The registry after some changes, one after another. -/
def after (changes : List Change) : Registry :=
  changes.foldl change initial

theorem after_concat (changes : List Change) (c : Change) :
    after (changes ++ [c]) = (after changes).change c :=
  List.foldl_concat ..

theorem define?_eq_some_iff : r.define? name source = some r' ↔
    ∃ s, r.compile name source = .ok s ∧ s.name = name ∧ r.register? s = some r' := by
  unfold define?
  constructor
  · intro h
    obtain ⟨s, hs, hregister⟩ := Option.bind_eq_some_iff.1 h
    have hcompile := eq_ok_of_toOption hs
    exact ⟨s, hcompile, compile_name hcompile, hregister⟩
  · rintro ⟨s, hcompile, _, hregister⟩
    rw [hcompile]
    exact hregister

/-! ## References -/

/-- A structure refers to its parent and to what its own fields mention. -/
def Refers (r : Registry) (name target : String) : Prop :=
  ∃ s, r.get? name = some s ∧
    (s.parent = some target ∨ ∃ f ∈ s.fields.values, target ∈ f.type.mentions)

/-- With the structure of a source, that structure, or one that extends it, gets records of its own
nested in its records. -/
def Closes (r : Registry) (name source : String) : Prop :=
  ∃ r', r.define? name source = some r' ∧
    ∃ heir, name ∈ r'.ancestry heir ∧ TransGen (Calls r') heir heir

/-- An ancestor of a structure is that structure or the parent of some structure. -/
theorem exists_parent_of_mem_ancestryFrom {n : Nat} {seen : List String} :
    ∀ y ∈ r.ancestryFrom n seen name, y = name ∨ ∃ x, r.parent? x = some y :=
  forall_mem_ancestryFrom (.inl rfl) fun x _ _ hdeclared => .inr ⟨x, hdeclared⟩

/-- A structure that is nested in another one is mentioned by a field that some structure declares
itself. -/
theorem exists_refers_of_calls (h : Calls r inner outer) : ∃ x, r.Refers x inner := by
  obtain ⟨f, hf, hinner⟩ := h
  obtain ⟨key, hf⟩ := Dict.exists_get?_of_mem_values hf
  obtain ⟨x, _, s, hs, hkey⟩ := exists_of_get?_fieldsOf hf
  exact ⟨x, s, hs, .inr ⟨f, Dict.mem_values_of_get? hkey, hinner⟩⟩

/-- A structure that is compiled refers to structures that are registered. -/
theorem contains_of_compile (hroot : r.contains Structure.root = true)
    (hcompile : r.compile name source = .ok s)
    (h : s.parent = some target ∨ ∃ f ∈ s.fields.values, target ∈ f.type.mentions) :
    r.contains target = true := by
  rcases h with hparent | ⟨f, hf, htarget⟩
  · exact compile_parent hroot hcompile target hparent
  · exact ((checkField_eq_ok_iff.1 ((compile_checked hcompile).2 f hf)).1 target htarget).2

/-- Who refers to a structure after a definition did so before, or the structure was registered. -/
theorem Refers.of_define (hroot : r.contains Structure.root = true)
    (hdefine : r.define? name source = some r') (h : r'.Refers inner target) :
    r.Refers inner target ∨ r.contains target = true := by
  obtain ⟨s, hcompile, rfl, hregister⟩ := define?_eq_some_iff.1 hdefine
  obtain ⟨t, ht, htarget⟩ := h
  rcases (register?_ok hregister).2 inner t ht with hold | ⟨_, rfl⟩
  · exact .inl ⟨t, hold, htarget⟩
  · exact .inr (contains_of_compile hroot hcompile htarget)

/-! ## Loops -/

/-- What is nested in a structure is so in a larger registry. -/
theorem calls_within (hw : r.Within r') (h : Calls r inner outer) : Calls r' inner outer := by
  obtain ⟨f, hf, hinner⟩ := h
  obtain ⟨key, hf⟩ := Dict.exists_get?_of_mem_values hf
  exact ⟨f, Dict.mem_values_of_get? (get?_allFields_within hw hf), hinner⟩

/-- A registry is acyclic if a larger one is. -/
theorem Acyclic.of_within (h : r'.Acyclic) (hw : r.Within r') : r.Acyclic :=
  fun name hcycle => h name (TransGen.mono (fun _ _ => calls_within hw) name name hcycle)

/-- What is nested in a structure after a definition was so before, or the structure is the new one
or extends it. -/
theorem calls_of_define (hdefine : r.define? name source = some r') (h : Calls r' inner outer) :
    Calls r inner outer ∨ name ∈ r'.ancestry outer := by
  obtain ⟨s, _, rfl, hregister⟩ := define?_eq_some_iff.1 hdefine
  by_cases hmem : s.name ∈ r'.ancestry outer
  · exact .inr hmem
  have hget : ∀ y ∈ r'.ancestry outer, r.get? y = r'.get? y := by
    intro y hy
    cases hs : r'.get? y with
    | some t =>
      rcases (register?_ok hregister).2 y t hs with hold | ⟨rfl, _⟩
      · exact hold
      · exact absurd hy hmem
    | none =>
      cases hold : r.get? y with
      | none => rfl
      | some t => exact ((register?_ok hregister).1 y t hold).symm.trans hs
  left
  unfold Calls at h ⊢
  rwa [allFields_congr hget]

/-- A path stays among the steps of a relation, or comes to the end of one that is none of them. -/
theorem transGen_or_exists {α : Type} {R S : α → α → Prop} {P : α → Prop} {a b : α}
    (h : ∀ x y, S x y → R x y ∨ P y) (hpath : TransGen S a b) :
    TransGen R a b ∨ ∃ y, P y ∧ TransGen S a y ∧ ReflTransGen S y b := by
  induction hpath with
  | @single b hstep =>
    rcases h a b hstep with hold | hend
    · exact .inl (.single hold)
    · exact .inr ⟨b, hend, .single hstep, .refl⟩
  | @tail b c hpath hstep ih =>
    rcases ih with hold | ⟨y, hend, hto, hfrom⟩
    · rcases h b c hstep with hlast | hend
      · exact .inl (hold.tail hlast)
      · exact .inr ⟨c, hend, hpath.tail hstep, .refl⟩
    · exact .inr ⟨y, hend, hto, hfrom.tail hstep⟩

/-- A definition keeps a registry acyclic if and only if it closes no loop. -/
theorem acyclic_define_iff (hdefine : r.define? name source = some r') :
    r'.Acyclic ↔ r.Acyclic ∧ ¬ r.Closes name source := by
  obtain ⟨s, _, _, hregister⟩ := define?_eq_some_iff.1 hdefine
  constructor
  · intro h
    refine ⟨h.of_within (register?_ok hregister).1, ?_⟩
    rintro ⟨r'', hdefine', heir, _, hcycle⟩
    obtain rfl : r'' = r' := Option.some.inj (hdefine'.symm.trans hdefine)
    exact h heir hcycle
  · rintro ⟨h, hcloses⟩ x hcycle
    -- a loop that was not there goes through the new structure or one that extends it
    rcases transGen_or_exists (P := fun y => name ∈ r'.ancestry y)
      (fun _ _ => calls_of_define hdefine) hcycle with hold | ⟨heir, hheir, hto, hfrom⟩
    · exact h x hold
    · exact hcloses ⟨r', hdefine, heir, hheir, .trans_right hfrom hto⟩

/-- A loop is closed by defining a structure to which another one still refers, while none is
registered under its name. -/
theorem Closes.refers (hroot : r.contains Structure.root = true) (h : r.Closes name source) :
    r.contains name = false ∧ ∃ x, r.Refers x name := by
  obtain ⟨r', hdefine, heir, hheir, hcycle⟩ := h
  obtain ⟨s, _, rfl, hregister⟩ := define?_eq_some_iff.1 hdefine
  have hnew := (keys_register? hregister).1
  refine ⟨hnew, ?_⟩
  have hbefore : ∀ x, r'.Refers x s.name → ∃ x, r.Refers x s.name := by
    intro x hx
    rcases hx.of_define hroot hdefine with hold | hcontains
    · exact ⟨x, hold⟩
    · rw [hnew] at hcontains
      cases hcontains
  rcases exists_parent_of_mem_ancestryFrom _ hheir with hself | ⟨x, hparent⟩
  · -- the new structure is nested in some structure
    rw [← hself] at hcycle
    obtain ⟨_, hcalls, _⟩ := TransGen.head'_iff.1 hcycle
    obtain ⟨x, hx⟩ := exists_refers_of_calls hcalls
    exact hbefore x hx
  · obtain ⟨t, ht, hparent⟩ := Option.bind_eq_some_iff.1 hparent
    exact hbefore x ⟨t, ht, .inl hparent⟩

/-! ## What a history keeps -/

theorem remove_within (r : Registry) (name : String) : (r.remove name).Within r :=
  fun _ _ hs => (remove_part r name).get? hs

/-- The root of content is never removed. -/
theorem after_root (changes : List Change) :
    (after changes).isNative Structure.root = true := by
  induction changes using List.reverseRecOn with
  | nil => decide
  | append_singleton changes c ih =>
    rw [after_concat]
    cases c with
    | drop name => exact ((remove_part _ name).isNative_eq _).trans ih
    | define name source =>
      rw [change]
      cases hdefine : (after changes).define? name source with
      | none => exact ih
      | some r' =>
        obtain ⟨s, _, _, hregister⟩ := define?_eq_some_iff.1 hdefine
        obtain ⟨root, hroot, hnative⟩ := Option.any_eq_true _ _ |>.1 ih
        exact Option.any_eq_true _ _ |>.2
          ⟨root, (register?_ok hregister).1 _ _ hroot, hnative⟩

theorem after_contains_root (changes : List Change) :
    (after changes).contains Structure.root = true := by
  obtain ⟨root, hroot, _⟩ := Option.any_eq_true _ _ |>.1 (after_root changes)
  exact Dict.contains_of_get? hroot

/-- A structure to which another one refers is registered, or it was removed at some time. -/
theorem known_or_dropped {changes : List Change} (h : (after changes).Refers name target) :
    (after changes).contains target = true ∨ .drop target ∈ changes := by
  induction changes using List.reverseRecOn generalizing name target with
  | nil =>
    obtain ⟨s, hs, hparent | ⟨f, hf, htarget⟩⟩ := h
    · exact .inl (initial_sound.closed name target (Option.bind_eq_some_iff.2 ⟨s, hs, hparent⟩))
    · exact .inl ((initial_grounded.field name s hs f hf).mentions target htarget).1
  | append_singleton changes c ih =>
    rw [after_concat] at h ⊢
    rw [List.mem_append, List.mem_singleton]
    cases c with
    | drop dropped =>
      obtain ⟨s, hs, htarget⟩ := h
      rcases ih ⟨s, remove_within _ dropped name s hs, htarget⟩ with hknown | hdropped
      · by_cases heq : dropped = target
        · exact .inr (.inr (congrArg _ heq.symm))
        · obtain ⟨t, ht⟩ := Dict.exists_of_contains hknown
          have hkept : ((after changes).remove dropped).get? target = some t := by
            rw [get?_remove, if_neg fun hboth => heq hboth.1]
            exact ht
          exact .inl (Dict.contains_of_get? hkept)
      · exact .inr (.inl hdropped)
    | define defined source =>
      rw [change] at h ⊢
      cases hdefine : (after changes).define? defined source with
      | none =>
        rw [hdefine] at h
        exact (ih h).imp_right .inl
      | some r' =>
        rw [hdefine] at h
        obtain ⟨s, _, _, hregister⟩ := define?_eq_some_iff.1 hdefine
        rcases h.of_define (after_contains_root changes) hdefine with hold | hknown
        · exact (ih hold).imp (register?_ok hregister).1.contains .inl
        · exact .inl ((register?_ok hregister).1.contains hknown)

/-- A change keeps a registry acyclic if and only if it is no definition that closes a loop. -/
theorem Acyclic.change_iff (h : r.Acyclic) (c : Change) :
    (r.change c).Acyclic ↔ ∀ name source, c = .define name source → ¬ r.Closes name source := by
  cases c with
  | drop name => exact ⟨fun _ => nofun, fun _ => h.of_within (remove_within r name)⟩
  | define name source =>
    have hsame : (∀ name' source', Change.define name source = .define name' source' →
        ¬ r.Closes name' source') ↔ ¬ r.Closes name source := by
      simp
    rw [hsame, change]
    cases hdefine : r.define? name source with
    | none =>
      refine ⟨fun _ hcloses => ?_, fun _ => h⟩
      obtain ⟨_, hdefine', _⟩ := hcloses
      rw [hdefine] at hdefine'
      cases hdefine'
    | some r' => exact (acyclic_define_iff hdefine).trans (and_iff_right h)

/-- A registry stays acyclic along a history if and only if no definition on the way closes a loop.
-/
theorem acyclic_along_iff (changes : List Change) :
    (∀ before, before <+: changes → (after before).Acyclic) ↔
      ∀ before name source, before ++ [.define name source] <+: changes →
        ¬ (after before).Closes name source := by
  induction changes using List.reverseRecOn with
  | nil =>
    simp only [List.prefix_nil, forall_eq, List.append_eq_nil_iff, List.cons_ne_self, and_false]
    exact ⟨fun _ _ _ _ => nofun, fun _ => initial_grounded.acyclic⟩
  | append_singleton changes c ih =>
    have hlonger : ∀ {before}, before <+: changes → before <+: changes ++ [c] :=
      fun h => h.trans (List.prefix_append ..)
    constructor
    · intro hall before name source hprefix
      rcases List.prefix_concat_iff.1 hprefix with heq | hprefix
      · obtain ⟨rfl, hc⟩ := List.append_inj' heq rfl
        have hlast := hall _ (List.prefix_refl _)
        rw [after_concat] at hlast
        exact ((hall before (List.prefix_append ..)).change_iff c).1 hlast name source
          (List.singleton_inj.1 hc).symm
      · exact ih.1 (fun b hb => hall b (hlonger hb)) before name source hprefix
    · intro hnone before hprefix
      have hall := ih.2 fun b name source hb => hnone b name source (hlonger hb)
      rcases List.prefix_concat_iff.1 hprefix with rfl | hprefix
      · rw [after_concat]
        refine ((hall changes (List.prefix_refl _)).change_iff c).2 fun name source hc => ?_
        exact hnone changes name source (hc ▸ List.prefix_refl _)
      · exact hall before hprefix

/-- Structures are not nested in themselves, all along a history, if and only if no definition on
the way closes a loop. A definition that does so is that of a structure that was removed and to
which another one still refers. Where no structure is nested in itself, all work on the structures
ends. -/
theorem after_acyclic_iff (changes : List Change) :
    ((∀ before, before <+: changes → (after before).Acyclic) ↔
      ∀ before name source, before ++ [.define name source] <+: changes →
        ¬ (after before).Closes name source) ∧
    (∀ name source, (after changes).Closes name source →
      .drop name ∈ changes ∧ (after changes).contains name = false ∧
        ∃ x, (after changes).Refers x name) ∧
    ((after changes).Acyclic → (after changes).Ends) := by
  refine ⟨acyclic_along_iff changes, fun name source hcloses => ?_, Acyclic.ends⟩
  obtain ⟨hnew, x, hx⟩ := hcloses.refers (after_contains_root changes)
  refine ⟨?_, hnew, x, hx⟩
  rcases known_or_dropped hx with hknown | hdropped
  · rw [hnew] at hknown
    cases hknown
  · exact hdropped

/-! ## Loops that are closed -/

/-- A branch may have a leaf; then leaves are defined anew, and a leaf may have a branch. -/
def regrowth : List Change :=
  [.define "Leaf" "structure Leaf extends StructuredContent \x7b color: text \x7d",
    .define "Branch" "structure Branch extends StructuredContent \x7b leaf?: Leaf \x7d",
    .drop "Leaf",
    .define "Leaf" "structure Leaf extends StructuredContent \x7b branch?: Branch \x7d"]

/-- Yarn is a thread, and a bow ends in yarn by default; then threads are defined anew, and a thread
has a bow by default, which makes yarn have one as well. -/
def knot : List Change :=
  [.define "Thread" "structure Thread extends StructuredContent \x7b \x7d",
    .define "Yarn" "structure Yarn extends Thread \x7b \x7d",
    .define "Bow"
      "structure Bow extends StructuredContent \x7b end: Yarn default \"\x7b\x7d\" \x7d",
    .drop "Thread",
    .define "Thread"
      "structure Thread extends StructuredContent \x7b tied: Bow default \"\x7b\x7d\" \x7d"]

/-- The check of a thread is without end: the yarn and the bow are filled in for each other. -/
theorem validate_knot :
    ∃ e, (after knot).validate "Thread" [] = .error e ∧ e.fault = .endless := by
  have hfault : (match (after knot).validate "Thread" [] with
      | .ok _ => none
      | .error e => some e.fault) = some RecordFault.endless := by
    decide +kernel
  split at hfault
  · cases hfault
  · next e herror => exact ⟨e, herror, Option.some.inj hfault⟩

/-- Structures may come to be nested in themselves, and then the check of a record need not end. -/
theorem not_forall_after_acyclic :
    (¬ ∀ changes, (after changes).Acyclic) ∧
    ¬ ∀ changes name record e, (after changes).validate name record = .error e →
      e.fault ≠ .endless := by
  constructor
  · intro hall
    have hleaf : Calls (after regrowth) "Leaf" "Branch" := by
      unfold Calls
      decide +kernel
    have hbranch : Calls (after regrowth) "Branch" "Leaf" := by
      unfold Calls
      decide +kernel
    exact hall regrowth "Leaf" (.head hleaf (.single hbranch))
  · intro hall
    obtain ⟨e, herror, hendless⟩ := validate_knot
    exact hall knot "Thread" [] e herror hendless

end Conduit.Registry
