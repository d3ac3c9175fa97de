import Conduit.Proofs.Concept.Sound
import Conduit.Proofs.Structure.Record

/-!
# Grounded registries

A compiled structure refers to structures that were registered before it, as its parent or in the
types of its fields. So the place of a structure in the order of registration
(`Registry.rank`) bounds how deeply its records can nest. A registry is grounded
(`Registry.Grounded`) if all references go to lower ranks and the fields have passed the checks of
sources (`Registry.Anchored`): only texts have choices, and defaults are values of their fields. The
initial registry is grounded, and registering a compiled structure keeps a registry grounded
(`Registry.Grounded.register`), for a record that is valid stays valid (`validateWithin_within`). So
every registry of compiled structures is grounded (`Registry.Compiled.grounded`), and with it the
registry of every concept library that is built.
-/

namespace Conduit.Registry

variable {r r' : Registry} {name x key owner source : String} {s : Structure} {f : Field}
  {n bound bound' : Nat} {record : List (String × Json)} {values : Dict Json}

/-! ## Ranks -/

/-- The place of a structure in the order of registration; what is not registered comes after all
that is. -/
def rank (r : Registry) (name : String) : Nat :=
  r.structures.keys.idxOf name

theorem size_eq_length_keys (r : Registry) : r.structures.size = r.structures.keys.length :=
  (List.length_map _).symm

theorem rank_lt_size (h : r.contains x = true) : r.rank x < r.structures.size := by
  rw [size_eq_length_keys]
  exact List.idxOf_lt_length_of_mem (Dict.mem_keys_iff.2 h)

/-- A structure that is registered comes last. -/
theorem keys_register? (h : r.register? s = some r') :
    r.contains s.name = false ∧ r'.structures.keys = r.structures.keys ++ [s.name] := by
  unfold register? at h
  split at h
  · cases h
  · next hnew =>
    cases h
    refine ⟨Bool.eq_false_iff.2 hnew, ?_⟩
    have hkeys : s.name ∉ r.structures.keys := fun hmem => hnew (Dict.mem_keys_iff.1 hmem)
    unfold Dict.keys
    rw [Dict.entries_insert_of_not_mem hkeys, List.map_append]
    rfl

/-- The structures that were there keep their ranks. -/
theorem rank_register? (h : r.register? s = some r') (hx : r.contains x = true) :
    r'.rank x = r.rank x := by
  unfold rank
  rw [(keys_register? h).2]
  exact List.idxOf_append_of_mem (Dict.mem_keys_iff.2 hx)

/-- A structure that is registered has the rank after those that were there. -/
theorem rank_register?_self (h : r.register? s = some r') : r'.rank s.name = r.structures.size := by
  obtain ⟨hnew, hkeys⟩ := keys_register? h
  have hnot : s.name ∉ r.structures.keys :=
    fun hmem => Bool.eq_false_iff.1 hnew (Dict.mem_keys_iff.1 hmem)
  unfold rank
  rw [hkeys, List.idxOf_append_of_notMem hnot, size_eq_length_keys]
  simp

/-! ## Checks that stay passed -/

/-- A record that is valid stays valid when structures are added. -/
theorem validateWithin_within (hc : r.Closed) (hw : r.Within r')
    (h : r.validateWithin n name record = .ok values) :
    r'.validateWithin n name record = .ok values := by
  induction n generalizing name record values with
  | zero => cases h
  | succ n ih =>
    rw [validateWithin_eq_ok_iff] at h ⊢
    obtain ⟨hname, hmembers, htakes, hvalues⟩ := h
    rw [allFields_within hc hw hname]
    refine ⟨hw.contains hname, hmembers, fun e he => ?_, hvalues⟩
    refine (htakes e he).imp fun v _ s members _ hs => ?_
    obtain ⟨values', hs⟩ := nestedWithin_eq_ok_iff.1 hs
    exact nestedWithin_eq_ok_iff.2 ⟨values', ih hs⟩

theorem DefaultWithin.within (hc : r.Closed) (hw : r.Within r') (h : r.DefaultWithin n f) :
    r'.DefaultWithin n f := by
  intro d hd
  refine checkValue_imp (fun s members _ hs => ?_) (h d hd)
  obtain ⟨values, hs⟩ := nestedWithin_eq_ok_iff.1 hs
  exact nestedWithin_eq_ok_iff.2 ⟨values, validateWithin_within hc hw hs⟩

theorem DefaultWithin.mono {k : Nat} (h : r.DefaultWithin n f) (hnk : n ≤ k) :
    r.DefaultWithin k f := by
  intro d hd
  refine checkValue_imp (fun s members _ hs => ?_) (h d hd)
  obtain ⟨values, hs⟩ := nestedWithin_eq_ok_iff.1 hs
  exact nestedWithin_eq_ok_iff.2 ⟨values, validateWithin_mono hnk hs⟩

/-- A field has passed the checks of a source: it mentions structures below a rank, it has choices
only if it is a text, and its default is one of its values. -/
structure Anchored (r : Registry) (bound : Nat) (f : Field) : Prop where
  mentions : ∀ s ∈ f.type.mentions, r.contains s = true ∧ r.rank s < bound
  choices : f.choices ≠ [] → f.type = .text
  default : ∃ n, r.DefaultWithin n f
  admitted : ∀ d ∈ f.default, f.admits d = true

/-- A field that passes its check mentions structures that are registered. -/
theorem checkField_ok (h : r.checkField owner f = .ok ()) :
    r.Anchored r.structures.size f := by
  obtain ⟨hmentions, hchoices, hdefault⟩ := checkField_eq_ok_iff.1 h
  refine ⟨fun s hs => ⟨(hmentions s hs).2, rank_lt_size (hmentions s hs).2⟩, hchoices, ?_,
    fun d hd => (hdefault d hd).2⟩
  cases hd : f.default with
  | none => exact ⟨0, fun d hd' => by rw [hd] at hd'; cases hd'⟩
  | some d =>
    refine ⟨d.depth + r.budget + 1, fun d' hd' => ?_⟩
    rw [hd, Option.mem_some_iff] at hd'
    subst hd'
    exact checkValue_imp (fun _ _ _ hs => hs) (hdefault d (Option.mem_def.2 hd)).1

theorem Anchored.mono (h : r.Anchored bound f) (hle : bound ≤ bound') : r.Anchored bound' f where
  mentions s hs := ⟨(h.mentions s hs).1, (h.mentions s hs).2.trans_le hle⟩
  choices := h.choices
  default := h.default
  admitted := h.admitted

theorem Anchored.register (hc : r.Closed) (h : r.Anchored bound f)
    (hregister : r.register? s = some r') : r'.Anchored bound f where
  mentions x hx := by
    obtain ⟨hcontains, hlt⟩ := h.mentions x hx
    rw [rank_register? hregister hcontains]
    exact ⟨(register?_ok hregister).1.contains hcontains, hlt⟩
  choices := h.choices
  default := by
    obtain ⟨n, hn⟩ := h.default
    exact ⟨n, hn.within hc (register?_ok hregister).1⟩
  admitted := h.admitted

/-! ## Grounded registries -/

/-- Structures refer to structures of lower ranks only, and their fields have been checked. -/
structure Grounded (r : Registry) : Prop where
  parent : ∀ name parent, r.parent? name = some parent → r.rank parent < r.rank name
  field : ∀ name s, r.get? name = some s → ∀ f ∈ s.fields.values, r.Anchored (r.rank name) f

theorem initial_grounded : Registry.initial.Grounded where
  parent name parent h := by
    obtain ⟨s, hs, hparent⟩ := Option.bind_eq_some_iff.1 h
    have hall : ∀ e ∈ Registry.initial.structures.entries, ∀ parent ∈ e.2.parent,
        Registry.initial.rank parent < Registry.initial.rank e.1 := by
      decide
    exact hall (name, s) (Dict.mem_entries_of_get? hs) parent hparent
  field name s hs f hf := by
    have hall : ∀ e ∈ Registry.initial.structures.entries, ∀ f ∈ e.2.fields.values,
        (∀ s ∈ f.type.mentions, Registry.initial.contains s = true ∧
          Registry.initial.rank s < Registry.initial.rank e.1) ∧
          f.choices = [] ∧ f.default = none := by
      decide
    obtain ⟨hmentions, hchoices, hdefault⟩ := hall (name, s) (Dict.mem_entries_of_get? hs) f hf
    refine ⟨hmentions, fun hne => absurd hchoices hne, ⟨0, ?_⟩, ?_⟩
    · intro d hd
      rw [hdefault] at hd
      cases hd
    · rw [hdefault]
      nofun

/-- A compiled structure has passed the checks of its parent and its fields. -/
theorem compile_checked (h : r.compile name source = .ok s) :
    r.checkParent s = .ok () ∧ ∀ f ∈ s.fields.values, r.checkField s.name f = .ok () := by
  simp only [compile, bind_eq_ok_iff, mapError_eq_ok_iff] at h
  obtain ⟨declared, _, haccept⟩ := h
  exact (accept_ok haccept).2.2

/-- Registering a compiled structure keeps a registry grounded. -/
theorem Grounded.register (hg : r.Grounded) (hr : r.Sound) (hc : r.compile name source = .ok s)
    (h : r.register? s = some r') : r'.Grounded := by
  have hnew := (register?_ok h).2
  refine ⟨fun x parent hdeclares => ?_, fun x s' hs' f hf => ?_⟩
  · obtain ⟨s', hs', hparent⟩ := Option.bind_eq_some_iff.1 hdeclares
    rcases hnew x s' hs' with hold | ⟨rfl, rfl⟩
    · have hdeclared : r.parent? x = some parent := Option.bind_eq_some_iff.2 ⟨s', hold, hparent⟩
      rw [rank_register? h (hr.closed x parent hdeclared),
        rank_register? h (Dict.contains_of_get? hold)]
      exact hg.parent x parent hdeclared
    · have hcontains := compile_parent hr.root hc parent hparent
      rw [rank_register? h hcontains, rank_register?_self h]
      exact rank_lt_size hcontains
  · rcases hnew x s' hs' with hold | ⟨rfl, rfl⟩
    · rw [rank_register? h (Dict.contains_of_get? hold)]
      exact (hg.field x s' hold f hf).register hr.closed h
    · rw [rank_register?_self h]
      exact (checkField_ok ((compile_checked hc).2 f hf)).register hr.closed h

/-! ## Inherited fields -/

/-- Ancestors have no greater ranks. -/
theorem Grounded.rank_le_of_mem_ancestryFrom (hg : r.Grounded) {seen : List String} :
    ∀ y ∈ r.ancestryFrom n seen x, r.rank y ≤ r.rank x :=
  forall_mem_ancestryFrom le_rfl fun y parent hy hdeclared =>
    (hg.parent y parent hdeclared).le.trans hy

/-- The fields of a structure, inherited ones as well, mention structures of lower ranks and have
passed their checks. -/
theorem Grounded.anchored (hg : r.Grounded) (hf : (r.allFields name).get? key = some f) :
    r.Anchored (r.rank name) f := by
  obtain ⟨x, hx, s, hs, hkey⟩ := exists_of_get?_fieldsOf hf
  have hle := hg.rank_le_of_mem_ancestryFrom x (List.mem_reverse.1 hx)
  exact (hg.field x s hs f (Dict.mem_values_of_get? hkey)).mono hle

/-- The default of a field passes its check at a depth that is the same for all fields. -/
theorem Grounded.defaultWithin (hg : r.Grounded) (hf : (r.allFields name).get? key = some f) :
    r.DefaultWithin (r.budget + r.budget) f := by
  intro d hd
  obtain ⟨n, hn⟩ := (hg.anchored hf).default
  have hshare : share f ≤ r.budget := by
    rw [budget_eq]
    exact List.single_le_sum (fun _ _ => Nat.zero_le _) _
      (List.mem_map_of_mem (mem_declared_of_allFields hf))
  have hdepth : d.depth + 1 ≤ r.budget := by
    rw [Option.mem_def] at hd
    rw [share, hd] at hshare
    exact hshare
  refine checkValue_imp (fun s members hle hs => ?_) (hn d hd)
  have hspent := r.spent_le_budget n
  exact (r.enough n).within (by omega) hs

/-! ## Registries of compiled structures -/

/-- A registry that comes from the initial one by registering compiled structures. -/
inductive Compiled : Registry → Prop where
  | initial : Compiled .initial
  | register {r r' : Registry} {name source : String} {s : Structure} (hr : Compiled r)
      (hcompile : r.compile name source = .ok s) (hregister : r.register? s = some r') :
      Compiled r'

theorem Compiled.sound (h : r.Compiled) : r.Sound := by
  induction h with
  | initial => exact initial_sound
  | register _ hcompile hregister ih => exact (ih.register hcompile hregister).1

theorem Compiled.grounded (h : r.Compiled) : r.Grounded := by
  induction h with
  | initial => exact initial_grounded
  | register hr hcompile hregister ih => exact ih.register hr.sound hcompile hregister

/-- The built-in structures stay as they are. -/
theorem Compiled.initial_within (h : r.Compiled) : Registry.initial.Within r := by
  induction h with
  | initial => exact fun _ _ hs => hs
  | register _ _ hregister ih =>
    exact fun name s hs => (register?_ok hregister).1 name s (ih name s hs)

end Conduit.Registry

namespace Conduit.ConceptLibrary

variable {l : ConceptLibrary}

/-- A declaration adds no other structures than compiled ones. -/
theorem shapeOf_compiled (hl : l.registry.Compiled) {domain code shape : String}
    {detail : ConceptDetail} {refines : Option String} {registry : Registry}
    (h : l.shapeOf domain code detail = .ok (shape, refines, registry)) : registry.Compiled := by
  cases shapeOf_eq_ok_iff.1 h with
  | plain | named | refining => exact hl
  | schema _ _ hs hregister => exact .register hl hs hregister

/-- The registry of a library that is built comes by registering compiled structures. -/
theorem Built.registry_compiled (h : l.Built) : l.registry.Compiled := by
  induction h with
  | initial => exact .initial
  | @defined l l₁ l' domain code b c _ hmake hadd ih =>
    rw [(add_ok hadd).1]
    unfold make at hmake
    split at hmake
    · cases hmake
    · simp only [bind_eq_ok_iff] at hmake
      obtain ⟨⟨shape, refines, registry⟩, hshape, hmake⟩ := hmake
      cases hmake
      exact shapeOf_compiled ih hshape
  | compiled _ hcompile hregister ih => exact .register ih hcompile hregister

end Conduit.ConceptLibrary
