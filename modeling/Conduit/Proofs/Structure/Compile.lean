import Conduit.Proofs.Structure.Ancestry
import Conduit.Structure.Source.Compile

/-!
# Compiled structures

A structure that is compiled has its fields under their own names (`Structure.Named`), for the
reader of a source puts them there, and its parent is known. So a registry to which only compiled
structures are added stays in order (`Registry.Sound`), and adding one changes nothing about those
that were there (`Registry.Sound.register`).
-/

namespace Conduit

/-- Fields are under their own names. -/
def Dict.Named (fields : Dict Field) : Prop :=
  ∀ key f, fields.get? key = some f → f.name = key

theorem Dict.named_empty : (Dict.empty : Dict Field).Named :=
  fun _ _ h => by cases h

/-! ## Reading a source -/

namespace SourceParser

variable {ts ts' : List SourceToken} {n : Nat}

/-- A field that is read has the name with which it is read. -/
theorem field_ok {name : String} {f : Field} (h : field name ts = .ok (f, ts')) :
    f.name = name := by
  simp only [field, bind_eq_ok_iff] at h
  obtain ⟨_, _, _, _, _, _, _, _, _, _, h⟩ := h
  cases h
  rfl

/-- Fields that are read are under their own names. -/
theorem fields_named {known fs : Dict Field} (hknown : known.Named)
    (h : fields n known ts = .ok (fs, ts')) : fs.Named := by
  induction n generalizing known ts with
  | zero => cases h
  | succ n ih =>
    unfold fields at h
    split at h
    · cases h
      exact hknown
    · simp only [bind_eq_ok_iff] at h
      obtain ⟨⟨⟨name, location⟩, ts₁⟩, _, ⟨f, ts₂⟩, hf, h⟩ := h
      dsimp only at h
      split at h
      · cases h
      · refine ih ?_ h
        intro key g hg
        rw [Dict.get?_insert] at hg
        split at hg
        · next hkey =>
          cases hg
          exact (field_ok hf).trans hkey
        · exact hknown key g hg

/-- The fields of a structure that is read are under their own names. -/
theorem one_named {s : Structure} (h : one ts = .ok (s, ts')) : s.fields.Named := by
  simp only [one, bind_eq_ok_iff] at h
  obtain ⟨_, _, _, _, _, _, _, _, ⟨fs, ts₁⟩, hfs, h⟩ := h
  cases h
  exact fields_named Dict.named_empty hfs

theorem all_named {ss : List Structure} (h : all n ts = .ok ss) : ∀ s ∈ ss, s.fields.Named := by
  induction n generalizing ts ss with
  | zero =>
    cases ts with
    | nil =>
      cases h
      exact fun s hs => absurd hs List.not_mem_nil
    | cons t ts => cases h
  | succ n ih =>
    cases ts with
    | nil =>
      cases h
      exact fun s hs => absurd hs List.not_mem_nil
    | cons t ts =>
      simp only [all, bind_eq_ok_iff] at h
      obtain ⟨⟨s, ts₁⟩, hs, more, hmore, h⟩ := h
      cases h
      exact List.forall_mem_cons.2 ⟨one_named hs, ih hmore⟩

end SourceParser

namespace Registry

variable {r r' : Registry} {name source : String} {s : Structure}

/-- What is accepted is the only structure of a source; it has the expected name, and its parent and
its fields have been checked. -/
theorem accept_ok {ss : List Structure} (h : r.accept name ss = .ok s) :
    ss = [s] ∧ s.name = name ∧ r.checkParent s = .ok () ∧
      ∀ f ∈ s.fields.values, r.checkField s.name f = .ok () := by
  unfold accept at h
  split at h
  · simp only [bne_iff_ne, ne_eq, ite_not] at h
    split at h
    · next hname =>
      simp only [bind_eq_ok_iff] at h
      obtain ⟨⟨⟩, hparent, ⟨⟩, hfields, h⟩ := h
      cases h
      exact ⟨rfl, hname, hparent, forM_eq_ok_iff.1 hfields⟩
    · cases h
  · cases h

/-- A field passes its check if it mentions other structures that are known, has choices only if it
is a text, and has a default of its type and among its choices. -/
theorem checkField_eq_ok_iff {owner : String} {f : Field} : r.checkField owner f = .ok () ↔
    (∀ x ∈ f.type.mentions, x ≠ owner ∧ r.contains x = true) ∧
      (f.choices ≠ [] → f.type = .text) ∧
      ∀ v ∈ f.default, r.check owner f.name f.type v = .ok () ∧ f.admits v = true := by
  have hmentions : (f.type.mentions.find? fun x => x == owner || !r.contains x) = none ↔
      ∀ x ∈ f.type.mentions, x ≠ owner ∧ r.contains x = true := by
    simp [List.find?_eq_none]
  have hchoices : (!f.choices.isEmpty && f.type != .text) = false ↔
      (f.choices ≠ [] → f.type = .text) := by
    simp
  rw [← hmentions, ← hchoices, checkField]
  cases f.type.mentions.find? fun x => x == owner || !r.contains x with
  | some x => simp
  | none =>
    cases !f.choices.isEmpty && f.type != .text with
    | true => simp
    | false =>
      cases f.default with
      | none => simp
      | some v =>
        simp only [Bool.false_eq_true, if_false, bind_eq_ok_iff, mapError_eq_ok_iff, true_and,
          Option.mem_some_iff, forall_eq']
        cases f.admits v with
        | true =>
          constructor
          · rintro ⟨⟨⟩, hcheck, _⟩
            exact ⟨hcheck, rfl⟩
          · rintro ⟨hcheck, _⟩
            exact ⟨(), hcheck, rfl⟩
        | false => simp

/-- A structure whose parent has been checked extends the root of content, or a structure whose
ancestors end there. -/
theorem checkParent_ok (h : r.checkParent s = .ok ()) :
    ∃ parent, s.parent = some parent ∧
      (parent = Structure.root ∨ r.isContent parent = true) := by
  unfold checkParent at h
  split at h
  · cases h
  · next parent hparent =>
    refine ⟨parent, hparent, ?_⟩
    split at h
    · cases h
    · next hnot =>
      by_cases hroot : parent = Structure.root
      · exact .inl hroot
      · simp only [bne_iff_ne, ne_eq, hroot, not_false_eq_true, Bool.and_eq_true,
          Bool.not_eq_true', true_and, Bool.not_eq_false] at hnot
        exact .inr hnot

/-- A structure that is compiled has the name for which it is compiled. -/
theorem compile_name (h : r.compile name source = .ok s) : s.name = name := by
  simp only [compile, bind_eq_ok_iff, mapError_eq_ok_iff] at h
  obtain ⟨declared, _, haccept⟩ := h
  exact (accept_ok haccept).2.1

/-- A structure that is compiled has its fields under their own names. -/
theorem compile_named (h : r.compile name source = .ok s) : s.fields.Named := by
  simp only [compile, bind_eq_ok_iff, mapError_eq_ok_iff, SourceParser.parse?] at h
  obtain ⟨declared, ⟨tokens, _, hall⟩, haccept⟩ := h
  obtain ⟨rfl, _⟩ := accept_ok haccept
  exact SourceParser.all_named hall s List.mem_cons_self

/-- What ends at the root of content is known. -/
theorem contains_of_isContent (hroot : r.contains Structure.root = true)
    (h : r.isContent name = true) : r.contains name = true := by
  cases hname : r.get? name with
  | some s => exact Dict.contains_of_get? hname
  | none =>
    have hancestry : r.ancestry name = [name] := by
      unfold ancestry
      rw [ancestryFrom, if_neg List.not_mem_nil]
      simp only [parent?, hname, Option.bind_none]
    unfold isContent at h
    rw [hancestry, List.getLast?_singleton, beq_iff_eq, Option.some.injEq] at h
    rw [h]
    exact hroot

/-- The parent of a structure that is compiled is known. -/
theorem compile_parent (hroot : r.contains Structure.root = true)
    (h : r.compile name source = .ok s) : ∀ parent ∈ s.parent, r.contains parent = true := by
  simp only [compile, bind_eq_ok_iff, mapError_eq_ok_iff] at h
  obtain ⟨declared, _, haccept⟩ := h
  obtain ⟨_, _, hchecked, _⟩ := accept_ok haccept
  obtain ⟨parent, hparent, hcontent⟩ := checkParent_ok hchecked
  rw [hparent]
  intro _ hmem
  cases hmem
  rcases hcontent with rfl | hcontent
  · exact hroot
  · exact contains_of_isContent hroot hcontent

/-! ## Registries of compiled structures -/

/-- The root of content and all parents are there, and fields are under their own names. -/
structure Sound (r : Registry) : Prop where
  root : r.contains Structure.root = true
  closed : r.Closed
  named : ∀ name s, r.get? name = some s → s.fields.Named

/-- A field of a structure or of its ancestors has the name under which it is found. -/
theorem Sound.allFields_named (h : r.Sound) (name : String) : (r.allFields name).Named := by
  intro key f hf
  obtain ⟨x, _, s, hs, hkey⟩ := exists_of_get?_fieldsOf hf
  exact h.named x s hs key f hkey

theorem initial_sound : Registry.initial.Sound where
  root := by decide
  closed := by
    intro name parent hparent
    unfold parent? at hparent
    obtain ⟨s, hs, hparent⟩ := Option.bind_eq_some_iff.1 hparent
    have hall : ∀ s ∈ Registry.initial.structures.values, s.parent = none ∨
        s.parent = some Structure.root := by
      decide
    rcases hall s (Dict.mem_values_of_get? hs) with hnone | hroot
    · rw [hnone] at hparent
      cases hparent
    · rw [hroot] at hparent
      cases hparent
      decide
  named := by
    intro name s hs key f hf
    have hall : ∀ s ∈ Registry.initial.structures.values, ∀ e ∈ s.fields.entries,
        e.2.name = e.1 := by
      decide
    exact hall s (Dict.mem_values_of_get? hs) (key, f) (Dict.mem_entries_of_get? hf)

/-- Registering a structure of a new name keeps the others. -/
theorem register?_ok (h : r.register? s = some r') :
    r.Within r' ∧ ∀ name s', r'.get? name = some s' →
      r.get? name = some s' ∨ s.name = name ∧ s' = s := by
  unfold register? at h
  split at h
  · cases h
  · next hnew =>
    cases h
    exact ⟨fun name s' hs' => Dict.get?_insert_of_get? hnew hs',
      fun name s' hs' => Dict.get?_or_eq_of_get?_insert hs'⟩

/-- Registering a compiled structure keeps a registry in order. -/
theorem Sound.register (hr : r.Sound) (hc : r.compile name source = .ok s)
    (h : r.register? s = some r') : r'.Sound ∧ r.Within r' := by
  obtain ⟨hw, hnew⟩ := register?_ok h
  refine ⟨⟨hw.contains hr.root, ?_, ?_⟩, hw⟩
  · intro x parent hparent
    unfold parent? at hparent
    obtain ⟨s', hs', hparent⟩ := Option.bind_eq_some_iff.1 hparent
    rcases hnew x s' hs' with hold | ⟨_, rfl⟩
    · refine hw.contains (hr.closed x parent ?_)
      unfold parent?
      rw [hold]
      exact hparent
    · exact hw.contains (compile_parent hr.root hc parent hparent)
  · intro x s' hs'
    rcases hnew x s' hs' with hold | ⟨_, rfl⟩
    · exact hr.named x s' hold
    · exact compile_named hc

end Registry

end Conduit
