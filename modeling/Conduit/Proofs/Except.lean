import Mathlib.Data.List.Forall2

/-!
# Computations that can fail

What it means that a computation put together from others succeeds or fails: `bind_eq_ok_iff` and
its companions take a computation apart in its order, `forall₂_of_mapM` and `forM_eq_ok_iff` do so
for traversals of lists.
-/

namespace Conduit

variable {α β γ ε ε' : Type}

/-- A computation goes on from the result of its first part. -/
theorem ok_bind (a : α) (f : α → Except ε β) : (Except.ok a >>= f) = f a :=
  rfl

/-- A computation in two parts succeeds if both do. -/
theorem bind_eq_ok_iff {x : Except ε α} {f : α → Except ε β} {b : β} :
    (x >>= f) = .ok b ↔ ∃ a, x = .ok a ∧ f a = .ok b := by
  cases x with
  | error e => simp [bind, Except.bind]
  | ok a => simp [bind, Except.bind]

/-- A computation in two parts fails if the first part does, or the second after it. -/
theorem bind_eq_error_iff {x : Except ε α} {f : α → Except ε β} {e : ε} :
    (x >>= f) = .error e ↔ x = .error e ∨ ∃ a, x = .ok a ∧ f a = .error e := by
  cases x with
  | error e' => simp [bind, Except.bind]
  | ok a => simp [bind, Except.bind]

/-- Two computations that go on alike from the results of a first one are equal. -/
theorem bind_congr_of_ok {x : Except ε α} {f g : α → Except ε β}
    (h : ∀ a, x = .ok a → f a = g a) : (x >>= f) = (x >>= g) := by
  cases x with
  | error e => rfl
  | ok a => exact h a rfl

/-- Another error changes nothing about a success. -/
@[simp] theorem mapError_eq_ok_iff {x : Except ε α} {f : ε → ε'} {a : α} :
    x.mapError f = .ok a ↔ x = .ok a := by
  cases x <;> simp [Except.mapError]

/-- A failure with another error comes from a failure. -/
@[simp] theorem mapError_eq_error_iff {x : Except ε α} {f : ε → ε'} {e : ε'} :
    x.mapError f = .error e ↔ ∃ e', x = .error e' ∧ f e' = e := by
  cases x <;> simp [Except.mapError]

/-- Another result of a success. -/
@[simp] theorem map_eq_ok_iff {x : Except ε α} {f : α → β} {b : β} :
    x.map f = .ok b ↔ ∃ a, x = .ok a ∧ f a = b := by
  cases x <;> simp [Except.map]

/-- Another result changes nothing about a failure. -/
@[simp] theorem map_eq_error_iff {x : Except ε α} {f : α → β} {e : ε} :
    x.map f = .error e ↔ x = .error e := by
  cases x <;> simp [Except.map]

/-- A computation that ends well has a result. -/
theorem exists_of_isOk {x : Except ε α} (h : x.isOk = true) : ∃ a, x = .ok a := by
  cases x with
  | error e => cases h
  | ok a => exact ⟨a, rfl⟩

/-- A computation that has a result ends well. -/
theorem isOk_of_eq_ok {x : Except ε α} {a : α} (h : x = .ok a) : x.isOk = true := by
  rw [h]
  rfl

/-- A computation that ends with a result has that result. -/
theorem eq_ok_of_toOption {x : Except ε α} {a : α} (h : x.toOption = some a) : x = .ok a := by
  cases x with
  | error e => cases h
  | ok b => exact congrArg _ (Option.some.inj h)

/-- A check of every member of a list succeeds if each does. -/
theorem forM_eq_ok_iff {f : α → Except ε Unit} {as : List α} :
    as.forM f = .ok () ↔ ∀ a ∈ as, f a = .ok () := by
  induction as with
  | nil => simp [pure, Except.pure]
  | cons a as ih =>
    rw [List.forM_eq_forM] at ih
    rw [List.forM_eq_forM, List.forM_cons, bind_eq_ok_iff, List.forall_mem_cons]
    exact ⟨fun ⟨_, ha, has⟩ => ⟨ha, ih.1 has⟩, fun ⟨ha, has⟩ => ⟨(), ha, ih.2 has⟩⟩

/-- A check of every member of a list fails as one of them does. -/
theorem exists_of_forM_error {f : α → Except ε Unit} {as : List α} {e : ε}
    (h : as.forM f = .error e) : ∃ a ∈ as, f a = .error e := by
  induction as with
  | nil => cases h
  | cons a as ih =>
    rw [List.forM_eq_forM, List.forM_cons, bind_eq_error_iff] at h
    rcases h with ha | ⟨_, _, has⟩
    · exact ⟨a, List.mem_cons_self, ha⟩
    · obtain ⟨a', hmem, ha'⟩ := ih has
      exact ⟨a', List.mem_cons_of_mem a hmem, ha'⟩

/-- Checks of the members of a list make no difference if they agree on the members. -/
theorem forM_congr {f g : α → Except ε Unit} {as : List α} (h : ∀ a ∈ as, f a = g a) :
    as.forM f = as.forM g := by
  induction as with
  | nil => rfl
  | cons a as ih =>
    rw [List.forall_mem_cons] at h
    rw [List.forM_eq_forM] at ih ⊢
    rw [List.forM_cons, List.forM_cons, h.1, ih h.2]

/-- A fold fails as one of its steps does. -/
theorem exists_of_foldlM_error {f : β → α → Except ε β} {as : List α} {b : β} {e : ε}
    (h : as.foldlM f b = .error e) : ∃ a ∈ as, ∃ b', f b' a = .error e := by
  induction as generalizing b with
  | nil => cases h
  | cons a as ih =>
    rw [List.foldlM_cons, bind_eq_error_iff] at h
    rcases h with ha | ⟨b', _, has⟩
    · exact ⟨a, List.mem_cons_self, b, ha⟩
    · obtain ⟨a', hmem, hstep⟩ := ih has
      exact ⟨a', List.mem_cons_of_mem a hmem, hstep⟩

/-- Folds over a list make no difference if their steps agree on its members. -/
theorem foldlM_congr {f g : β → α → Except ε β} {as : List α} {b : β}
    (h : ∀ a ∈ as, ∀ b, f b a = g b a) : as.foldlM f b = as.foldlM g b := by
  induction as generalizing b with
  | nil => rfl
  | cons a as ih =>
    rw [List.forall_mem_cons] at h
    rw [List.foldlM_cons, List.foldlM_cons, h.1]
    exact bind_congr fun b' => ih h.2

/-- A traversal that succeeds has a result for each member. -/
theorem forall₂_of_mapM {f : α → Except ε β} {as : List α} {bs : List β}
    (h : as.mapM f = .ok bs) : List.Forall₂ (fun a b => f a = .ok b) as bs := by
  induction as generalizing bs with
  | nil =>
    rw [List.mapM_nil] at h
    cases h
    exact .nil
  | cons a as ih =>
    simp only [List.mapM_cons, bind_eq_ok_iff] at h
    obtain ⟨b, ha, bs', has, hbs⟩ := h
    cases hbs
    exact .cons ha (ih has)

/-- A traversal of equal members gives equal results. -/
theorem mapM_replicate {f : α → Except ε β} {a : α} {b : β} (h : f a = .ok b) (n : Nat) :
    (List.replicate n a).mapM f = .ok (List.replicate n b) := by
  induction n with
  | zero => rfl
  | succ n ih =>
    rw [List.replicate_succ, List.mapM_cons, h, ok_bind, ih, ok_bind]
    rfl

/-- A member of the second of two lists that match has a partner in the first. -/
theorem exists_of_forall₂ {R : α → β → Prop} {as : List α} {bs : List β} {b : β}
    (h : List.Forall₂ R as bs) (hb : b ∈ bs) : ∃ a ∈ as, R a b := by
  induction h with
  | nil => cases hb
  | @cons a b' as bs hab _ ih =>
    rcases List.mem_cons.1 hb with rfl | hb
    · exact ⟨a, List.mem_cons_self, hab⟩
    · obtain ⟨a', hmem, ha'⟩ := ih hb
      exact ⟨a', List.mem_cons_of_mem a hmem, ha'⟩

/-- Lists that match one list match each other through its members. -/
theorem forall₂_trans {R : α → β → Prop} {S : β → γ → Prop} {as : List α} {bs : List β}
    {cs : List γ} (h : List.Forall₂ R as bs) (h' : List.Forall₂ S bs cs) :
    List.Forall₂ (fun a c => ∃ b, R a b ∧ S b c) as cs := by
  induction h generalizing cs with
  | nil =>
    cases h'
    exact .nil
  | @cons a b as bs hab _ ih =>
    obtain ⟨c, cs, hbc, hrest, rfl⟩ := List.forall₂_cons_left_iff.1 h'
    exact .cons ⟨b, hab, hbc⟩ (ih hrest)

/-- The last members of two lists are related if the lists are. -/
theorem exists_of_forall₂_getLast? {R : α → β → Prop} {as : List α} {bs : List β} {a : α}
    (h : List.Forall₂ R as bs) (ha : as.getLast? = some a) : ∃ b, bs.getLast? = some b ∧ R a b := by
  induction h with
  | nil => cases ha
  | @cons a' b as bs hab hrest ih =>
    cases hrest with
    | nil =>
      cases ha
      exact ⟨b, rfl, hab⟩
    | cons hab' hrest =>
      rw [List.getLast?_cons_cons] at ha ⊢
      exact ih ha

/-- A traversal that fails does so as one of its members does. -/
theorem exists_of_mapM_error {f : α → Except ε β} {as : List α} {e : ε}
    (h : as.mapM f = .error e) : ∃ a ∈ as, f a = .error e := by
  induction as with
  | nil =>
    rw [List.mapM_nil] at h
    cases h
  | cons a as ih =>
    simp only [List.mapM_cons, bind_eq_error_iff] at h
    rcases h with ha | ⟨b, _, has | ⟨bs, _, hbs⟩⟩
    · exact ⟨a, List.mem_cons_self, ha⟩
    · obtain ⟨a', hmem, ha'⟩ := ih has
      exact ⟨a', List.mem_cons_of_mem a hmem, ha'⟩
    · cases hbs

end Conduit
