import Conduit.Text.Blank
import Mathlib.Data.List.DropRight

/-!
# Trimmed texts

Trimming takes white space from the two ends of a text and nothing else (`Text.exists_eq_trim`), so
that a text which neither starts nor ends with white space is left as it is (`Text.trim_eq_self`),
whatever white space is put around it (`Text.trim_pad`). `Text.Trimmed` says that a text has
something at its two ends, and no white space.
-/

namespace Conduit.Text

variable {cs before after : List Char} {c : Char}

/-- What all characters of a text have is decided on the text, not on all characters there are. -/
instance (priority := 2000) decidableForallMem {p : Char → Prop} [DecidablePred p]
    (cs : List Char) : Decidable (∀ c ∈ cs, p c) :=
  List.decidableBAll p cs

/-- A text of white space. -/
def Blank (cs : List Char) : Prop :=
  ∀ c ∈ cs, isBlank c = true

instance : DecidablePred Blank := fun cs =>
  inferInstanceAs (Decidable (∀ c ∈ cs, isBlank c = true))

theorem blank_nil : Blank [] :=
  List.forall_mem_nil _

theorem blank_cons : Blank (c :: cs) ↔ isBlank c = true ∧ Blank cs :=
  List.forall_mem_cons

/-- A text that is not empty and has no white space at its two ends. -/
structure Trimmed (cs : List Char) : Prop where
  starts : ∃ c rest, cs = c :: rest ∧ isBlank c = false
  ends : ∃ rest c, cs = rest ++ [c] ∧ isBlank c = false

theorem Trimmed.ne_nil (h : Trimmed cs) : cs ≠ [] := by
  obtain ⟨c, rest, rfl, _⟩ := h.starts
  exact List.cons_ne_nil c rest

/-- A text without white space has none at its two ends. -/
theorem Trimmed.of_forall (hne : cs ≠ []) (h : ∀ c ∈ cs, isBlank c = false) : Trimmed cs := by
  obtain ⟨c, rest, hstart⟩ := List.exists_cons_of_ne_nil hne
  obtain ⟨init, d, hend⟩ := (List.eq_nil_or_concat cs).resolve_left hne
  rw [List.concat_eq_append] at hend
  exact ⟨⟨c, rest, hstart, h c (by simp [hstart])⟩, ⟨init, d, hend, h d (by simp [hend])⟩⟩

/-- What is between two texts has no part in what they start and end with. -/
theorem Trimmed.around {before after : List Char} (hbefore : Trimmed before) (between : List Char)
    (hafter : Trimmed after) : Trimmed (before ++ between ++ after) := by
  obtain ⟨c, rest, rfl, hc⟩ := hbefore.starts
  obtain ⟨init, d, rfl, hd⟩ := hafter.ends
  exact ⟨⟨c, rest ++ between ++ (init ++ [d]), by simp, hc⟩,
    ⟨c :: rest ++ between ++ init, d, by simp, hd⟩⟩

theorem trimEnd_prefix (cs : List Char) : trimEnd cs <+: cs := by
  unfold trimEnd
  rw [← List.reverse_suffix, List.reverse_reverse]
  exact List.dropWhile_suffix isBlank

/-- A text that does not start with white space is left as it is at its start. -/
theorem trimStart_eq_self (h : ∀ c, cs.head? = some c → isBlank c = false) :
    trimStart cs = cs := by
  cases cs with
  | nil => rfl
  | cons c rest => simp [trimStart, h c rfl]

/-- What is left after the white space at the start does not start with white space. -/
theorem head?_trimStart (h : (trimStart cs).head? = some c) :
    isBlank c = false := by
  have hhead := List.head?_dropWhile_not isBlank cs
  unfold trimStart at h
  rw [h] at hhead
  exact hhead

theorem head?_trim (h : (trim cs).head? = some c) : isBlank c = false := by
  obtain ⟨after, hafter⟩ := trimEnd_prefix (trimStart cs)
  refine head?_trimStart (?_ : (trimStart cs).head? = some c)
  unfold trim at h
  rw [← hafter, List.head?_append, h]
  rfl

/-- Trimming a text twice does what trimming it once does. -/
theorem trim_trim (cs : List Char) : trim (trim cs) = trim cs := by
  have hstart : trimStart (trim cs) = trim cs := trimStart_eq_self fun c hc => head?_trim hc
  have hend : trimEnd (trim cs) = trim cs := by
    unfold trim trimEnd
    rw [List.reverse_reverse, List.dropWhile_idempotent]
  unfold trim at hstart hend ⊢
  rw [hstart, hend]

/-- White space at the start of a text is passed over. -/
theorem trimStart_blank (h : Blank before) : trimStart (before ++ cs) = trimStart cs :=
  List.dropWhile_append_of_pos h

/-- White space at the end of a text is passed over. -/
theorem trimEnd_blank (h : Blank after) : trimEnd (cs ++ after) = trimEnd cs := by
  unfold trimEnd
  rw [List.reverse_append, List.dropWhile_append_of_pos]
  intro c hc
  exact h c (List.mem_reverse.1 hc)

theorem trimStart_cons (h : isBlank c = false) : trimStart (c :: cs) = c :: cs := by
  simp [trimStart, h]

theorem trimEnd_concat (h : isBlank c = false) : trimEnd (cs ++ [c]) = cs ++ [c] := by
  simp [trimEnd, h]

/-- A text without white space at its two ends is left as it is. -/
theorem trim_eq_self (h : Trimmed cs) : trim cs = cs := by
  obtain ⟨c, rest, hstart, hc⟩ := h.starts
  obtain ⟨init, d, hend, hd⟩ := h.ends
  unfold trim
  rw [hstart, trimStart_cons hc, ← hstart, hend, trimEnd_concat hd]

/-- White space that is put around a text is taken away. -/
theorem trim_pad (hbefore : Blank before) (h : Trimmed cs) (hafter : Blank after) :
    trim (before ++ cs ++ after) = cs := by
  obtain ⟨c, rest, hstart, hc⟩ := h.starts
  have hcs : trimStart (before ++ cs ++ after) = cs ++ after := by
    rw [List.append_assoc, trimStart_blank hbefore, hstart, List.cons_append, trimStart_cons hc]
  obtain ⟨init, d, hend, hd⟩ := h.ends
  unfold trim
  rw [hcs, trimEnd_blank hafter, hend, trimEnd_concat hd]

/-- Trimming takes away white space at the two ends, and nothing else. -/
theorem exists_eq_trim (cs : List Char) :
    ∃ before after, cs = before ++ trim cs ++ after ∧ Blank before ∧ Blank after := by
  obtain ⟨after, hafter⟩ := trimEnd_prefix (trimStart cs)
  have hblank : Blank after := by
    have hreverse : after = ((trimStart cs).reverse.takeWhile isBlank).reverse := by
      have happ := List.takeWhile_append_dropWhile (p := isBlank) (l := (trimStart cs).reverse)
      have hboth := congrArg List.reverse happ
      rw [List.reverse_append, List.reverse_reverse] at hboth
      exact List.append_cancel_left (hafter.trans hboth.symm)
    intro c hc
    rw [hreverse, List.mem_reverse] at hc
    exact List.mem_takeWhile_imp hc
  refine ⟨cs.takeWhile isBlank, after, ?_, fun c hc => List.mem_takeWhile_imp hc, hblank⟩
  unfold trim
  rw [List.append_assoc, hafter]
  exact List.takeWhile_append_dropWhile.symm

/-- What trimming leaves is nothing, or has no white space at its two ends. -/
theorem trimmed_trim (h : trim cs ≠ []) : Trimmed (trim cs) := by
  refine ⟨?_, ?_⟩
  · obtain ⟨c, rest, hcs⟩ := List.exists_cons_of_ne_nil h
    have hhead : (trim cs).head? = some c := by rw [hcs]; rfl
    exact ⟨c, rest, hcs, head?_trim hhead⟩
  · obtain ⟨init, c, hcs⟩ := (List.eq_nil_or_concat (trim cs)).resolve_left h
    rw [List.concat_eq_append] at hcs
    have hreverse : (trimStart cs).reverse.dropWhile isBlank = c :: init.reverse := by
      have hrev := congrArg List.reverse hcs
      unfold trim trimEnd at hrev
      simpa using hrev
    have hhead := List.head?_dropWhile_not isBlank (trimStart cs).reverse
    rw [hreverse] at hhead
    exact ⟨init, c, hcs, hhead⟩

end Conduit.Text
