import Mathlib.Data.List.Nodup
import Mathlib.Data.List.Perm.Subperm
import Conduit.Proofs.Memory.Growth

/-!
# Fresh codes

A new value has a code of its own. Codes with different numbers are different, for a number can be
read off its digits, zeros before them or not (`Memory.codeText_injective`); so among one more codes
than there are codes and names in a memory, one is none of these (`Memory.freshCode_not_mem`). It
follows that a new value can always be added (`Memory.add_fresh`), and that a result can always be
stored (`Engine.exists_storeResult`).
-/

namespace Conduit.Memory

variable {m : Memory} {name : String} {c : Concept} {content : Content}

/-! ## Codes -/

/-- The digits of hexadecimal numbers, in the order of their values. -/
def hexDigits : List Char := "0123456789abcdef".toList

/-- The number that hexadecimal digits write. -/
def ofHexDigits (cs : List Char) : Nat :=
  cs.foldl (fun n c => n * 16 + hexDigits.idxOf c) 0

theorem ofHexDigits_concat (cs : List Char) (c : Char) :
    ofHexDigits (cs ++ [c]) = ofHexDigits cs * 16 + hexDigits.idxOf c :=
  List.foldl_concat ..

theorem idxOf_digitChar {d : Nat} (h : d < 16) : hexDigits.idxOf d.digitChar = d := by
  have hall : ∀ d < 16, hexDigits.idxOf (Nat.digitChar d) = d := by decide
  exact hall d h

/-- A number is read off its digits. -/
theorem ofHexDigits_toDigits (n : Nat) : ofHexDigits (Nat.toDigits 16 n) = n := by
  induction n using Nat.strong_induction_on with
  | _ n ih =>
    by_cases hn : n < 16
    · rw [Nat.toDigits_of_lt_base hn, ← List.nil_append [_], ofHexDigits_concat,
        idxOf_digitChar hn]
      exact Nat.zero_add n
    · rw [Nat.toDigits_of_base_le (by decide) (by omega), ofHexDigits_concat, ih _ (by omega),
        idxOf_digitChar (Nat.mod_lt _ (by decide))]
      omega

/-- Zeros before a number change nothing. -/
theorem ofHexDigits_replicate (k : Nat) (cs : List Char) :
    ofHexDigits (List.replicate k '0' ++ cs) = ofHexDigits cs := by
  have hzeros : ofHexDigits (List.replicate k '0') = 0 := by
    induction k with
    | zero => rfl
    | succ k ih =>
      rw [List.replicate_succ', ofHexDigits_concat, ih]
      decide
  unfold ofHexDigits at hzeros ⊢
  rw [List.foldl_append, hzeros]

/-- Codes with different numbers are different. -/
theorem codeText_injective : Function.Injective codeText := by
  intro n k h
  have hdigits := congrArg String.toList h
  simp only [codeText, hexText, String.toList_append, String.toList_ofList,
    List.append_cancel_left_eq] at hdigits
  have hnumbers := congrArg ofHexDigits hdigits
  rwa [ofHexDigits_replicate, ofHexDigits_replicate, ofHexDigits_toDigits,
    ofHexDigits_toDigits] at hnumbers

/-- The code of a new value is one of the enumeration, and neither a code nor a name in the
memory. -/
theorem freshCode_spec (m : Memory) : (∃ n, m.freshCode = codeText n) ∧ m.freshCode ∉ m.taken := by
  unfold freshCode
  generalize m.taken = taken
  dsimp only
  cases hfind : ((List.range (taken.length + 1)).map codeText).find? fun c =>
      !taken.contains c with
  | some code =>
    obtain ⟨n, _, hn⟩ := List.mem_map.1 (List.mem_of_find?_eq_some hfind)
    exact ⟨⟨n, hn.symm⟩, by simpa using List.find?_some hfind⟩
  | none =>
    have hsubset : (List.range (taken.length + 1)).map codeText ⊆ taken := by
      intro code hcode
      simpa using List.find?_eq_none.1 hfind code hcode
    have hnodup : ((List.range (taken.length + 1)).map codeText).Nodup :=
      List.nodup_range.map codeText_injective
    have hle := (List.subperm_of_subset hnodup hsubset).length_le
    simp only [List.length_map, List.length_range] at hle
    omega

/-- A code is not the alias of the latest result. -/
theorem freshCode_ne_mainAlias (m : Memory) : m.freshCode ≠ mainAlias := by
  obtain ⟨⟨n, hn⟩, _⟩ := m.freshCode_spec
  rw [hn]
  intro h
  have hchars := congrArg (fun text => text.toList.head?) h
  simp [codeText, codeStart, mainAlias] at hchars

/-! ## Storing new values -/

/-- A new value can be added. -/
theorem add_fresh (m : Memory) (name : String) (c : Concept) (content : Content) :
    m.add name (m.fresh name c content) [] =
      (.ok (), m.set name (m.fresh name c content)) := by
  have hholder : m.holder? name m.freshCode = none := by
    unfold holder?
    rw [Option.map_eq_none_iff, List.find?_eq_none]
    rintro ⟨key, s⟩ hs hcode
    simp only [Bool.and_eq_true, beq_iff_eq] at hcode
    refine m.freshCode_spec.2 ?_
    rw [← hcode.1]
    exact List.mem_append_left _ (List.mem_append_left _
      (List.mem_map_of_mem (List.mem_map_of_mem hs)))
  unfold add
  rw [show (m.fresh name c content).code = m.freshCode from rfl, hholder]
  rfl

/-- The name under which a result is stored is not reserved, unless a reserved name is asked for or
is the code of the value. -/
theorem resultName_ne_mainAlias {s : Stuff} (h : s.code ≠ mainAlias) :
    resultName s none ≠ mainAlias := by
  unfold resultName
  dsimp only
  split
  · next hname =>
    simp only [Bool.and_eq_true, bne_iff_ne] at hname
    exact hname.2
  · exact h

/-- A result can be stored under a name that is not reserved. -/
theorem exists_setMain {s : Stuff} {asked : Option String} (h : resultName s asked ≠ mainAlias) :
    ∃ m', m.setMain s asked = (.ok (resultName s asked), m') := by
  have hentry : (m.set (resultName s asked) s).entries.contains (resultName s asked) = true := by
    simp [set]
  have halias := setAlias_eq_ok_iff.2 ⟨h.symm, hentry, rfl⟩
  simp only [setMain, halias]
  exact ⟨_, rfl⟩

end Conduit.Memory

namespace Conduit.Engine

/-- New content can be stored as the latest result of a pipe. -/
theorem exists_storeResult (m : Memory) (pipe : String) (c : Concept) (content : Content) :
    ∃ stored m', storeResult m pipe c content none = .ok (stored, m') := by
  obtain ⟨m', hm'⟩ := Memory.exists_setMain (m := m)
    (Memory.resultName_ne_mainAlias (s := m.fresh pipe c content) m.freshCode_ne_mainAlias)
  exact ⟨_, m', by rw [storeResult, Option.getD_none, hm']; rfl⟩

end Conduit.Engine
