import Conduit.Proofs.Json.RoundTrip
import Conduit.Proofs.Structure.Tokens
import Conduit.Proofs.Template.Reads

/-!
# Operands

An operand is a text in single quotation marks, a JSON literal or a path. Paths are made of plain
characters (`Path.isPlain_of_isClean`), and a path is told from a literal by its first character,
unless it is one of the three words that are literals (`Expression.operand_path`). A text in which
no symbol stands, and which is neither negated nor enclosed in parentheses, is read as an operand
(`Expression.node_of_operand`).
-/

namespace Conduit

open Text

variable {cs rest : List Char} {c : Char} {path : String}

/-! ## Parts of a text -/

namespace Text

/-- A character of a text is the separator, or in a piece. -/
theorem eq_or_mem_of_splitOn (sep : Char) (h : c ∈ cs) :
    c = sep ∨ ∃ piece ∈ splitOn sep cs, c ∈ piece := by
  induction cs with
  | nil => cases h
  | cons d cs ih =>
    rw [splitOn]
    split
    · next heq =>
      rcases List.mem_cons.1 h with rfl | hc
      · exact .inl heq
      · rcases ih hc with hsep | ⟨piece, hp, hmem⟩
        · exact .inl hsep
        · exact .inr ⟨piece, List.mem_cons_of_mem _ hp, hmem⟩
    · split
      · next hnil => exact absurd hnil (splitOn_ne_nil sep cs)
      · next first pieces hsplit =>
        rcases List.mem_cons.1 h with rfl | hc
        · exact .inr ⟨c :: first, List.mem_cons_self, List.mem_cons_self⟩
        · rw [hsplit] at ih
          rcases ih hc with hsep | ⟨piece, hp, hmem⟩
          · exact .inl hsep
          · rcases List.mem_cons.1 hp with rfl | hp
            · exact .inr ⟨d :: piece, List.mem_cons_self, List.mem_cons_of_mem d hmem⟩
            · exact .inr ⟨piece, List.mem_cons_of_mem _ hp, hmem⟩

/-- A text starts with its first piece. -/
theorem prefix_of_splitOn {sep : Char} {piece : List Char} {more : List (List Char)}
    (h : splitOn sep cs = piece :: more) : piece <+: cs :=
  takeWhile_of_splitOn h ▸ List.takeWhile_prefix _

/-- What comes before the end of a text. -/
theorem before?_append (ending cs : List Char) : before? ending (cs ++ ending) = some cs := by
  have hafter : after? ending.reverse (cs ++ ending).reverse = some cs.reverse :=
    after?_eq_some_iff.2 List.reverse_append
  rw [before?, hafter, Option.map_some, List.reverse_reverse]

theorem eq_of_before? {ending : List Char} (h : before? ending cs = some rest) :
    cs = rest ++ ending := by
  obtain ⟨reversed, hreversed, rfl⟩ := Option.map_eq_some_iff.1 h
  have hend := congrArg List.reverse (after?_eq_some_iff.1 hreversed)
  rwa [List.reverse_reverse, List.reverse_append, List.reverse_reverse] at hend

/-- The characters of a count are digits, and a plus sign. -/
theorem isDigit_of_count? {i : Nat} (h : count? cs = some i) (hc : c ∈ cs) :
    c = '+' ∨ c.isDigit = true := by
  unfold count? at h
  extract_lets digits at h
  have hdigit : c = '+' ∨ c ∈ digits := by
    unfold digits
    split
    · exact List.mem_cons.1 hc
    · exact .inr hc
  obtain ⟨hdigits, _⟩ := Option.ite_none_left_eq_some.1 h
  simp only [Bool.or_eq_true, Bool.not_eq_true', not_or, Bool.not_eq_false, List.all_eq_true]
    at hdigits
  exact hdigit.imp_right (hdigits.2 c)

end Text

/-! ## Paths -/

namespace Path

/-- The characters of paths. -/
def isPathChar (c : Char) : Bool :=
  isKeyChar c || isBlank c || c ∈ ['.', '[', ']', '+']

theorem isPathChar_of_isDigit (h : c.isDigit = true) : isPathChar c = true := by
  simp [isPathChar, isKeyChar, Char.isAlphanum, h]

theorem isPathChar_of_indices? {fuel : Nat} {is : List Nat} (h : indices? fuel cs = some is) :
    ∀ c ∈ cs, isPathChar c = true := by
  induction fuel generalizing cs is with
  | zero =>
    cases cs with
    | nil => exact nofun
    | cons d cs => cases h
  | succ fuel ih =>
    cases cs with
    | nil => exact nofun
    | cons d cs =>
      simp only [indices?, Option.bind_eq_bind, Option.bind_eq_some_iff] at h
      obtain ⟨inner, hinner, ⟨text, rest⟩, hcut, i, hcount, more, hmore, _⟩ := h
      rw [after?_eq_some_iff.1 hinner, eq_append_of_cutAt? hcut]
      obtain ⟨before, after, htext, hbefore, hafter⟩ := exists_eq_trim text
      have hindex : ∀ c ∈ text, isPathChar c = true := by
        intro c hc
        rw [htext, List.append_assoc, List.mem_append, List.mem_append] at hc
        rcases hc with hc | hc | hc
        · simp [isPathChar, hbefore c hc]
        · rcases isDigit_of_count? hcount hc with rfl | hdigit
          · decide
          · exact isPathChar_of_isDigit hdigit
        · simp [isPathChar, hafter c hc]
      simp only [List.forall_mem_append, List.forall_mem_singleton]
      exact ⟨by decide, ⟨hindex, by decide⟩, ih hmore⟩

/-- A part of a path is made of such characters. -/
theorem isPathChar_of_part? {segments : List Segment} (h : part? cs = some segments) :
    ∀ c ∈ cs, isPathChar c = true := by
  obtain ⟨indices, hindices, hkey, _, _⟩ := part?_eq_some h
  intro c hc
  rw [← List.takeWhile_append_dropWhile (p := (· != '[')) (l := cs), List.mem_append] at hc
  rcases hc with hc | hc
  · simp [isPathChar, List.all_eq_true.1 hkey c hc]
  · exact isPathChar_of_indices? hindices c hc

theorem isPathChar_of_parts? {parts : List (List Char)} {segments : List Segment}
    (h : parts? parts = some segments) : ∀ part ∈ parts, ∀ c ∈ part, isPathChar c = true := by
  induction parts generalizing segments with
  | nil => exact nofun
  | cons part parts ih =>
    simp only [parts?, Option.bind_eq_bind, Option.bind_eq_some_iff] at h
    obtain ⟨first, hfirst, more, hmore, _⟩ := h
    rw [List.forall_mem_cons]
    exact ⟨isPathChar_of_part? hfirst, ih hmore⟩

/-- A part of a path that starts with a root starts with a character of keys that is no digit. -/
theorem exists_of_part?_root {first : Segment} {segments : List Segment}
    (h : part? cs = some (first :: segments)) (hroot : first.isRoot = true) :
    ∃ c rest, cs = c :: rest ∧ isKeyChar c = true ∧ c.isDigit = false := by
  obtain ⟨_, _, hkey, _, _⟩ := part?_eq_some h
  rw [eq_key_of_part? h hroot] at hroot
  cases hchars : cs.takeWhile (· != '[') with
  | nil => simp [Segment.isRoot, hchars] at hroot
  | cons c key =>
    obtain ⟨rest, hrest⟩ := List.takeWhile_prefix (p := (· != '[')) (l := cs)
    rw [hchars] at hrest hkey
    refine ⟨c, key ++ rest, hrest.symm, List.all_eq_true.1 hkey c List.mem_cons_self, ?_⟩
    simpa [Segment.isRoot, hchars] using hroot

/-- A path that is read is made of such characters, and starts with one of keys that is no digit. -/
theorem isPathChar_of_isClean (h : IsClean path) :
    (∀ c ∈ path.toList, isPathChar c = true) ∧
      ∃ c rest, path.toList = c :: rest ∧ isKeyChar c = true ∧ c.isDigit = false := by
  obtain ⟨hvalid, htrim⟩ := h
  obtain ⟨segments, hsegments⟩ := Option.isSome_iff_exists.1 hvalid
  obtain ⟨hparts, first, more, rfl, hroot⟩ := parse?_eq_some hsegments
  rw [htrim] at hparts
  constructor
  · intro c hc
    rcases eq_or_mem_of_splitOn '.' hc with rfl | ⟨piece, hpiece, hmem⟩
    · decide
    · exact isPathChar_of_parts? hparts piece hpiece c hmem
  · obtain ⟨piece, more, hsplit⟩ := List.exists_cons_of_ne_nil (splitOn_ne_nil '.' path.toList)
    obtain ⟨tail, htail⟩ := prefix_of_splitOn hsplit
    rw [hsplit] at hparts
    obtain ⟨own, hown⟩ := first_of_parts? hparts
    obtain ⟨c, rest, rfl, hc⟩ := exists_of_part?_root hown hroot
    exact ⟨c, rest ++ tail, htail.symm, hc⟩

/-- No character of a path is part of a symbol, or opens or closes anything. -/
theorem isPlain_of_isPathChar (h : isPathChar c = true) : Expression.isPlain c = true :=
  Expression.isPlain_of_forall (p := (isPathChar · = true)) (by decide) h

/-- A path has no part in symbols, and opens or closes nothing. -/
theorem isPlain_of_isClean (h : IsClean path) : ∀ c ∈ path.toList, Expression.isPlain c = true :=
  fun c hc => isPlain_of_isPathChar ((isPathChar_of_isClean h).1 c hc)

end Path

/-! ## Operands -/

namespace Expression

theorem operand_singleQuoted (cs : List Char) :
    operand (singleQuoted cs) = .ok (.literal (.string (String.ofList cs))) := by
  have hquoted : singleQuoted? (singleQuoted cs) = some cs := by
    rw [singleQuoted?, singleQuoted, List.cons_append]
    exact before?_append ['\''] cs
  rw [operand, hquoted]

theorem singleQuoted?_eq_none (h : cs.head? ≠ some '\'') : singleQuoted? cs = none := by
  rw [singleQuoted?, after?_eq_none_of_head? h]
  rfl

/-- A path is read as such, unless it is a word for a value. -/
theorem operand_path (h : Path.IsClean path) (hword : path ∉ ["null", "true", "false"]) :
    operand path.toList = .ok (.path path) := by
  obtain ⟨_, c, rest, hchars, hkey, hdigit⟩ := Path.isPathChar_of_isClean h
  have hne : ∀ d ∈ ['\'', '[', '{', '"', '-'], c ≠ d := by
    rintro d hd rfl
    have hnone : ∀ d ∈ ['\'', '[', '{', '"', '-'], Path.isKeyChar d = false := by decide
    rw [hnone c hd] at hkey
    cases hkey
  have hquoted : singleQuoted? path.toList = none := by
    refine singleQuoted?_eq_none ?_
    rw [hchars]
    exact fun heq => hne '\'' (by decide) (Option.some.inj heq)
  have hliteral : looksLiteral path.toList = false := by
    have hnull : path.toList ≠ "null".toList := fun heq => hword (by simp [String.toList_inj.1 heq])
    have htrue : path.toList ≠ "true".toList := fun heq => hword (by simp [String.toList_inj.1 heq])
    have hfalse : path.toList ≠ "false".toList :=
      fun heq => hword (by simp [String.toList_inj.1 heq])
    rw [hchars] at hnull htrue hfalse ⊢
    simp only [looksLiteral, hdigit, Bool.or_eq_false_iff, beq_eq_false_iff_ne]
    exact ⟨⟨⟨⟨⟨⟨⟨hne '[' (by decide), hne '{' (by decide)⟩, hne '"' (by decide)⟩,
      hne '-' (by decide)⟩, trivial⟩, hnull⟩, htrue⟩, hfalse⟩
  rw [operand, hquoted]
  simp only [hliteral, String.ofList_toList, h.1, Bool.false_eq_true, if_false, if_true]

/-- Texts that do not start with a parenthesis are not enclosed in parentheses. -/
theorem enclosed?_eq_none (h : cs.head? ≠ some '(') : enclosed? cs = none := by
  rw [enclosed?, after?_eq_none_of_head? h]
  rfl

/-- What is enclosed in parentheses stands between them. -/
theorem eq_of_enclosed? (h : enclosed? cs = some rest) : cs = parens rest := by
  simp only [enclosed?, Option.bind_eq_bind, Option.bind_eq_some_iff] at h
  obtain ⟨tail, htail, inner, hinner, hrest⟩ := h
  obtain ⟨_, hrest⟩ := Option.ite_none_right_eq_some.1 hrest
  cases hrest
  rw [after?_eq_some_iff.1 htail, eq_of_before? hinner]
  rfl

/-- Parentheses enclose what is between them, if none of those in it closes them. -/
theorem enclosed?_parens (cs : List Char) :
    enclosed? (parens cs) = if neverCloses 0 cs then some cs else none := by
  rw [enclosed?, parens, List.cons_append]
  show (before? [')'] (cs ++ [')']) >>= fun inner =>
    if neverCloses 0 inner then some inner else none) = _
  rw [before?_append]
  rfl

/-- A text in which no symbol stands is an operand, if it is neither negated nor enclosed. -/
theorem node_of_operand (hun : Unbroken .start cs) (htrim : Trimmed cs)
    (hbang : cs.head? ≠ some '!') (hparen : cs.head? ≠ some '(') : node cs = operand cs := by
  rw [node_unbroken htrim hbang hun, enclosed?_eq_none hparen]

end Expression

end Conduit
