import Mathlib.Data.List.TakeWhile
import Conduit.Path
import Conduit.Proofs.Json.RoundTrip
import Conduit.Proofs.Structure.Tokens
import Conduit.Proofs.Text.Trim

/-!
# Paths and their segments

A path is read as segments of a certain form (`Path.IsPath`): the name of a variable first, then
keys and indices. Such segments can be written (`Path.text`), and what is read of their text are
these segments again (`Path.parse?_of_isPath`). A path starts with the variable that `Path.root`
finds in it, which looks for the first separator and reads nothing of what follows
(`Path.exists_of_parse?`).

A text is cut at its points before the brackets in its parts are read. So a text of segments is
taken apart from its front: the part in front of the next point is a key with indices
(`Path.part?_text`), to which each further index is added until a key starts the next part
(`Path.parts?_text`).
-/

namespace Conduit

open Text

variable {i : Nat} {cs : List Char} {is : List Nat} {segments : List Segment} {x path : String}

/-! ## Texts -/

namespace Text

variable {sep : Char} {before after piece : List Char} {more : List (List Char)}

/-- A text is cut at the first separator in it. -/
theorem splitOn_append (h : sep ∉ before) (after : List Char) :
    splitOn sep (before ++ sep :: after) = before :: splitOn sep after := by
  induction before with
  | nil => rw [List.nil_append, splitOn, if_pos rfl]
  | cons c before ih =>
    rw [List.mem_cons, not_or] at h
    rw [List.cons_append, splitOn, if_neg (Ne.symm h.1), ih h.2]

/-- A text without the separator is one piece. -/
theorem splitOn_eq_singleton (h : sep ∉ cs) : splitOn sep cs = [cs] := by
  induction cs with
  | nil => rfl
  | cons c cs ih =>
    rw [List.mem_cons, not_or] at h
    rw [splitOn, if_neg (Ne.symm h.1), ih h.2]

/-- The first piece of a text is what comes before the first separator. -/
theorem takeWhile_of_splitOn (h : splitOn sep cs = piece :: more) :
    piece = cs.takeWhile (· != sep) := by
  induction cs generalizing piece more with
  | nil =>
    cases h
    rfl
  | cons c cs ih =>
    rw [splitOn] at h
    split at h
    · next heq =>
      cases h
      simp [heq]
    · next hne =>
      split at h
      · next hnil => exact absurd hnil (splitOn_ne_nil sep cs)
      · next hsplit =>
        cases h
        rw [List.takeWhile_cons_of_pos (by simpa using hne), ← ih hsplit]

/-- A text is cut at the first occurrence of a character. -/
theorem cutAt?_append (h : sep ∉ before) (after : List Char) :
    cutAt? [sep] (before ++ sep :: after) = some (before, after) := by
  induction before with
  | nil => simp [cutAt?, after?]
  | cons c before ih =>
    rw [List.mem_cons, not_or] at h
    simp [cutAt?, after?, h.1, ih h.2]

/-- The digits of a number below the bound of indices write that number. -/
theorem count?_digitsOf (h : i < wordBound) : count? (digitsOf i) = some i := by
  have hplus : ∀ rest, digitsOf i ≠ '+' :: rest := by
    intro rest heq
    have hdigit : Char.isDigit '+' = true :=
      Json.Parser.isDigit_of_mem_digitsOf (heq ▸ List.mem_cons_self)
    cases hdigit
  have hdigits : (digitsOf i).all Char.isDigit = true :=
    List.all_eq_true.2 fun _ => Json.Parser.isDigit_of_mem_digitsOf
  have hempty : (digitsOf i).isEmpty = false := by
    rw [List.isEmpty_eq_false_iff]
    exact Nat.toDigits_ne_nil
  unfold count?
  split
  · next rest heq => exact absurd heq (hplus rest)
  · simp [hempty, hdigits, Json.Parser.ofDigits_digitsOf, h]

/-- A count is below the bound. -/
theorem lt_of_count? (h : count? cs = some i) : i < wordBound := by
  unfold count? at h
  obtain ⟨_, h⟩ := Option.ite_none_left_eq_some.1 h
  obtain ⟨hlt, h⟩ := Option.ite_none_right_eq_some.1 h
  cases h
  exact hlt

/-- A character that is no digit is not in a number. -/
theorem not_mem_digitsOf {c : Char} (hc : c.isDigit = false) : c ∉ digitsOf i := by
  intro hmem
  rw [Json.Parser.isDigit_of_mem_digitsOf hmem] at hc
  cases hc

/-- There is no white space in a number. -/
theorem isBlank_of_mem_digitsOf {c : Char} (h : c ∈ digitsOf i) : isBlank c = false := by
  refine SourceToken.isBlank_of_isWordChar ?_
  simp [SourceToken.isWordChar, Char.isAlphanum, Json.Parser.isDigit_of_mem_digitsOf h]

end Text

/-! ## Segments as they are written -/

namespace Segment

/-- A segment as it is written after others: a key follows a point, an index is in brackets. -/
def text : Segment → String
  | key name => "." ++ name
  | index i => "[" ++ toString i ++ "]"

/-- A segment that can be written: a key is not empty and is made of the characters of keys, and an
index is a count. -/
def IsWritable : Segment → Prop
  | key name => name.toList ≠ [] ∧ ∀ c ∈ name.toList, Path.isKeyChar c = true
  | index i => i < wordBound

instance : DecidablePred IsWritable
  | key name => inferInstanceAs
      (Decidable (name.toList ≠ [] ∧ ∀ c ∈ name.toList, Path.isKeyChar c = true))
  | index i => inferInstanceAs (Decidable (i < wordBound))

theorem toList_text_index (i : Nat) : (index i).text.toList = '[' :: (digitsOf i ++ [']']) := by
  simp [text, digitsOf]

end Segment

namespace Path

/-- Segments that a path is read as: the variable, and what follows its name. -/
def IsPath : List Segment → Prop
  | [] => False
  | first :: rest => first.isRoot = true ∧ ∀ s ∈ first :: rest, s.IsWritable

instance : DecidablePred IsPath
  | [] => .isFalse id
  | first :: rest =>
    inferInstanceAs (Decidable (first.isRoot = true ∧ ∀ s ∈ first :: rest, s.IsWritable))

/-- Segments as they are written: points come between a key and what is before it only. -/
def text : List Segment → String
  | .key name :: rest => name ++ String.join (rest.map Segment.text)
  | segments => String.join (segments.map Segment.text)

/-- The characters of segments that follow others. -/
def following (segments : List Segment) : List Char :=
  segments.flatMap fun s => s.text.toList

@[simp] theorem following_nil : following [] = [] :=
  rfl

@[simp] theorem following_cons (s : Segment) (rest : List Segment) :
    following (s :: rest) = s.text.toList ++ following rest :=
  rfl

@[simp] theorem following_append (before after : List Segment) :
    following (before ++ after) = following before ++ following after :=
  List.flatMap_append

theorem length_le_following (segments : List Segment) :
    segments.length ≤ (following segments).length := by
  induction segments with
  | nil => exact Nat.zero_le _
  | cons s rest ih =>
    have hs : 0 < s.text.toList.length := by cases s <;> simp [Segment.text]
    rw [following_cons, List.length_append, List.length_cons]
    omega

theorem toList_text (name : String) (rest : List Segment) :
    (text (.key name :: rest)).toList = name.toList ++ following rest := by
  rw [text, String.toList_append, following, String.toList_join, List.flatMap_map]

theorem isBlank_of_isKeyChar {c : Char} (h : isKeyChar c = true) : isBlank c = false :=
  SourceToken.isBlank_of_isWordChar h

theorem not_mem_of_isKeyChar (h : ∀ c ∈ cs, isKeyChar c = true) {c : Char}
    (hc : isKeyChar c = false) : c ∉ cs := by
  intro hmem
  rw [h c hmem] at hc
  cases hc

/-! ## Parts as they are read -/

/-- No indices are read of no text only. -/
theorem eq_nil_of_indices? {fuel : Nat} {cs : List Char} (h : indices? fuel cs = some []) :
    cs = [] := by
  cases cs with
  | nil => rfl
  | cons c cs =>
    cases fuel with
    | zero => simp [indices?] at h
    | succ fuel => simp [indices?, Option.bind_eq_some_iff] at h

/-- What a part of a path is read as: its key, if it has one, and its indices. -/
theorem part?_eq_some {cs : List Char} {segments : List Segment} (h : part? cs = some segments) :
    ∃ indices, indices? cs.length (cs.dropWhile (· != '[')) = some indices ∧
      (cs.takeWhile (· != '[')).all isKeyChar = true ∧
      ((cs.takeWhile (· != '[')).isEmpty && indices.isEmpty) = false ∧
      segments = (if (cs.takeWhile (· != '[')).isEmpty then []
        else [.key (String.ofList (cs.takeWhile (· != '[')))]) ++ indices.map .index := by
  simp only [part?, Option.bind_eq_bind, Option.bind_eq_some_iff] at h
  obtain ⟨indices, hindices, h⟩ := h
  refine ⟨indices, hindices, ?_⟩
  split at h
  · cases h
  · next hempty =>
    split at h
    · cases h
    · next hkey =>
      refine ⟨by simpa using hkey, by simpa using hempty, ?_⟩
      exact (Option.some.inj h).symm

/-- A part of a path has a segment. -/
theorem part?_ne_nil {cs : List Char} {segments : List Segment} (h : part? cs = some segments) :
    segments ≠ [] := by
  obtain ⟨indices, _, _, hne, rfl⟩ := part?_eq_some h
  intro hnil
  obtain ⟨hkeys, hindices⟩ := List.append_eq_nil_iff.1 hnil
  rw [List.map_eq_nil_iff.1 hindices] at hne
  split at hkeys
  · next hk => simp [hk] at hne
  · cases hkeys

/-- The indices that are read are counts. -/
theorem lt_of_indices? {fuel : Nat} (h : indices? fuel cs = some is) :
    ∀ i ∈ is, i < wordBound := by
  induction fuel generalizing cs is with
  | zero =>
    cases cs with
    | nil =>
      cases h
      exact nofun
    | cons c cs => cases h
  | succ fuel ih =>
    cases cs with
    | nil =>
      cases h
      exact nofun
    | cons c cs =>
      simp only [indices?, Option.bind_eq_bind, Option.bind_eq_some_iff] at h
      obtain ⟨_, _, ⟨_, rest⟩, _, i, hcount, more, hmore, heq⟩ := h
      cases heq
      exact List.forall_mem_cons.2 ⟨lt_of_count? hcount, ih hmore⟩

/-- What a part of a path is read as can be written. -/
theorem isWritable_of_part? (h : part? cs = some segments) : ∀ s ∈ segments, s.IsWritable := by
  obtain ⟨indices, hindices, hkey, _, rfl⟩ := part?_eq_some h
  rw [List.forall_mem_append, List.forall_mem_map]
  refine ⟨?_, lt_of_indices? hindices⟩
  split
  · exact nofun
  · next hne =>
    refine List.forall_mem_singleton.2 ⟨?_, ?_⟩
    · simpa using hne
    · rw [String.toList_ofList]
      exact List.all_eq_true.1 hkey

theorem isWritable_of_parts? {parts : List (List Char)} (h : parts? parts = some segments) :
    ∀ s ∈ segments, s.IsWritable := by
  induction parts generalizing segments with
  | nil =>
    cases h
    exact nofun
  | cons part parts ih =>
    simp only [parts?, Option.bind_eq_bind, Option.bind_eq_some_iff] at h
    obtain ⟨own, hown, more, hmore, heq⟩ := h
    cases heq
    exact List.forall_mem_append.2 ⟨isWritable_of_part? hown, ih hmore⟩

/-- The first segment that is read is the first one of the first part. -/
theorem first_of_parts? {first : Segment} {part : List Char} {parts : List (List Char)}
    (h : parts? (part :: parts) = some (first :: segments)) :
    ∃ own, part? part = some (first :: own) := by
  simp only [parts?, Option.bind_eq_bind, Option.bind_eq_some_iff] at h
  obtain ⟨own, hown, others, _, heq⟩ := h
  obtain ⟨s, own, rfl⟩ := List.exists_cons_of_ne_nil (part?_ne_nil hown)
  cases heq
  exact ⟨own, hown⟩

/-- What a path is read as. -/
theorem parse?_eq_some (h : parse? path = some segments) :
    parts? (splitOn '.' (trim path.toList)) = some segments ∧
      ∃ first rest, segments = first :: rest ∧ first.isRoot = true := by
  unfold parse? at h
  split at h
  · next first rest hparts =>
    obtain ⟨hroot, h⟩ := Option.ite_none_right_eq_some.1 h
    cases h
    exact ⟨hparts, first, rest, rfl, hroot⟩
  · cases h

/-- A part of a path that starts with a root starts with the key before its first bracket. -/
theorem eq_key_of_part? {first : Segment} (h : part? cs = some (first :: segments))
    (hroot : first.isRoot = true) : first = .key (String.ofList (cs.takeWhile (· != '['))) := by
  obtain ⟨indices, _, _, _, heq⟩ := part?_eq_some h
  split at heq
  · cases indices with
    | nil => cases heq
    | cons i is =>
      cases heq
      cases hroot
  · exact (List.cons.inj heq).1

/-- What is read of a path can be written, and starts with the variable. -/
theorem exists_of_parse? (h : parse? path = some segments) :
    IsPath segments ∧ segments.head? = some (.key (root path)) := by
  obtain ⟨hparts, first, rest, rfl, hroot⟩ := parse?_eq_some h
  refine ⟨⟨hroot, isWritable_of_parts? hparts⟩, ?_⟩
  obtain ⟨piece, pieces, hsplit⟩ := List.exists_cons_of_ne_nil (splitOn_ne_nil '.' (trim path.toList))
  rw [hsplit] at hparts
  obtain ⟨own, hown⟩ := first_of_parts? hparts
  -- The key ends at the first bracket in front of the first point, so at the first of either.
  have hkey : piece.takeWhile (· != '[') =
      (trim path.toList).takeWhile fun c => c != '.' && c != '[' := by
    rw [takeWhile_of_splitOn hsplit, List.takeWhile_takeWhile]
    refine congrArg (List.takeWhile · (trim path.toList)) (funext fun c => ?_)
    rw [Bool.eq_iff_iff]
    simp [and_comm]
  rw [List.head?_cons, eq_key_of_part? hown hroot, hkey, root]

/-! ## Reading what is written -/

/-- Indices in brackets are read. -/
theorem indices?_following (h : ∀ i ∈ is, i < wordBound) {n : Nat} (hn : is.length ≤ n) :
    indices? n (following (is.map .index)) = some is := by
  induction is generalizing n with
  | nil => simp [indices?]
  | cons i is ih =>
    obtain ⟨n, rfl⟩ : ∃ m, n = m + 1 := ⟨n - 1, by simp at hn; omega⟩
    rw [List.forall_mem_cons] at h
    have htext : following ((i :: is).map .index) =
        '[' :: (digitsOf i ++ ']' :: following (is.map .index)) := by
      simp [Segment.toList_text_index]
    have htrim : trim (digitsOf i) = digitsOf i :=
      trim_eq_self (.of_forall Nat.toDigits_ne_nil fun _ => isBlank_of_mem_digitsOf)
    have hcut := cutAt?_append (not_mem_digitsOf (i := i) (c := ']') (by decide))
      (following (is.map .index))
    rw [htext]
    simp [indices?, after?, hcut, htrim, count?_digitsOf h.1,
      ih h.2 (Nat.le_of_succ_le_succ hn)]

/-- What stands before a bracket in a part of a path is its key. -/
theorem part?_append (hkey : (Segment.key x).IsWritable) {after : List Char}
    (hafter : ∀ c ∈ after.head?, c = '[')
    (hindices : indices? (x.toList ++ after).length after = some is) :
    part? (x.toList ++ after) = some (.key x :: is.map .index) := by
  have hchars : ∀ c ∈ x.toList, (c != '[') = true := fun c hc =>
    bne_iff_ne.2 fun heq => not_mem_of_isKeyChar hkey.2 (by decide) (heq ▸ hc)
  have hends : ∀ c ∈ after.head?, (c != '[') = false := fun c hc => by simp [hafter c hc]
  have hall : x.toList.all isKeyChar = true := List.all_eq_true.2 hkey.2
  have hne : x.toList.isEmpty = false := List.isEmpty_eq_false_iff.2 hkey.1
  rw [List.length_append] at hindices
  simp [part?, takeWhile_append_of_ends hchars hends,
    dropWhile_append_of_ends hchars hends, hindices, hall, hne]

theorem head?_following_index (is : List Nat) :
    ∀ c ∈ (following (is.map .index)).head?, c = '[' := by
  cases is with
  | nil => exact nofun
  | cons i is => simp [Segment.toList_text_index]

/-- A key and the indices after it are read as one part of a path. -/
theorem part?_text (hkey : (Segment.key x).IsWritable) (h : ∀ i ∈ is, i < wordBound) :
    part? (x.toList ++ following (is.map .index)) = some (.key x :: is.map .index) := by
  refine part?_append hkey (head?_following_index is) (indices?_following h ?_)
  have hlength := length_le_following (is.map .index)
  rw [List.length_map] at hlength
  rw [List.length_append]
  omega

/-- There is no point in a part of a path. -/
theorem point_not_mem (hkey : (Segment.key x).IsWritable) (is : List Nat) :
    '.' ∉ x.toList ++ following (is.map .index) := by
  rw [List.mem_append, following, List.flatMap_map, List.mem_flatMap]
  rintro (hmem | ⟨i, _, hmem⟩)
  · exact not_mem_of_isKeyChar hkey.2 (by decide) hmem
  · have hdigits : '.' ∉ digitsOf i := not_mem_digitsOf (by decide)
    simp [Segment.toList_text_index, hdigits] at hmem

/-- Segments that follow a key and indices are read after these. -/
theorem parts?_text {rest : List Segment} (hkey : (Segment.key x).IsWritable) (is : List Nat)
    (h : ∀ i ∈ is, i < wordBound) (hrest : ∀ s ∈ rest, s.IsWritable) :
    parts? (splitOn '.' (x.toList ++ following (is.map .index) ++ following rest)) =
      some (.key x :: is.map .index ++ rest) := by
  induction rest generalizing x is with
  | nil =>
    rw [following_nil, List.append_nil, splitOn_eq_singleton (point_not_mem hkey is)]
    simp [parts?, part?_text hkey h]
  | cons s rest ih =>
    rw [List.forall_mem_cons] at hrest
    cases s with
    | index i =>
      have hindices : ∀ j ∈ is ++ [i], j < wordBound :=
        List.forall_mem_append.2 ⟨h, List.forall_mem_singleton.2 hrest.1⟩
      simpa using ih hkey (is ++ [i]) hindices hrest.2
    | key y =>
      have hmore := ih hrest.1 [] nofun hrest.2
      have htext : following (.key y :: rest) = '.' :: (y.toList ++ following rest) := by
        simp [Segment.text]
      rw [List.map_nil, following_nil, List.append_nil] at hmore
      rw [htext, splitOn_append (point_not_mem hkey is), parts?, part?_text hkey h, hmore]
      simp

/-- There is no white space in segments as they are written. -/
theorem isBlank_of_mem_following (h : ∀ s ∈ segments, s.IsWritable) :
    ∀ c ∈ following segments, isBlank c = false := by
  induction segments with
  | nil => exact nofun
  | cons s rest ih =>
    rw [List.forall_mem_cons] at h
    rw [following_cons, List.forall_mem_append]
    refine ⟨?_, ih h.2⟩
    cases s with
    | key name =>
      have htext : (Segment.key name).text.toList = '.' :: name.toList := by simp [Segment.text]
      rw [htext, List.forall_mem_cons]
      exact ⟨by decide, fun c hc => isBlank_of_isKeyChar (h.1.2 c hc)⟩
    | index i =>
      rw [Segment.toList_text_index, List.forall_mem_cons, List.forall_mem_append,
        List.forall_mem_singleton]
      exact ⟨by decide, fun c => isBlank_of_mem_digitsOf, by decide⟩

/-- Segments that can be written are read back. -/
theorem parse?_of_isPath (h : IsPath segments) : parse? (text segments) = some segments := by
  cases segments with
  | nil => exact h.elim
  | cons first rest =>
    obtain ⟨hroot, hwritable⟩ := h
    obtain ⟨hfirst, hrest⟩ := List.forall_mem_cons.1 hwritable
    cases first with
    | index i => cases hroot
    | key x =>
      have htrim : trim (x.toList ++ following rest) = x.toList ++ following rest := by
        refine trim_eq_self (.of_forall ?_ (List.forall_mem_append.2 ⟨fun c hc => ?_,
          isBlank_of_mem_following hrest⟩))
        · simp [hfirst.1]
        · exact isBlank_of_isKeyChar (hfirst.2 c hc)
      have hparts := parts?_text hfirst [] nofun hrest
      rw [List.map_nil, following_nil, List.append_nil] at hparts
      rw [parse?, toList_text, htrim, hparts]
      simp [hroot]

/-- Segments are read of their text exactly if they are the name of a variable and keys and indices
after it; and whatever text is read as a path, its first segment is its root. -/
theorem parse?_text_root :
    (∀ segments, parse? (text segments) = some segments ↔ IsPath segments) ∧
    ∀ path segments, parse? path = some segments → segments.head? = some (.key (root path)) :=
  ⟨fun _ => ⟨fun h => (exists_of_parse? h).1, parse?_of_isPath⟩,
    fun _ _ h => (exists_of_parse? h).2⟩

/-- The segments of a path through an object with a number as a key. -/
def ticketPath : List Segment :=
  [.key "ticket", .key "0", .index 12, .key "tags"]

/-- White space around a path and in its brackets does not matter. -/
theorem parse?_text_root_ticket :
    (IsPath ticketPath ∧ parse? " ticket.0[ +12 ].tags " = some ticketPath) ∧
    parse? (text ticketPath) = some ticketPath ∧
    ticketPath.head? = some (.key (root " ticket.0[ +12 ].tags ")) := by
  have hpath : IsPath ticketPath := by decide
  have hread : parse? " ticket.0[ +12 ].tags " = some ticketPath := by decide +kernel
  exact ⟨⟨hpath, hread⟩, (parse?_text_root.1 _).2 hpath, parse?_text_root.2 _ _ hread⟩

end Path

end Conduit
