import Conduit.Proofs.Path
import Conduit.Proofs.Template.Reads

/-!
# Paths through lists

A path that goes on from a list with a field is followed in every item. `Memory.resolve_broadcast`
says what that is: the path has a value exactly if the same path has one in each item on its own,
which an index after the name of the variable selects, and its value is the array of those values,
where each that is an array is replaced by its elements (`Content.spread`).

The two sides are paths of different texts, both of which are read. That a text is read as the
variable, the index and the rest of the path comes from `Path.IsHead`, which says how the part of a
path before its first point is read, and that nothing in it is taken for a point or for white space.
-/

namespace Conduit

open Text

variable {x p k : String} {rest : List Segment} {i : Nat}

/-! ## Texts -/

/-- White space at the end of a text is not in what comes before another character. -/
theorem Text.trimEnd_append_cons {c : Char} (h : isBlank c = false) (before after : List Char) :
    trimEnd (before ++ c :: after) = before ++ c :: trimEnd after := by
  have hdrop : ((before ++ c :: after).reverse).dropWhile isBlank =
      after.reverse.dropWhile isBlank ++ c :: before.reverse := by
    rw [List.reverse_append, List.reverse_cons, List.append_assoc, List.singleton_append,
      List.dropWhile_append]
    split
    · next hempty =>
      rw [List.dropWhile_cons_of_neg (by simp [h]), List.isEmpty_iff.1 hempty, List.nil_append]
    · rfl
  unfold trimEnd
  rw [hdrop]
  simp

/-! ## Paths -/

namespace Path

/-- The path to an item of the list that a variable holds. -/
def item (x : String) (i : Nat) : String :=
  x ++ "[" ++ toString i ++ "]"

/-- The path that goes on with a suffix from the end of another. -/
def under (head suffix : String) : String :=
  head ++ "." ++ suffix

/-- A text of the characters of keys that does not start with a digit. -/
structure IsKey (x : String) : Prop where
  chars : ∀ c ∈ x.toList, isKeyChar c = true
  starts : ∃ c more, x.toList = c :: more ∧ c.isDigit = false

/-- What comes before the first point of a path: it is read as a variable and indices. -/
structure IsHead (head x : String) (indices : List Segment) : Prop where
  part : part? head.toList = some (.key x :: indices)
  key : IsKey x
  extends_key : ∃ after, head.toList = x.toList ++ after ∧ ∀ c ∈ after.head?, c = '['
  dotless : '.' ∉ head.toList

namespace IsKey

theorem not_mem (h : IsKey x) {c : Char} (hc : isKeyChar c = false) : c ∉ x.toList :=
  not_mem_of_isKeyChar h.chars hc

theorem isWritable (h : IsKey x) : (Segment.key x).IsWritable := by
  obtain ⟨c, more, hchars, _⟩ := h.starts
  exact ⟨hchars ▸ List.cons_ne_nil c more, h.chars⟩

theorem isRoot (h : IsKey x) : Segment.isRoot (.key x) = true := by
  obtain ⟨c, more, hchars, hdigit⟩ := h.starts
  simp [Segment.isRoot, hchars, hdigit]

/-- The name of a variable and indices are read as such. -/
theorem isHead_indices (h : IsKey x) (is : List Nat) (his : ∀ i ∈ is, i < wordBound)
    {head : String} (hhead : head.toList = x.toList ++ following (is.map .index)) :
    IsHead head x (is.map .index) where
  part := hhead ▸ part?_text h.isWritable his
  key := h
  extends_key := ⟨_, hhead, head?_following_index is⟩
  dotless := hhead ▸ point_not_mem h.isWritable is

/-- The name of a variable is read as that variable. -/
theorem isHead (h : IsKey x) : IsHead x x [] :=
  h.isHead_indices [] nofun (List.append_nil _).symm

/-- The path to an item is read as the variable and the index. -/
theorem isHead_item (h : IsKey x) (hi : i < wordBound) : IsHead (item x i) x [.index i] := by
  refine h.isHead_indices [i] (List.forall_mem_singleton.2 hi) ?_
  simp [item, digitsOf, Segment.toList_text_index]

end IsKey

namespace IsHead

variable {head : String} {indices : List Segment}

/-- White space is taken away from the end of the suffix only. -/
theorem trim_under (h : IsHead head x indices) (p : String) :
    trim (under head p).toList = head.toList ++ '.' :: trimEnd p.toList := by
  obtain ⟨after, hhead, _⟩ := h.extends_key
  obtain ⟨c, more, hchars, _⟩ := h.key.starts
  have hblank : isBlank c = false := isBlank_of_isKeyChar (h.key.chars c (by simp [hchars]))
  have hunder : (under head p).toList = head.toList ++ '.' :: p.toList := by simp [under]
  have hstart : trimStart (under head p).toList = (under head p).toList := by
    rw [hunder, hhead, hchars, List.cons_append, List.cons_append, trimStart_cons hblank]
  rw [trim, hstart, hunder, trimEnd_append_cons (by decide)]

/-- A path is read as what comes before its first point, and then as the parts of the suffix. -/
theorem parse?_under (h : IsHead head x indices) (p : String) :
    parse? (under head p) =
      (parts? (splitOn '.' (trimEnd p.toList))).map (.key x :: indices ++ ·) := by
  rw [parse?, h.trim_under, splitOn_append h.dotless, parts?, h.part]
  cases parts? (splitOn '.' (trimEnd p.toList)) with
  | none => rfl
  | some segments => simp [h.key.isRoot]

/-- The variable of a path is found whatever comes after its name. -/
theorem root_under (h : IsHead head x indices) (p : String) : root (under head p) = x := by
  obtain ⟨after, hhead, hafter⟩ := h.extends_key
  have hchars : ∀ c ∈ x.toList, (c != '.' && c != '[') = true := by
    intro c hc
    have hdot : c ≠ '.' := fun heq => h.key.not_mem (by decide) (heq ▸ hc)
    have hbracket : c ≠ '[' := fun heq => h.key.not_mem (by decide) (heq ▸ hc)
    simp [hdot, hbracket]
  have hends : ∀ c ∈ (after ++ '.' :: trimEnd p.toList).head?, (c != '.' && c != '[') = false := by
    intro c hc
    cases after with
    | nil =>
      cases hc
      rfl
    | cons d after =>
      cases hc
      rw [hafter _ rfl]
      rfl
  rw [root, h.trim_under, hhead, List.append_assoc, takeWhile_append_of_ends hchars hends,
    String.ofList_toList]

end IsHead

/-- The key that a path starts with is made of the characters of keys, and starts with no digit. -/
theorem isKey_of_parse? {path : String} {segments : List Segment}
    (h : parse? path = some (.key x :: segments)) : IsKey x := by
  obtain ⟨⟨hroot, hwritable⟩, _⟩ := exists_of_parse? h
  refine ⟨(hwritable _ List.mem_cons_self).2, ?_⟩
  unfold Segment.isRoot at hroot
  split at hroot
  · next heq =>
    cases heq
    split at hroot
    · cases hroot
    · next c more hchars => exact ⟨c, more, hchars, by simpa using hroot⟩
  · next heq => cases heq

/-- The suffix of a path is read alike after the variable and after an item of it. -/
theorem parse?_item (h : parse? (under x p) = some (.key x :: rest)) (hi : i < wordBound) :
    parse? (under (item x i) p) = some (.key x :: .index i :: rest) := by
  have hkey := isKey_of_parse? h
  rw [hkey.isHead.parse?_under] at h
  obtain ⟨segments, hsegments, heq⟩ := Option.map_eq_some_iff.1 h
  cases heq
  rw [(hkey.isHead_item hi).parse?_under, hsegments]
  rfl

end Path

/-! ## Items -/

namespace Content

variable {path : List Segment} {items : List Content}

/-- A path has a value in all items exactly if it has one in each. -/
theorem atEach?_eq_some_iff {all : List Json} :
    atEach? path items = some all ↔
      ∃ vs, List.Forall₂ (fun c v => c.at? path = some v) items vs ∧ all = vs.flatMap spread := by
  induction items generalizing all with
  | nil => simp [atEach?, eq_comm]
  | cons c items ih =>
    simp only [atEach?, Option.bind_eq_bind, Option.bind_eq_some_iff, ih,
      List.forall₂_cons_left_iff]
    constructor
    · rintro ⟨v, hv, more, ⟨vs, hvs, rfl⟩, hall⟩
      cases hall
      exact ⟨v :: vs, ⟨v, vs, hv, hvs, rfl⟩, rfl⟩
    · rintro ⟨_, ⟨v, vs, hv, hvs, rfl⟩, rfl⟩
      exact ⟨v, hv, _, ⟨vs, hvs, rfl⟩, rfl⟩

/-- Into a list, a field leads to its values in the items, joined. -/
theorem follow?_field_eq_some_iff {v : Json} (hk : Text.count? k.toList = none) :
    (list items).follow? (.key k) rest = some v ↔
      ∃ vs, List.Forall₂ (fun c v => c.at? (.key k :: rest) = some v) items vs ∧
        v = .array (vs.flatMap spread) := by
  simp only [follow?, Segment.itemIndex?, hk, Option.map_eq_some_iff, atEach?_eq_some_iff]
  constructor
  · rintro ⟨_, ⟨vs, hvs, rfl⟩, rfl⟩
    exact ⟨vs, hvs, rfl⟩
  · rintro ⟨vs, hvs, rfl⟩
    exact ⟨_, ⟨vs, hvs, rfl⟩, rfl⟩

end Content

namespace Memory

variable {m : Memory} {s : Stuff} {items : List Content}

/-- The value at the end of a path is looked for in the value of its variable. -/
theorem resolve_eq_ok_iff {path : String} {first : Segment} {v : Json}
    (hparse : Path.parse? path = some (.key x :: first :: rest)) (hroot : Path.root path = x)
    (hx : m.get x = .ok s) : m.resolve path = .ok v ↔ s.content.follow? first rest = some v := by
  rw [resolve, hparse, hroot, hx]
  simp only [ok_bind, List.tail_cons]
  cases hfollow : s.content.follow? first rest with
  | none =>
    simp only
    exact ⟨nofun, nofun⟩
  | some w =>
    simp only
    exact ⟨fun h => congrArg some (Except.ok.inj h),
      fun h => congrArg Except.ok (Option.some.inj h)⟩

/-- The value at the end of a path that goes on from an item is looked for in that item. -/
theorem resolve_item_eq_ok_iff {v : Json}
    (hpath : Path.parse? (Path.under x p) = some (.key x :: rest)) (hi : i < wordBound)
    (hx : m.get x = .ok s) (hitems : s.content = .list items) :
    m.resolve (Path.under (Path.item x i) p) = .ok v ↔ (items[i]?).bind (·.at? rest) = some v := by
  have hhead := (Path.isKey_of_parse? hpath).isHead_item hi
  rw [resolve_eq_ok_iff (Path.parse?_item hpath hi) (hhead.root_under p) hx, hitems]
  rfl

/-- A path through a list leads to the values at the end of the same path in the items, which an
index selects: it has a value if they all have, which is the array of those values, with the
elements of each that is an array in its place. -/
theorem resolve_broadcast
    (hpath : Path.parse? (Path.under x p) = some (.key x :: .key k :: rest))
    (hk : count? k.toList = none) (hx : m.get x = .ok s) (hitems : s.content = .list items)
    (hsize : items.length ≤ wordBound) :
    ((∃ v, m.resolve (Path.under x p) = .ok v) ↔
      ∀ i < items.length, ∃ v, m.resolve (Path.under (Path.item x i) p) = .ok v) ∧
    ∀ v, m.resolve (Path.under x p) = .ok v ↔
      ∃ vs : List Json, vs.length = items.length ∧
        (∀ (i : Nat) (hi : i < vs.length),
          m.resolve (Path.under (Path.item x i) p) = .ok vs[i]) ∧
        v = .array (vs.flatMap Content.spread) := by
  have hkey := Path.isKey_of_parse? hpath
  have hitem : ∀ i < items.length, ∀ v, m.resolve (Path.under (Path.item x i) p) = .ok v ↔
      (items[i]?).bind (·.at? (.key k :: rest)) = some v := fun i hi v =>
    resolve_item_eq_ok_iff hpath (Nat.lt_of_lt_of_le hi hsize) hx hitems
  have hvalue : ∀ v, m.resolve (Path.under x p) = .ok v ↔
      ∃ vs : List Json, vs.length = items.length ∧
        (∀ (i : Nat) (hi : i < vs.length),
          m.resolve (Path.under (Path.item x i) p) = .ok vs[i]) ∧
        v = .array (vs.flatMap Content.spread) := by
    intro v
    rw [resolve_eq_ok_iff hpath (hkey.isHead.root_under p) hx, hitems,
      Content.follow?_field_eq_some_iff hk]
    refine exists_congr fun vs => ?_
    rw [List.forall₂_iff_get, and_assoc]
    refine ⟨fun ⟨hlength, hvs, hv⟩ => ⟨hlength.symm, fun i hi => ?_, hv⟩,
      fun ⟨hlength, hvs, hv⟩ => ⟨hlength.symm, fun i hi hi' => ?_, hv⟩⟩
    · have hi' : i < items.length := hlength ▸ hi
      rw [hitem i hi', List.getElem?_eq_getElem hi', Option.bind_some]
      exact hvs i hi' hi
    · have hvalue := (hitem i hi _).1 (hvs i hi')
      rwa [List.getElem?_eq_getElem hi, Option.bind_some] at hvalue
  refine ⟨⟨?_, ?_⟩, hvalue⟩
  · rintro ⟨v, hv⟩ i hi
    obtain ⟨vs, hlength, hvs, _⟩ := (hvalue v).1 hv
    have hi' : i < vs.length := hlength ▸ hi
    exact ⟨vs[i], hvs i hi'⟩
  · intro hall
    choose value hvalues using hall
    refine ⟨_, (hvalue _).2 ⟨List.ofFn fun i : Fin items.length => value i i.isLt,
      List.length_ofFn, fun i hi => ?_, rfl⟩⟩
    rw [List.getElem_ofFn]
    exact hvalues i _

/-- Two reports of different forms, of which one has tags and one a single tag. -/
def reports : List Content :=
  [.dynamic (.object [("parts", .array [.object [("tags", .array [.string "a", .string "b"])]])]),
    .record "Report" (.ofList [("parts", .array [.object [("tags", .string "c")]])])]

/-- A memory that holds them. -/
def reportsMemory : Memory :=
  empty.set "reports" ⟨codeText 0, "reports", NativeConcept.dynamic.concept, .list reports⟩

theorem resolve_broadcast_reports :
    reportsMemory.resolve (Path.under "reports" "parts[0].tags") =
      .ok (.array [.string "a", .string "b", .string "c"]) := by
  have hpath : Path.parse? (Path.under "reports" "parts[0].tags") =
      some (.key "reports" :: .key "parts" :: [.index 0, .key "tags"]) := by decide +kernel
  have hget : reportsMemory.get "reports" =
      .ok ⟨codeText 0, "reports", NativeConcept.dynamic.concept, .list reports⟩ := rfl
  have hbroadcast := resolve_broadcast hpath (by decide) hget rfl (by decide)
  have hfirst : reportsMemory.resolve (Path.under (Path.item "reports" 0) "parts[0].tags") =
      .ok (.array [.string "a", .string "b"]) := eq_ok_of_toOption (by decide +kernel)
  have hsecond : reportsMemory.resolve (Path.under (Path.item "reports" 1) "parts[0].tags") =
      .ok (.string "c") := eq_ok_of_toOption (by decide +kernel)
  refine (hbroadcast.2 _).2 ⟨[.array [.string "a", .string "b"], .string "c"], rfl, ?_, rfl⟩
  rintro (_ | _ | i) hi
  · exact hfirst
  · exact hsecond
  · exact absurd hi (by simp)

end Memory

end Conduit
