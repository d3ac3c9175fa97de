/-!
# Looking for a part of a text

Texts are lists of characters here. `cutAt? part cs` cuts a text at the first occurrence of a part;
`eq_append_of_cutAt?` says that nothing but the part itself is lost. `splitOn` cuts a text at every
occurrence of one character.
-/

namespace Conduit.Text

/-- What follows `start` in a text that begins with it. -/
def after? : List Char → List Char → Option (List Char)
  | [], cs => some cs
  | _ :: _, [] => none
  | p :: part, c :: cs => if p = c then after? part cs else none

/-- A text begins with `start` exactly if it is `start` followed by the rest. -/
theorem after?_eq_some_iff {start cs rest : List Char} :
    after? start cs = some rest ↔ cs = start ++ rest := by
  induction start generalizing cs with
  | nil => simp [after?, eq_comm]
  | cons p part ih =>
    cases cs with
    | nil => simp [after?]
    | cons c cs =>
      by_cases h : p = c
      · simp [after?, h, ih]
      · simp [after?, h, Ne.symm h]

/-- What comes before `ending` in a text that ends with it. -/
def before? (ending cs : List Char) : Option (List Char) :=
  (after? ending.reverse cs.reverse).map List.reverse

/-- The texts before and after the first occurrence of `part`. -/
def cutAt? (part : List Char) : List Char → Option (List Char × List Char)
  | [] => (after? part []).map (([], ·))
  | c :: cs =>
    match after? part (c :: cs) with
    | some rest => some ([], rest)
    | none => (cutAt? part cs).map fun (left, right) => (c :: left, right)

/-- A cut loses nothing but the part it cuts at. -/
theorem eq_append_of_cutAt? {part cs left right : List Char}
    (h : cutAt? part cs = some (left, right)) : cs = left ++ part ++ right := by
  induction cs generalizing left with
  | nil =>
    obtain ⟨rest, hr, he⟩ := Option.map_eq_some_iff.1 h
    obtain ⟨rfl, rfl⟩ := Prod.mk.injEq .. ▸ he
    simpa using after?_eq_some_iff.1 hr
  | cons c cs ih =>
    rw [cutAt?] at h
    split at h
    · next rest hr =>
      obtain ⟨rfl, rfl⟩ := Prod.mk.injEq .. ▸ Option.some.injEq .. ▸ h
      simpa using after?_eq_some_iff.1 hr
    · obtain ⟨⟨l, r⟩, hlr, he⟩ := Option.map_eq_some_iff.1 h
      obtain ⟨rfl, rfl⟩ := Prod.mk.injEq .. ▸ he
      simp [ih hlr]

/-- What a cut leaves is as long as the text without the part. -/
theorem length_of_cutAt? {part cs left right : List Char}
    (h : cutAt? part cs = some (left, right)) :
    cs.length = left.length + part.length + right.length := by
  simp [eq_append_of_cutAt? h, Nat.add_assoc]

/-- Whether a text has `part` in it. -/
def contains (part cs : List Char) : Bool :=
  (cutAt? part cs).isSome

/-- The pieces of a text between the occurrences of `sep`; there is always at least one. -/
def splitOn (sep : Char) : List Char → List (List Char)
  | [] => [[]]
  | c :: cs =>
    if c = sep then [] :: splitOn sep cs
    else match splitOn sep cs with
      | [] => [[c]]
      | piece :: pieces => (c :: piece) :: pieces

/-- A text has at least one piece. -/
theorem splitOn_ne_nil (sep : Char) (cs : List Char) : splitOn sep cs ≠ [] := by
  cases cs with
  | nil => simp [splitOn]
  | cons c cs =>
    rw [splitOn]
    split
    · simp
    · split <;> simp

end Conduit.Text
