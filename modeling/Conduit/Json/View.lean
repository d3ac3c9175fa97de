import Conduit.Json.Printer

/-!
# JSON values as conditions and as text

`Json.isTruthy` says when a value counts as true, `Json.plain` how it is written where text is
wanted: a string as it is, null as nothing, everything else as compact JSON.
-/

namespace Conduit.Json

/-- Whether a value counts as true: it is not null, false, zero, empty or the text `false`. -/
def isTruthy : Json → Bool
  | null => false
  | bool b => b
  | number n => !n.toDouble.isZero
  | string s => s != "" && s != "false"
  | array items => !items.isEmpty
  | object members => !members.isEmpty

/-- A value as text, a string without quotation marks. -/
def plain : Json → String
  | string s => s
  | null => ""
  | v => v.compact

/-- Two values are the same or read the same as text. -/
def alike (v w : Json) : Bool :=
  v.equal w || v.plain == w.plain

/-- How many containers are in one another, with the value itself. -/
def depth : Json → Nat
  | array items => depthItems items + 1
  | object members => depthMembers members + 1
  | _ => 0
where
  /-- The greatest depth among items. -/
  depthItems : List Json → Nat
    | [] => 0
    | v :: vs => max v.depth (depthItems vs)
  /-- The greatest depth among members. -/
  depthMembers : List (String × Json) → Nat
    | [] => 0
    | (_, v) :: vs => max v.depth (depthMembers vs)

/-- An item is less deep than its array. -/
theorem depth_lt_of_mem_items {items : List Json} {v : Json} (h : v ∈ items) :
    v.depth < (array items).depth := by
  have hle : v.depth ≤ depth.depthItems items := by
    induction items with
    | nil => exact absurd h List.not_mem_nil
    | cons w items ih =>
      rcases List.mem_cons.1 h with rfl | h
      · exact Nat.le_max_left _ _
      · exact Nat.le_trans (ih h) (Nat.le_max_right _ _)
  rw [depth]
  exact Nat.lt_succ_of_le hle

/-- The value of a member is less deep than its object. -/
theorem depth_lt_of_mem_members {members : List (String × Json)} {k : String} {v : Json}
    (h : (k, v) ∈ members) : v.depth < (object members).depth := by
  have hle : v.depth ≤ depth.depthMembers members := by
    induction members with
    | nil => exact absurd h List.not_mem_nil
    | cons w members ih =>
      rcases List.mem_cons.1 h with rfl | h
      · exact Nat.le_max_left _ _
      · exact Nat.le_trans (ih h) (Nat.le_max_right _ _)
  rw [depth]
  exact Nat.lt_succ_of_le hle

end Conduit.Json
