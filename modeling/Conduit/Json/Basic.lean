import Conduit.Double.Basic

/-!
# JSON values

A number is an integer of 64 bits or a finite binary64 number, and the two classes are never equal:
`1` and `1.0` are different values. An object is a list of members; in canonical form its keys are
distinct and sorted by code point, which is also the order of their UTF-8 bytes. `Json.equal` is
equality as values; it differs from `=` only in that the two floating zeros are equal.
-/

namespace Conduit

/-- An integer that fits 64 bits, signed or unsigned. -/
structure JsonInteger where
  val : Int
  lower : -Int.pow 2 63 ≤ val := by decide
  upper : val < Int.pow 2 64 := by decide
  deriving DecidableEq

/-- The integer of 64 bits that an integer is, if it fits. -/
def JsonInteger.ofInt? (n : Int) : Option JsonInteger :=
  if h : -Int.pow 2 63 ≤ n ∧ n < Int.pow 2 64 then some ⟨n, h.1, h.2⟩ else none

/-- A number of one of the two classes. -/
inductive JsonNumber where
  | integer (value : JsonInteger)
  | real (value : Double)
  deriving DecidableEq

namespace JsonNumber

/-- The nearest binary64 number. -/
def toDouble : JsonNumber → Double
  | integer n => Double.ofInt n.val
  | real x => x

/-- Equality as numbers of one class. -/
def equal : JsonNumber → JsonNumber → Bool
  | integer m, integer n => m == n
  | real x, real y => x.equal y
  | _, _ => false

/-- The count that a number is: an integer that is not negative. -/
def toCount? : JsonNumber → Option Nat
  | integer n => if 0 ≤ n.val then some n.val.toNat else none
  | real _ => none

end JsonNumber

/-- A JSON value. -/
inductive Json where
  | null
  | bool (value : Bool)
  | number (value : JsonNumber)
  | string (value : String)
  | array (items : List Json)
  | object (members : List (String × Json))
  deriving Inhabited

namespace Json

mutual

/-- Decides whether two values are the same. -/
def decEq : (v w : Json) → Decidable (v = w)
  | null, null => isTrue rfl
  | bool a, bool b => decidable_of_iff (a = b) (by simp)
  | number a, number b => decidable_of_iff (a = b) (by simp)
  | string a, string b => decidable_of_iff (a = b) (by simp)
  | array as, array bs =>
    have := decEqItems as bs
    decidable_of_iff (as = bs) (by simp)
  | object as, object bs =>
    have := decEqMembers as bs
    decidable_of_iff (as = bs) (by simp)
  | null, bool _ | null, number _ | null, string _ | null, array _ | null, object _
  | bool _, null | bool _, number _ | bool _, string _ | bool _, array _ | bool _, object _
  | number _, null | number _, bool _ | number _, string _ | number _, array _
  | number _, object _ | string _, null | string _, bool _ | string _, number _
  | string _, array _ | string _, object _ | array _, null | array _, bool _ | array _, number _
  | array _, string _ | array _, object _ | object _, null | object _, bool _
  | object _, number _ | object _, string _ | object _, array _ => isFalse nofun

/-- Decides whether two lists of items are the same. -/
def decEqItems : (vs ws : List Json) → Decidable (vs = ws)
  | [], [] => isTrue rfl
  | [], _ :: _ | _ :: _, [] => isFalse nofun
  | v :: vs, w :: ws =>
    have := decEq v w
    have := decEqItems vs ws
    decidable_of_iff (v = w ∧ vs = ws) (by simp)

/-- Decides whether two lists of members are the same. -/
def decEqMembers : (vs ws : List (String × Json)) → Decidable (vs = ws)
  | [], [] => isTrue rfl
  | [], _ :: _ | _ :: _, [] => isFalse nofun
  | (k, v) :: vs, (l, w) :: ws =>
    have := decEq v w
    have := decEqMembers vs ws
    decidable_of_iff ((k = l ∧ v = w) ∧ vs = ws) (by simp)

end

instance : DecidableEq Json := decEq

mutual

/-- Equality as values, member by member for objects in canonical form. -/
def equal : Json → Json → Bool
  | null, null => true
  | bool a, bool b => a == b
  | number a, number b => a.equal b
  | string a, string b => a == b
  | array as, array bs => equalItems as bs
  | object as, object bs => equalMembers as bs
  | _, _ => false

/-- Equality of two lists of items as values. -/
def equalItems : List Json → List Json → Bool
  | [], [] => true
  | v :: vs, w :: ws => equal v w && equalItems vs ws
  | _, _ => false

/-- Equality of two lists of members as values. -/
def equalMembers : List (String × Json) → List (String × Json) → Bool
  | [], [] => true
  | (k, v) :: vs, (l, w) :: ws => k == l && equal v w && equalMembers vs ws
  | _, _ => false

end

/-- The value of a key among the members of an object. -/
def member? (members : List (String × Json)) (key : String) : Option Json :=
  (members.find? (·.1 == key)).map (·.2)

/-- The value of a key is that of a member. -/
theorem mem_of_member? {members : List (String × Json)} {key : String} {v : Json}
    (h : member? members key = some v) : (key, v) ∈ members := by
  obtain ⟨⟨k, w⟩, hfind, rfl⟩ := Option.map_eq_some_iff.1 h
  have hk : k = key := by simpa using List.find?_some hfind
  rw [← hk]
  exact List.mem_of_find?_eq_some hfind

/-- The value of a key in an object; nothing has a key but an object. -/
def get? : Json → String → Option Json
  | object members, key => member? members key
  | _, _ => none

/-- Puts a member into a sorted list of members, in the place of one with the same key. -/
def insertMember (key : String) (value : Json) : List (String × Json) → List (String × Json)
  | [] => [(key, value)]
  | (k, v) :: rest =>
    if key < k then (key, value) :: (k, v) :: rest
    else if key = k then (key, value) :: rest
    else (k, v) :: insertMember key value rest

/-- Members in the order of their keys; of several with one key the last one stays. -/
def sortMembers (members : List (String × Json)) : List (String × Json) :=
  members.foldl (fun sorted (k, v) => insertMember k v sorted) []

mutual

/-- The canonical form of a value: the members of every object sorted, with distinct keys. -/
def canonical : Json → Json
  | array items => array (canonicalItems items)
  | object members => object (sortMembers (canonicalMembers members))
  | v => v

/-- The canonical forms of a list of items. -/
def canonicalItems : List Json → List Json
  | [] => []
  | v :: vs => canonical v :: canonicalItems vs

/-- Members with canonical values, in their own order. -/
def canonicalMembers : List (String × Json) → List (String × Json)
  | [] => []
  | (k, v) :: vs => (k, canonical v) :: canonicalMembers vs

end

/-- The integer `n`, for a small `n`. -/
def ofNat (n : Nat) : Json :=
  match JsonInteger.ofInt? n with
  | some i => number (.integer i)
  | none => number (.real (Double.ofNat n))

/-- The object with the given members. -/
def ofMembers (members : List (String × Json)) : Json :=
  object (sortMembers members)

/-- The members of an object that has some of them. -/
def ofMembers? (members : List (String × Option Json)) : Json :=
  ofMembers (members.filterMap fun (k, v) => v.map (k, ·))

end Json

end Conduit
