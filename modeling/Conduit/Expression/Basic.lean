import Conduit.Json.Basic
import Conduit.Path

/-!
# Condition expressions

An expression combines attribute paths and JSON literals by equality, negation, conjunction and
disjunction. `Expression.freeNames` lists the variables that an expression reads, each once and in
the order of first use.
-/

namespace Conduit

/-- An expression over the variables of a memory. -/
inductive Expression where
  | literal (value : Json)
  | path (path : String)
  | not (inner : Expression)
  | equals (left right : Expression)
  | notEquals (left right : Expression)
  | and (parts : List Expression)
  | or (parts : List Expression)

/-- A list without the later occurrences of its members. -/
def distinct (names : List String) : List String :=
  names.foldl (fun found name => if name ∈ found then found else found ++ [name]) []

/-- Leaving out later occurrences leaves out no member. -/
@[simp] theorem mem_distinct {name : String} {names : List String} :
    name ∈ distinct names ↔ name ∈ names := by
  have h : ∀ found : List String,
      name ∈ names.foldl (fun found name => if name ∈ found then found else found ++ [name]) found ↔
        name ∈ found ∨ name ∈ names := by
    induction names with
    | nil => simp
    | cons n names ih =>
      intro found
      rw [List.foldl_cons, ih]
      split
      · next hn =>
        constructor
        · exact .imp_right (List.mem_cons_of_mem n)
        · rintro (hf | hm)
          · exact .inl hf
          · rcases List.mem_cons.1 hm with rfl | hm
            · exact .inl hn
            · exact .inr hm
      · simp [or_assoc]
  simpa [distinct] using h []

namespace Expression

mutual

/-- The roots of the paths of an expression, from left to right. -/
def roots : Expression → List String
  | literal _ => []
  | path p => [Path.root p]
  | not e => roots e
  | equals l r | notEquals l r => roots l ++ roots r
  | and parts | or parts => rootsOf parts

/-- The roots of the paths of several expressions. -/
def rootsOf : List Expression → List String
  | [] => []
  | e :: es => roots e ++ rootsOf es

end

/-- The variables that an expression reads, in the order of first use. -/
def freeNames (e : Expression) : List String :=
  distinct e.roots

end Expression

end Conduit
