import Conduit.Text.Search

/-!
# Symbols outside quotation marks and parentheses

An operator of an expression counts only at the top level: outside single and double quotation marks
and outside parentheses. `cutTop?` cuts a text at the first occurrence of a symbol at the top level,
and `eq_append_of_cutTop?` says that nothing but the symbol is lost.
-/

namespace Conduit.Expression

open Text

/-- What is open at a place of a text: a quotation mark, if any, and so many parentheses. -/
structure Scan where
  quote : Option Char
  depth : Nat
  deriving DecidableEq

namespace Scan

/-- Nothing is open. -/
def start : Scan := ⟨none, 0⟩

/-- Whether a place is at the top level. -/
def isTop (s : Scan) : Bool :=
  s.quote.isNone && s.depth == 0

/-- What is open after a character that opens or closes something; `none` for other characters. A
closing parenthesis without a partner is passed over. -/
def step? (s : Scan) (c : Char) : Option Scan :=
  match s.quote with
  | some q => if c = q then some { s with quote := none } else none
  | none =>
    if c = '\'' || c = '"' then some { s with quote := some c }
    else if c = '(' then some { s with depth := s.depth + 1 }
    else if c = ')' then some { s with depth := s.depth - 1 }
    else none

end Scan

/-- The texts before and after the first occurrence of a symbol at the top level. -/
def cutTop? (symbol : List Char) : Scan → List Char → Option (List Char × List Char)
  | _, [] => none
  | s, c :: cs =>
    match s.step? c with
    | some s => (cutTop? symbol s cs).map fun (left, right) => (c :: left, right)
    | none =>
      match if s.isTop then after? symbol (c :: cs) else none with
      | some rest => some ([], rest)
      | none => (cutTop? symbol s cs).map fun (left, right) => (c :: left, right)

/-- A cut at the top level loses nothing but the symbol it cuts at. -/
theorem eq_append_of_cutTop? {symbol : List Char} {s : Scan} {cs left right : List Char}
    (h : cutTop? symbol s cs = some (left, right)) : cs = left ++ symbol ++ right := by
  induction cs generalizing s left with
  | nil => simp [cutTop?] at h
  | cons c cs ih =>
    rw [cutTop?] at h
    split at h
    · obtain ⟨⟨l, r⟩, hlr, he⟩ := Option.map_eq_some_iff.1 h
      obtain ⟨rfl, rfl⟩ := Prod.mk.injEq .. ▸ he
      simp [ih hlr]
    · split at h
      · next rest hr =>
        obtain ⟨rfl, rfl⟩ := Prod.mk.injEq .. ▸ Option.some.injEq .. ▸ h
        split at hr
        · simpa using after?_eq_some_iff.1 hr
        · simp at hr
      · obtain ⟨⟨l, r⟩, hlr, he⟩ := Option.map_eq_some_iff.1 h
        obtain ⟨rfl, rfl⟩ := Prod.mk.injEq .. ▸ he
        simp [ih hlr]

/-- The lengths of the pieces and of the symbol add up. -/
theorem length_cutTop? {symbol : List Char} {s : Scan} {cs left right : List Char}
    (h : cutTop? symbol s cs = some (left, right)) :
    cs.length = left.length + symbol.length + right.length := by
  rw [eq_append_of_cutTop? h, List.length_append, List.length_append]

/-- Whether a symbol occurs at the top level. -/
def hasTop (symbol cs : List Char) : Bool :=
  (cutTop? symbol .start cs).isSome

end Conduit.Expression
