import Conduit.Expression.Parser

/-!
# Templates

A template is text with expressions between `${{` and `}}`. `Template.parse?` splits its source into
pieces, `Template.freeNames?` lists the variables that its expressions read, each once and in the
order of first use. Each function reports the fault of the first piece that has one, together with
the source text that the fault is about.
-/

namespace Conduit

open Text

/-- A fault and the text in which it is. -/
structure SyntaxError where
  source : String
  fault : SyntaxFault
  deriving DecidableEq, Repr

/-- An error in words. -/
def SyntaxError.message (e : SyntaxError) : String :=
  s!"template syntax error in '{e.source}': {e.fault.message}"

/-- A piece of a template. -/
inductive Piece where
  | literal (text : String)
  | expression (source : String)
  deriving DecidableEq, Repr

/-- The expression that a piece interpolates, if it does. -/
def Piece.expression? : Piece → Except SyntaxError (Option Expression)
  | .literal _ => .ok none
  | .expression source =>
    ((Expression.parse? source).map some).mapError (⟨source, ·⟩)

namespace Template

/-- Opens an interpolated expression. -/
def opening : List Char := ['$', '{', '{']

/-- Closes an interpolated expression. -/
def closing : List Char := ['}', '}']

/-- A literal piece, if there is text for it. -/
def literal (cs : List Char) : List Piece :=
  if cs.isEmpty then [] else [.literal (String.ofList cs)]

/-- The pieces of a template. -/
def pieces (cs : List Char) : Except SyntaxFault (List Piece) :=
  match ho : cutAt? opening cs with
  | none => .ok (literal cs)
  | some (before, rest) =>
    match hc : cutAt? closing rest with
    | none => .error .unclosed
    | some (inner, rest') =>
      have := length_of_cutAt? ho
      have := length_of_cutAt? hc
      let source := trim inner
      if source.isEmpty then .error .emptyInterpolation
      else do
        let more ← pieces rest'
        return literal before ++ .expression (String.ofList source) :: more
  termination_by cs.length
  decreasing_by
    have : 0 < opening.length := by decide
    omega

/-- The pieces of a template, or its first fault. -/
def parse? (source : String) : Except SyntaxError (List Piece) :=
  (pieces source.toList).mapError (⟨source, ·⟩)

/-- The roots of the paths of the expressions of a template. -/
def roots? : List Piece → Except SyntaxError (List String)
  | [] => .ok []
  | p :: ps => do
    let e ← p.expression?
    let more ← roots? ps
    return (e.elim [] Expression.roots) ++ more

/-- The variables that a template reads, in the order of first use. -/
def freeNames? (source : String) : Except SyntaxError (List String) := do
  let pieces ← parse? source
  let roots ← roots? pieces
  return distinct roots

end Template

/-- The variables that a bare expression reads, in the order of first use. -/
def Expression.freeNames? (source : String) : Except SyntaxError (List String) :=
  let bare := normalize source
  ((Expression.parse? bare).map freeNames).mapError (⟨bare, ·⟩)

end Conduit
