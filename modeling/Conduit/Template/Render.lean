import Conduit.Expression.Eval
import Conduit.Template.Basic

/-!
# Rendering templates

`Template.render` puts the values of the expressions of a template in their places. A whole variable
is put in as the text of its content, so lists and records read naturally; every other expression is
put in as its value. `Expression.evaluate` gives the text of the value of a bare expression.
-/

namespace Conduit

/-- A template or expression that has no text: it cannot be read, or it reads a variable that has no
such value. -/
inductive TemplateError where
  | unreadable (error : SyntaxError)
  | undefined (source : String) (error : Undefined)
  deriving DecidableEq

/-- An error in words. -/
def TemplateError.message : TemplateError → String
  | unreadable e => e.message
  | undefined source e =>
    s!"template '{source}' references undefined variable '{e.name}': {e.cause.message}"

namespace Expression

/-- The variable that an expression is, if it is nothing but a path of one segment. -/
def whole? : Expression → Option String
  | path p => match Path.parse? p with
    | some [_] => some p
    | _ => none
  | _ => none

/-- The text of an expression inside a template. -/
def render (m : Memory) (e : Expression) : Except Undefined String :=
  match e.whole? with
  | some name => do
    let s ← (m.get name).mapError (⟨name, ·⟩)
    return s.content.rendered
  | none => do
    let v ← e.eval m
    return v.plain

end Expression

namespace Template

/-- The text of a piece of the template `source`. -/
def renderPiece (m : Memory) (source : String) : Piece → Except TemplateError String
  | .literal text => .ok text
  | .expression text => do
    let e ← (Expression.parse? text).mapError fun fault => .unreadable ⟨text, fault⟩
    (e.render m).mapError (.undefined source)

/-- The text of several pieces of the template `source`. -/
def renderPieces (m : Memory) (source : String) : List Piece → Except TemplateError String
  | [] => .ok ""
  | p :: ps => do
    let text ← renderPiece m source p
    let more ← renderPieces m source ps
    return text ++ more

/-- The text of a template. -/
def render (m : Memory) (source : String) : Except TemplateError String := do
  let pieces ← (parse? source).mapError .unreadable
  renderPieces m source pieces

end Template

/-- The text of the value of a bare expression. -/
def Expression.evaluate (m : Memory) (source : String) : Except TemplateError String := do
  let bare := normalize source
  let e ← (Expression.parse? bare).mapError fun fault => .unreadable ⟨bare, fault⟩
  let v ← (e.eval m).mapError (.undefined source)
  return v.plain

end Conduit
