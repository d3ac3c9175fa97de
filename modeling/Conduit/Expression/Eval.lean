import Conduit.Expression.Parser
import Conduit.Json.View
import Conduit.Memory.Path

/-!
# The value of an expression

An expression is evaluated against a memory. Equality compares values, or else their texts; a
conjunction or disjunction stops at the first part that decides it and is true or false.
-/

namespace Conduit

/-- A path that leads nowhere. -/
structure Undefined where
  name : String
  cause : MemoryError
  deriving DecidableEq

namespace Expression

mutual

/-- The value of an expression. -/
def eval (m : Memory) : Expression → Except Undefined Json
  | literal v => .ok v
  | path p => (m.resolve p).mapError (⟨Path.root p, ·⟩)
  | not e => do
    let v ← eval m e
    return .bool (!v.isTruthy)
  | equals l r => do
    let v ← eval m l
    let w ← eval m r
    return .bool (v.alike w)
  | notEquals l r => do
    let v ← eval m l
    let w ← eval m r
    return .bool (!v.alike w)
  | and parts => do
    let b ← evalAll m parts
    return .bool b
  | or parts => do
    let b ← evalAny m parts
    return .bool b

/-- Whether every part is true; the parts after one that is not are not evaluated. -/
def evalAll (m : Memory) : List Expression → Except Undefined Bool
  | [] => .ok true
  | e :: es => do
    let v ← eval m e
    if v.isTruthy then evalAll m es else return false

/-- Whether some part is true; the parts after it are not evaluated. -/
def evalAny (m : Memory) : List Expression → Except Undefined Bool
  | [] => .ok false
  | e :: es => do
    let v ← eval m e
    if v.isTruthy then return true else evalAny m es

end

end Expression

end Conduit
