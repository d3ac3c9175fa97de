import Conduit.Content.Read
import Conduit.Generator.Basic
import Conduit.Text.Search

/-!
# Scripted generators

A scripted generator answers from rules, so that a bundle can be tried out without a model. The
first rule whose text occurs in the subject of a request gives the answer: the subject is the user's
part of a prompt, the description of an image or the place of a document. Where no rule does, a
prompt for text is echoed, and every other request fails.
-/

namespace Conduit

/-- What to answer where a text occurs in the subject: a value or the reason for a failure, after a
delay in milliseconds. -/
structure Rule where
  part : String
  answer : Except String Json
  delay : Nat := 0

/-- The rules for each kind of request. -/
structure Script where
  text : List Rule := []
  object : List Rule := []
  objects : List Rule := []
  images : List Rule := []
  pages : List Rule := []

namespace Script

/-- The first rule that applies to a subject. -/
def rule? (rules : List Rule) (subject : String) : Option Rule :=
  rules.find? fun r => Text.contains r.part.toList subject.toList

/-- The reply of a rule: what `read` makes of its value. -/
def reply {α : Type} (operation : String) (read : Json → Except BackendError α) (r : Rule) :
    Reply α :=
  { answer := match r.answer with
      | .ok v => read v
      | .error reason => .error (.failed operation reason)
    delay := r.delay }

/-- The reply to a request that a script may have no rule for. -/
def scripted {α : Type} (operation : String) (rules : List Rule) (subject : String)
    (read : Json → Except BackendError α) : Reply α :=
  match rule? rules subject with
  | some r => reply operation read r
  | none => { answer := .error (.unavailable "no script") }

/-- A value of the right form, or the failure that there is none. -/
def formed {α : Type} : Option α → Except BackendError α
  | some a => .ok a
  | none => .error (.unavailable "bad script")

/-- The text that repeats a prompt. -/
def echo (prompt : LlmPrompt) : String :=
  "echo: " ++ prompt.user.getD ""

end Script

/-- The generator that answers from a script. -/
def Generator.scripted (s : Script) : Generator where
  text prompt :=
    match Script.rule? s.text (prompt.user.getD "") with
    | some r => Script.reply "text" (fun v => .ok (v.text?.getD (Script.echo prompt))) r
    | none => { answer := .ok (Script.echo prompt) }
  object prompt _ := Script.scripted "object" s.object (prompt.user.getD "") .ok
  objects prompt _ _ :=
    Script.scripted "objects" s.objects (prompt.user.getD "") fun v =>
      Script.formed (v.list? some)
  images prompt _ :=
    Script.scripted "images" s.images prompt fun v => Script.formed (v.list? Image.ofJson?)
  pages document _ :=
    Script.scripted "pages" s.pages document.url fun v => Script.formed (v.list? Page.ofJson?)

end Conduit
