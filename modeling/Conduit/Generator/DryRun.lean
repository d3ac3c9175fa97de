import Conduit.Content.Placeholder
import Conduit.Generator.Basic

/-!
# The generator of dry runs

In a dry run every request is answered by placeholders, at once and without failure. Records have
the fields of the schema; a list whose length is not given has the length of the lists of dry runs.
-/

namespace Conduit.Generator

/-- The number of characters of a prompt that a placeholder text repeats. -/
def excerptLength : Nat := 40

/-- The text that stands for the answer to a prompt. -/
def dryText (prompt : LlmPrompt) : String :=
  "dry run text for: " ++ String.ofList ((prompt.user.getD "").toList.take excerptLength)

/-- The page number `i` that stands for a page of a document. -/
def dryPage (document : Document) (views : Bool) (i : Nat) : Page :=
  { body := ⟨some s!"dry run page {i + 1} of {document.url}", []⟩
    view := if views then some (Placeholder.image i) else none }

/-- The generator of dry runs whose lists have the length `size`. -/
def dryRun (r : Registry) (size : Nat) : Generator where
  text prompt := { answer := .ok (dryText prompt) }
  object _ schema := { answer := .ok (Placeholder.object r size schema.fields) }
  objects _ schema count :=
    { answer := .ok (List.replicate (count.getD size) (Placeholder.object r size schema.fields)) }
  images _ count := { answer := .ok ((List.range count).map Placeholder.image) }
  pages document views := { answer := .ok ((List.range size).map (dryPage document views)) }

end Conduit.Generator
