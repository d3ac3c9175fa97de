import Conduit.Content.Read

/-!
# Placeholders

A dry run works on placeholders: made-up content of the right form. A field takes its default, else
its first choice, else a value of its type; a list has a given number of items and a dictionary has
none. Records are nested at most as deep as there are structures, which is enough wherever no
structure contains itself.
-/

namespace Conduit

namespace Placeholder

/-- The date in placeholders. -/
def date : String := "2024-01-01"

/-- The place to which the links in placeholders go. -/
def site : String := "https://dry-run.invalid"

/-- The text that stands for something. -/
def label (name : String) : String := "dry run " ++ name

/-- The image number `i`. -/
def image (i : Nat) : Image := { url := s!"{site}/image-{i}.png" }

/-- The number one. -/
def one : JsonInteger := ⟨1, by decide, by decide⟩

/-- A value of a field type, in a field of the given name. `nested` makes records. -/
def ofType (nested : String → Json) (size : Nat) (name : String) : FieldType → Json
  | .text => .string (label name)
  | .integer => .number (.integer one)
  | .boolean => .bool false
  | .number => .number (.real (.ofNat 1))
  | .date => .string date
  | .anyList => .array []
  | .listOf item => .array (List.replicate size (ofType nested size name item))
  | .anyDict _ | .dictOf _ _ => .object []
  | .nested s => nested s

/-- A value of a field: its default, else its first choice, else a value of its type. -/
def ofField (nested : String → Json) (size : Nat) (f : Field) : Json :=
  match f.default, f.choices with
  | some v, _ => v
  | none, choice :: _ => .string choice
  | none, [] => ofType nested size f.name f.type

/-- A record with the given fields. -/
def ofFields (nested : String → Json) (size : Nat) (fields : List Field) : Json :=
  .ofMembers (fields.map fun f => (f.name, ofField nested size f))

/-- A record of a structure, in which records are nested at most `n` deep. -/
def recordWithin (r : Registry) (size : Nat) : Nat → String → Json
  | 0, _ => .null
  | n + 1, name => ofFields (recordWithin r size n) size (r.allFields name).values

/-- A record of a structure. -/
def record (r : Registry) (size : Nat) (name : String) : Json :=
  recordWithin r size (r.structures.size + 1) name

/-- A value of a field. -/
def field (r : Registry) (size : Nat) (f : Field) : Json :=
  ofField (record r size) size f

/-- A record with the given fields. -/
def object (r : Registry) (size : Nat) (fields : Dict Field) : Json :=
  ofFields (record r size) size fields.values

/-- Content of a structure, for a concept of the given name. -/
def content (r : Registry) (size : Nat) (concept name : String) : Except RecordError Content :=
  let text := label concept
  if name = Structure.textContent then .ok (.text text)
  else if name = Structure.numberContent then .ok (.number (.ofNat 1))
  else if name = Structure.imageContent then .ok (.image (image 0))
  else if name = Structure.pdfContent then .ok (.pdf s!"{site}/document.pdf")
  else if name = Structure.textAndImagesContent then .ok (.textAndImages ⟨some text, []⟩)
  else if name = Structure.pageContent then .ok (.page ⟨⟨some text, []⟩, none⟩)
  else if name = Structure.llmPromptContent then .ok (.llmPrompt ⟨none, some text, []⟩)
  else if name = Structure.imgGenPromptContent then .ok (.imgGenPrompt text)
  else if name = Structure.dynamicContent then .ok (.dynamic (.string text))
  else r.read name (record r size name)

end Placeholder

end Conduit
