import Conduit.Content.Basic
import Conduit.Json.Decode
import Conduit.Structure.Record

/-!
# Content from values

`Registry.read` makes content of a structure from a JSON value. The built-in structures have forms
of content of their own; texts, numbers and image prompts may be given as bare values, and the
structure of dynamic content takes any value. Everything else is a record of its structure.
`Content.ofJson?` reads content of any form from a value that names its kind.
-/

namespace Conduit

/-- The image that a value describes. -/
def Image.ofJson? (v : Json) : Option Image := do
  let get ← v.fields? ["url", "caption"]
  return { url := ← Json.required Json.text? (get "url")
           caption := ← Json.optional Json.text? (get "caption") }

/-- The text with images that a value describes. -/
def TextAndImages.ofJson? (v : Json) : Option TextAndImages := do
  let get ← v.fields? ["text", "images"]
  return { text := ← Json.optional Json.text? (get "text")
           images := ← Json.defaulted [] (Json.list? Image.ofJson?) (get "images") }

/-- The page that a value describes. -/
def Page.ofJson? (v : Json) : Option Page := do
  let get ← v.fields? ["text_and_images", "page_view"]
  return { body := ← Json.required TextAndImages.ofJson? (get "text_and_images")
           view := ← Json.optional Image.ofJson? (get "page_view") }

/-- The prompt that a value describes. -/
def LlmPrompt.ofJson? (v : Json) : Option LlmPrompt := do
  let get ← v.fields? ["system_text", "user_text", "user_images"]
  return { system := ← Json.optional Json.text? (get "system_text")
           user := ← Json.optional Json.text? (get "user_text")
           images := ← Json.defaulted [] (Json.list? Image.ofJson?) (get "user_images") }

namespace Content

/-- The text of a field of a record. -/
def textOf (fields : Dict Json) (name : String) : String :=
  ((fields.get? name).bind Json.text?).getD ""

/-- The number of a field of a record. -/
def numberOf (fields : Dict Json) (name : String) : Double :=
  ((fields.get? name).bind Json.double?).getD .zero

/-- The content of a structure with the given fields, which have been validated. A record can then
only fail to have its own form if a list of images in it is null. -/
def ofFields? (name : String) (fields : Dict Json) : Option Content :=
  let object := Json.ofMembers fields.entries
  if name = Structure.textContent then some (.text (textOf fields "text"))
  else if name = Structure.numberContent then some (.number (numberOf fields "number"))
  else if name = Structure.imageContent then (Image.ofJson? object).map .image
  else if name = Structure.pdfContent then some (.pdf (textOf fields "url"))
  else if name = Structure.textAndImagesContent then
    (TextAndImages.ofJson? object).map .textAndImages
  else if name = Structure.pageContent then (Page.ofJson? object).map .page
  else if name = Structure.llmPromptContent then (LlmPrompt.ofJson? object).map .llmPrompt
  else if name = Structure.imgGenPromptContent then
    some (.imgGenPrompt (textOf fields "positive_text"))
  else some (.record name fields)

/-- The content that a bare value makes of a structure, if it needs no record. -/
def bare? (name : String) (value : Json) : Option Content :=
  if name = Structure.dynamicContent then some (.dynamic value)
  else match value with
    | .string s =>
      if name = Structure.textContent then some (.text s)
      else if name = Structure.imgGenPromptContent then some (.imgGenPrompt s)
      else none
    | .number n => if name = Structure.numberContent then some (.number n.toDouble) else none
    | _ => none

/-- The words for the forms of content, in their order. -/
def kinds : List String :=
  ["text", "number", "image", "pdf", "text_and_images", "page", "llm_prompt", "img_gen_prompt",
    "list", "structured", "dynamic"]

/-- The form of content that a value names: by its word or, in an item of a list, by its place in
the order of the forms. -/
def kind? (isItem : Bool) : Json → Option String
  | .string word => some word
  | .number n => if isItem then n.toCount?.bind (kinds[·]?) else none
  | _ => none

/-- The only field of a record. -/
def only? {α : Type} (name : String) (read : Json → Option α) (v : Json) : Option α := do
  Json.required read ((← v.fields? [name]) name)

/-- The content of a structure that a record describes, as it is. -/
def structured? (v : Json) : Option Content := do
  let get ← v.fields? ["structure", "fields"]
  let members ← Json.required (Json.members? some) (get "fields")
  return record (← Json.required Json.text? (get "structure")) (.ofList members)

/-- Content that a record of the given kind describes; `item` reads the items of a list. -/
def ofRecord? (item : Json → Option Content) (kind : String) (v : Json) : Option Content :=
  match kind with
  | "text" => (only? "text" Json.text? v).map text
  | "number" => (only? "number" Json.double? v).map number
  | "image" => (Image.ofJson? v).map image
  | "pdf" => (only? "url" Json.text? v).map pdf
  | "text_and_images" => (TextAndImages.ofJson? v).map textAndImages
  | "page" => (Page.ofJson? v).map page
  | "llm_prompt" => (LlmPrompt.ofJson? v).map llmPrompt
  | "img_gen_prompt" => (only? "positive_text" Json.text? v).map imgGenPrompt
  | "list" => (only? "items" (Json.list? item) v).map list
  | "structured" => structured? v
  | "dynamic" => (only? "value" some v).map dynamic
  | _ => none

/-- Content of any form: a record that also names its kind, or an array that begins with it. A list
may have lists in it, `nesting` deep at most. -/
def ofTagged? (nesting : Nat) (isItem : Bool) (v : Json) : Option Content :=
  match nesting with
  | 0 => none
  | nesting + 1 => do
    let (tag, body) ← match v with
      | .object members => (Json.member? members "kind").map (·, v)
      | .array (tag :: rest) => some (tag, .array rest)
      | _ => none
    ofRecord? (ofTagged? nesting true) (← kind? isItem tag) body

/-- Content of any form that a value describes. -/
def ofJson? (v : Json) : Option Content :=
  ofTagged? v.depth false v

end Content

/-- The content of a structure that a value makes. -/
def Registry.read (r : Registry) (name : String) (value : Json) : Except RecordError Content :=
  match Content.bare? name value with
  | some c => .ok c
  | none =>
    match value with
    | .object record => do
      let fields ← r.validate name record
      match Content.ofFields? name fields with
      | some c => return c
      | none => throw ⟨name, "", .nullList⟩
    | _ => .error ⟨name, "", .expectedRecord value⟩

end Conduit
