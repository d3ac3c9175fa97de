import Conduit.Dict
import Conduit.Json.View

/-!
# Content

Content is what a variable holds: a text, a number, an image, a document, a prompt, a list of
content, a record of some structure, or a JSON value of any form. It has three views: as a record
(`Content.record`), in which paths are followed; as a value (`Content.value`), where it is referred
to as a whole; and as text (`Content.rendered`), where it is put into a prompt.
-/

namespace Conduit

/-- An image by its place, with an optional caption. -/
structure Image where
  url : String
  caption : Option String := none
  deriving DecidableEq

/-- A text with images, either of which may be missing. -/
structure TextAndImages where
  text : Option String
  images : List Image
  deriving DecidableEq

/-- A page of a document: what was read from it, and optionally how it looks. -/
structure Page where
  body : TextAndImages
  view : Option Image
  deriving DecidableEq

/-- A prompt for a language model. -/
structure LlmPrompt where
  system : Option String
  user : Option String
  images : List Image
  deriving DecidableEq

/-- What a variable holds. -/
inductive Content where
  | text (text : String)
  | number (number : Double)
  | image (image : Image)
  | pdf (url : String)
  | textAndImages (content : TextAndImages)
  | page (page : Page)
  | llmPrompt (prompt : LlmPrompt)
  | imgGenPrompt (text : String)
  | list (items : List Content)
  | record (name : String) (fields : Dict Json)
  | dynamic (value : Json)

instance : Inhabited Content := ⟨.text ""⟩

/-- An image as a JSON record. -/
def Image.toJson (i : Image) : Json :=
  .ofMembers? [("url", some (.string i.url)), ("caption", i.caption.map .string)]

/-- A text with images as a JSON record. -/
def TextAndImages.toJson (t : TextAndImages) : Json :=
  .ofMembers? [("text", t.text.map .string), ("images", some (.array (t.images.map Image.toJson)))]

/-- A page as a JSON record. -/
def Page.toJson (p : Page) : Json :=
  .ofMembers? [("text_and_images", some p.body.toJson), ("page_view", p.view.map Image.toJson)]

/-- A prompt as a JSON record. -/
def LlmPrompt.toJson (p : LlmPrompt) : Json :=
  .ofMembers? [("system_text", p.system.map .string), ("user_text", p.user.map .string),
    ("user_images", some (.array (p.images.map Image.toJson)))]

namespace Content

/-- The word for the form of content. -/
def kind : Content → String
  | text _ => "text"
  | number _ => "number"
  | image _ => "image"
  | pdf _ => "pdf"
  | textAndImages _ => "text_and_images"
  | page _ => "page"
  | llmPrompt _ => "llm_prompt"
  | imgGenPrompt _ => "img_gen_prompt"
  | list _ => "list"
  | record _ _ => "structured"
  | dynamic _ => "dynamic"

/-- Whether content is a list. -/
def isList : Content → Bool
  | list _ => true
  | _ => false

/-- The number of items of a list. -/
def count? : Content → Option Nat
  | list items => some items.length
  | _ => none

mutual

/-- Content as a record, in which paths are followed. -/
def toJson : Content → Json
  | text s => .object [("text", .string s)]
  | number x => .object [("number", .number (.real x))]
  | image i => i.toJson
  | pdf url => .object [("url", .string url)]
  | textAndImages t => t.toJson
  | page p => p.toJson
  | llmPrompt p => p.toJson
  | imgGenPrompt s => .object [("positive_text", .string s)]
  | list items => .array (toJsonItems items)
  | record _ fields => .ofMembers fields.entries
  | dynamic v => v

/-- The items of a list as records. -/
def toJsonItems : List Content → List Json
  | [] => []
  | c :: cs => toJson c :: toJsonItems cs

end

mutual

/-- Content as a value, where it is referred to as a whole: texts and numbers stand for
themselves. -/
def value : Content → Json
  | text s => .string s
  | number x => .number (.real x)
  | imgGenPrompt s => .string s
  | list items => .array (valueItems items)
  | c => c.toJson

/-- The items of a list as values. -/
def valueItems : List Content → List Json
  | [] => []
  | c :: cs => value c :: valueItems cs

end

/-- The bound below which whole numbers are written as integers. -/
def integerBound : Nat := Nat.pow 10 15

/-- A number as text: a whole number below the bound as an integer, others without exponent. -/
def numberText (x : Double) : String :=
  match x.toInt? with
  | some n => if n.natAbs < integerBound then toString n else x.positional
  | none => x.positional

mutual

/-- Content as text, where it is put into a prompt. -/
def rendered : Content → String
  | text s => s
  | number x => numberText x
  | image i => i.url
  | pdf url => url
  | textAndImages t => t.text.getD ""
  | page p => p.body.text.getD ""
  | llmPrompt p => p.user.getD ""
  | imgGenPrompt s => s
  | list items => "\n".intercalate (renderedItems items)
  | record name fields => (toJson (record name fields)).pretty
  | dynamic (.string s) => s
  | dynamic v => v.compact

/-- The items of a list as texts. -/
def renderedItems : List Content → List String
  | [] => []
  | c :: cs => rendered c :: renderedItems cs

end

mutual

/-- The images that content carries. -/
def images : Content → List Image
  | image i => [i]
  | textAndImages t => t.images
  | page p => p.body.images ++ p.view.toList
  | list items => imagesItems items
  | _ => []

/-- The images that the items of a list carry. -/
def imagesItems : List Content → List Image
  | [] => []
  | c :: cs => images c ++ imagesItems cs

end

end Content

end Conduit
