import Conduit.Dict
import Conduit.Json.Basic

/-!
# Structures

A structure is a named, ordered set of typed fields that may extend a parent structure. Its fields
hold texts, numbers, dates, lists, dictionaries or records of other structures. `FieldType.text`
writes a field type the way a structure's source does.
-/

namespace Conduit

/-- The type of a field. A list without an item type holds anything, and so does a dictionary
without a value type. -/
inductive FieldType where
  | text
  | integer
  | boolean
  | number
  | date
  | anyList
  | listOf (item : FieldType)
  | anyDict (key : FieldType)
  | dictOf (key value : FieldType)
  | nested (name : String)
  deriving DecidableEq, Repr

namespace FieldType

/-- A field type as it is written in a structure's source. -/
def describe : FieldType → String
  | text => "text"
  | integer => "integer"
  | boolean => "boolean"
  | number => "number"
  | date => "date"
  | anyList => "list"
  | listOf item => "list<" ++ item.describe ++ ">"
  | anyDict key => "dict<" ++ key.describe ++ ">"
  | dictOf key value => "dict<" ++ key.describe ++ ", " ++ value.describe ++ ">"
  | nested name => name

/-- The structures that a field type mentions, from left to right. -/
def mentions : FieldType → List String
  | nested name => [name]
  | listOf item => item.mentions
  | anyDict key => key.mentions
  | dictOf key value => key.mentions ++ value.mentions
  | _ => []

end FieldType

/-- A field of a structure. A text field with choices holds one of them. -/
structure Field where
  name : String
  type : FieldType
  required : Bool
  default : Option Json
  choices : List String
  description : Option String
  deriving DecidableEq

namespace Field

/-- Whether a value is one of the choices of a field; every value is if there are none. -/
def admits (f : Field) (value : Json) : Bool :=
  f.choices.isEmpty || match value with
    | .string s => f.choices.contains s
    | _ => false

end Field

/-- A structure: its name, its parent, and the fields that it declares itself. -/
structure Structure where
  name : String
  parent : Option String
  fields : Dict Field
  native : Bool
  deriving DecidableEq

namespace Structure

/-- The root of every structure that content may have. -/
def root : String := "StructuredContent"

/-- The structure of texts. -/
def textContent : String := "TextContent"

/-- The structure of numbers. -/
def numberContent : String := "NumberContent"

/-- The structure of images. -/
def imageContent : String := "ImageContent"

/-- The structure of documents. -/
def pdfContent : String := "PdfContent"

/-- The structure of texts with images. -/
def textAndImagesContent : String := "TextAndImagesContent"

/-- The structure of the pages of a document. -/
def pageContent : String := "PageContent"

/-- The structure of prompts for a language model. -/
def llmPromptContent : String := "LlmPromptContent"

/-- The structure of prompts for an image generator. -/
def imgGenPromptContent : String := "ImgGenPromptContent"

/-- The structure of values of any form. -/
def dynamicContent : String := "DynamicContent"

end Structure

end Conduit
