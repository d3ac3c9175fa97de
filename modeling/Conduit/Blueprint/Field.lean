import Conduit.Dict
import Conduit.Json.Decode

/-!
# Declared fields

A bundle declares the fields of a structure in a schema: for each name either a description, which
makes a required text field, or a full definition. `FieldBlueprint.detail` expands the short form.
`FieldBlueprint.ofJson?` and `FieldBlueprint.toJson` read and write both forms.
-/

namespace Conduit

/-- The types that a schema can name. -/
inductive BasicType where
  | text
  | integer
  | boolean
  | number
  | date
  | list
  | dict
  deriving DecidableEq, Repr

namespace BasicType

/-- Every basic type. -/
def all : List BasicType := [text, integer, boolean, number, date, list, dict]

/-- The word for a basic type. -/
def keyword : BasicType → String
  | text => "text"
  | integer => "integer"
  | boolean => "boolean"
  | number => "number"
  | date => "date"
  | list => "list"
  | dict => "dict"

/-- The basic type of a word. -/
def ofKeyword? (word : String) : Option BasicType :=
  all.find? fun t => t.keyword == word

/-- The basic type that a value names: by its word, or by an object whose only key is the word and
whose value is null. -/
def ofJson? : Json → Option BasicType
  | .string word | .object [(word, .null)] => ofKeyword? word
  | _ => none

end BasicType

/-- The full definition of a field. -/
structure FieldDetail where
  description : Option String := none
  type : BasicType := .text
  required : Bool := true
  default : Option Json := none
  choices : List String := []
  itemType : Option BasicType := none
  keyType : Option BasicType := none
  valueType : Option BasicType := none
  deriving DecidableEq

/-- A field as a schema declares it. -/
inductive FieldBlueprint where
  | described (description : String)
  | detailed (detail : FieldDetail)
  deriving DecidableEq

/-- A text, or null. -/
def Json.ofText? (text : Option String) : Json :=
  text.elim .null .string

/-- A list of texts. -/
def Json.ofTexts (texts : List String) : Json :=
  .array (texts.map .string)

namespace FieldDetail

/-- The keys of a full definition, in their order. -/
def keys : List String :=
  ["description", "type", "required", "default", "choices", "item_type", "key_type", "value_type"]

/-- The full definition that a value writes. -/
def ofJson? (v : Json) : Option FieldDetail := do
  let get ← v.fields? keys
  return { description := ← Json.optional Json.text? (get "description")
           type := ← Json.defaulted .text BasicType.ofJson? (get "type")
           required := ← Json.defaulted true Json.bool? (get "required")
           default := ← Json.optional (fun v => some v.canonical) (get "default")
           choices := ← Json.defaulted [] (Json.list? Json.text?) (get "choices")
           itemType := ← Json.optional BasicType.ofJson? (get "item_type")
           keyType := ← Json.optional BasicType.ofJson? (get "key_type")
           valueType := ← Json.optional BasicType.ofJson? (get "value_type") }

/-- A full definition with every key written out. -/
def toJson (d : FieldDetail) : Json :=
  let word (t : Option BasicType) := Json.ofText? (t.map BasicType.keyword)
  .object [
    ("description", Json.ofText? d.description), ("type", .string d.type.keyword),
    ("required", .bool d.required), ("default", d.default.getD .null),
    ("choices", Json.ofTexts d.choices), ("item_type", word d.itemType),
    ("key_type", word d.keyType), ("value_type", word d.valueType)]

end FieldDetail

namespace FieldBlueprint

/-- The full definition of a declared field. -/
def detail : FieldBlueprint → FieldDetail
  | described description => { description := some description }
  | detailed detail => detail

/-- The declared field that a value writes. -/
def ofJson? : Json → Option FieldBlueprint
  | .string description => some (.described description)
  | v => (FieldDetail.ofJson? v).map .detailed

/-- A declared field in the form in which it was declared. -/
def toJson : FieldBlueprint → Json
  | described description => .string description
  | detailed detail => detail.toJson

end FieldBlueprint

/-- The dictionary that an object writes, in the order of its members. -/
def Json.dict? {α : Type} (read : Json → Option α) (v : Json) : Option (Dict α) :=
  (v.members? read).map Dict.ofList

/-- A dictionary as an object. -/
def Json.ofDict {α : Type} (write : α → Json) (d : Dict α) : Json :=
  .object (d.entries.map fun (k, v) => (k, write v))

end Conduit
