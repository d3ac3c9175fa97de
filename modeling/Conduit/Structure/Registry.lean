import Conduit.Structure.Basic

/-!
# The registry of structures

A registry holds every known structure under its name. `Registry.ancestry` follows parents up to the
root; it stops at a name that is unknown or that it has met before, so it ends for every registry.
`Registry.allFields` collects the fields of a structure and of its ancestors, where a structure
overrides the fields of its ancestors and keeps their places.
-/

namespace Conduit

/-- Every known structure, under its name. -/
structure Registry where
  structures : Dict Structure
  deriving DecidableEq

namespace Registry

/-- A required field without default and choices. -/
def requiredField (name : String) (type : FieldType) (description : String) : Field :=
  ⟨name, type, true, none, [], some description⟩

/-- An optional field without default and choices. -/
def optionalField (name : String) (type : FieldType) (description : String) : Field :=
  ⟨name, type, false, none, [], some description⟩

/-- A structure that is always there. -/
def builtIn (name : String) (fields : List Field) : Structure :=
  ⟨name, some Structure.root, .ofList (fields.map fun f => (f.name, f)), true⟩

/-- The structures that are always there. -/
def builtIns : List Structure :=
  let image := FieldType.nested Structure.imageContent
  [ ⟨Structure.root, none, .empty, true⟩,
    builtIn Structure.textContent [requiredField "text" .text "Text value"],
    builtIn Structure.numberContent [requiredField "number" .number "Numeric value"],
    builtIn Structure.imageContent [
      requiredField "url" .text "Location of the image",
      optionalField "caption" .text "Caption of the image"],
    builtIn Structure.pdfContent [requiredField "url" .text "Location of the document"],
    builtIn Structure.textAndImagesContent [
      optionalField "text" .text "Text part",
      optionalField "images" (.listOf image) "Image parts"],
    builtIn Structure.pageContent [
      requiredField "text_and_images" (.nested Structure.textAndImagesContent)
        "Extracted page content",
      optionalField "page_view" image "Rendered view of the page"],
    builtIn Structure.llmPromptContent [
      optionalField "system_text" .text "System prompt",
      optionalField "user_text" .text "User prompt",
      optionalField "user_images" (.listOf image) "Prompt images"],
    builtIn Structure.imgGenPromptContent [
      requiredField "positive_text" .text "Image description"],
    builtIn Structure.dynamicContent [] ]

/-- The registry that holds the built-in structures only. -/
def initial : Registry :=
  ⟨.ofList (builtIns.map fun s => (s.name, s))⟩

/-- The structure of a name. -/
def get? (r : Registry) (name : String) : Option Structure :=
  r.structures.get? name

/-- Whether a name has a structure. -/
def contains (r : Registry) (name : String) : Bool :=
  r.structures.contains name

/-- The registry with one more structure, unless the name is taken. -/
def register? (r : Registry) (s : Structure) : Option Registry :=
  if r.contains s.name then none else some ⟨r.structures.insert s.name s⟩

/-- Whether a name has a built-in structure. -/
def isNative (r : Registry) (name : String) : Bool :=
  (r.get? name).any (·.native)

/-- The registry without a structure; built-in structures stay. -/
def remove (r : Registry) (name : String) : Registry :=
  if r.isNative name then r else ⟨r.structures.erase name⟩

/-- The parent that the structure of a name declares. -/
def parent? (r : Registry) (name : String) : Option String :=
  (r.get? name).bind (·.parent)

/-- At most `n` names from `name` up, none of which was seen before. -/
def ancestryFrom (r : Registry) : Nat → List String → String → List String
  | 0, _, _ => []
  | n + 1, seen, name =>
    if name ∈ seen then []
    else name :: match r.parent? name with
      | none => []
      | some parent => r.ancestryFrom n (name :: seen) parent

/-- The names from `name` up to the root. All but the last are registered and no name comes twice,
so there is at most one more of them than there are structures. -/
def ancestry (r : Registry) (name : String) : List String :=
  r.ancestryFrom (r.structures.size + 1) [] name

/-- Whether `tested` is `wanted` or has it among its ancestors. -/
def isSubtype (r : Registry) (tested wanted : String) : Bool :=
  (r.ancestry tested).contains wanted

/-- Whether the ancestors of a structure end at the root of content. -/
def isContent (r : Registry) (name : String) : Bool :=
  (r.ancestry name).getLast? == some Structure.root

/-- The fields that the structures of some names declare, from left to right. -/
def fieldsOf (r : Registry) (names : List String) : Dict Field :=
  names.foldl (fun fields name =>
    match r.get? name with
    | some s => fields.union s.fields
    | none => fields) .empty

/-- Every field of a structure, the inherited ones first. -/
def allFields (r : Registry) (name : String) : Dict Field :=
  r.fieldsOf (r.ancestry name).reverse

/-- Whether a field has a partner of the same name and type among others. -/
def matchedIn (fields : Dict Field) (f : Field) : Bool :=
  (fields.get? f.name).any (·.type == f.type)

/-- Whether `tested` has every required field of `wanted` and at least one of its fields, with the
same types. Two built-in structures never match on fields alone. -/
def hasCompatibleFields (r : Registry) (tested wanted : String) : Bool :=
  if r.isNative tested && r.isNative wanted then false
  else
    let tested := r.allFields tested
    let wanted := (r.allFields wanted).values
    wanted.any (matchedIn tested) && (wanted.filter (·.required)).all (matchedIn tested)

/-- Whether two structures have the same fields, up to order, defaults and choices. -/
def equivalent (r : Registry) (left right : String) : Bool :=
  let left := r.allFields left
  let right := r.allFields right
  left.size == right.size && left.entries.all fun (name, f) =>
    (right.get? name).any fun g =>
      g.type == f.type && g.required == f.required && g.description == f.description

end Registry

end Conduit
