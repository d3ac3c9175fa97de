import Conduit.Blueprint.Field
import Conduit.Structure.Source.Compile

/-!
# From a schema to a structure

A schema is first written as the source of a structure, so that every fault can be shown in concrete
text, and the source is then compiled. `Schema.render` writes the source, `Registry.synthesize` does
both.
-/

namespace Conduit

namespace Schema

/-- The type of a declared field as a source writes it. The keys of a dictionary are texts unless
another type is given. -/
def typeText (d : FieldDetail) : String :=
  match d.type with
  | .list => match d.itemType with
    | some item => "list<" ++ item.keyword ++ ">"
    | none => "list"
  | .dict =>
    let key := d.keyType.getD .text
    match d.valueType with
    | some value => "dict<" ++ key.keyword ++ ", " ++ value.keyword ++ ">"
    | none => "dict<" ++ key.keyword ++ ">"
  | type => type.keyword

/-- The choices of a field as a source writes them. -/
def choicesText (choices : List String) : String :=
  if choices.isEmpty then ""
  else " in [" ++ ", ".intercalate (choices.map Json.quoted) ++ "]"

/-- The default of a field as a source writes it: JSON text in a string literal. -/
def defaultText : Option Json → String
  | none => ""
  | some v => " default " ++ Json.quoted v.compact

/-- The description of a field as a source writes it. -/
def descriptionText : Option String → String
  | none => ""
  | some text => " doc " ++ Json.quoted text

/-- The line of a field. -/
def fieldText (name : String) (f : FieldBlueprint) : String :=
  let d := f.detail
  "    " ++ name ++ (if d.required then "" else "?") ++ ": " ++ typeText d ++
    choicesText d.choices ++ defaultText d.default ++ descriptionText d.description ++ "\n"

/-- The source of a structure with the fields of a schema. -/
def render (name : String) (schema : Dict FieldBlueprint) : String :=
  "structure " ++ name ++ " extends " ++ Structure.root ++ " \x7b\n" ++
    String.join (schema.entries.map fun (k, f) => fieldText k f) ++ "\x7d\n"

end Schema

/-- The structure of a name with the fields of a schema. -/
def Registry.synthesize (r : Registry) (name : String) (schema : Dict FieldBlueprint) :
    Except StructureError Structure :=
  r.compile name (Schema.render name schema)

end Conduit
