import Conduit.Blueprint.Field

/-!
# Declared concepts

A concept is declared by a description alone, or by a description with a structure or with a native
concept that it refines. The structure is named or given by an inline schema.
-/

namespace Conduit

/-- The structure of a declared concept. -/
inductive StructureBlueprint where
  | named (name : String)
  | schema (fields : Dict FieldBlueprint)
  deriving DecidableEq

/-- The full declaration of a concept. -/
structure ConceptDetail where
  description : String := ""
  shape : Option StructureBlueprint := none
  refines : Option String := none
  deriving DecidableEq

/-- A concept as a bundle declares it. -/
inductive ConceptBlueprint where
  | described (description : String)
  | detailed (detail : ConceptDetail)
  deriving DecidableEq

namespace StructureBlueprint

/-- The declared structure that a value writes. -/
def ofJson? : Json → Option StructureBlueprint
  | .string name => some (.named name)
  | v => (v.dict? FieldBlueprint.ofJson?).map .schema

/-- A declared structure in the form in which it was declared. -/
def toJson : StructureBlueprint → Json
  | named name => .string name
  | schema fields => Json.ofDict FieldBlueprint.toJson fields

end StructureBlueprint

namespace ConceptDetail

/-- The full declaration that a value writes. -/
def ofJson? (v : Json) : Option ConceptDetail := do
  let get ← v.fields? ["description", "structure", "refines"]
  return { description := ← Json.defaulted "" Json.text? (get "description")
           shape := ← Json.optional StructureBlueprint.ofJson? (get "structure")
           refines := ← Json.optional Json.text? (get "refines") }

/-- A full declaration with every key written out. -/
def toJson (d : ConceptDetail) : Json :=
  .object [
    ("description", .string d.description),
    ("structure", d.shape.elim .null StructureBlueprint.toJson),
    ("refines", Json.ofText? d.refines)]

end ConceptDetail

namespace ConceptBlueprint

/-- The full declaration of a concept. -/
def detail : ConceptBlueprint → ConceptDetail
  | described description => { description }
  | detailed detail => detail

/-- The declared concept that a value writes. -/
def ofJson? : Json → Option ConceptBlueprint
  | .string description => some (.described description)
  | v => (ConceptDetail.ofJson? v).map .detailed

/-- A declared concept in the form in which it was declared. -/
def toJson : ConceptBlueprint → Json
  | described description => .string description
  | detailed detail => detail.toJson

end ConceptBlueprint

end Conduit
