import Conduit.Date
import Conduit.Json.View
import Conduit.Structure.Registry

/-!
# Records of a structure

A record is a JSON object that is read against a structure. `Registry.validate` refuses a record
with unknown fields, missing fields or values of a wrong type, and otherwise returns its values with
defaults filled in, in the order of the structure's fields. Only the fields of the record itself are
filled in; a nested record is checked and stays as it is.

A default is checked like a value that was given, so defaults whose records lack fields with
defaults of their own may lead to further records. `Registry.budget` bounds how many records can be
nested before some default is met within itself; where it is exhausted, validation fails with
`RecordFault.endless`.
-/

namespace Conduit

/-- What is wrong with a record or one of its values. -/
inductive RecordFault where
  | unknownStructure
  | unknownField
  | missing
  | notAChoice (value : Json) (choices : List String)
  | expectedType (type : FieldType) (value : Json)
  | expectedRecordOf (name : String) (value : Json)
  | expectedRecord (value : Json)
  | nullList
  | endless
  deriving DecidableEq

/-- A fault in words. -/
def RecordFault.message : RecordFault → String
  | unknownStructure => "unknown structure"
  | unknownField => "field is not part of the structure"
  | missing => "required field is missing"
  | notAChoice value choices =>
    "value " ++ value.compact ++ " is not one of [" ++ ", ".intercalate choices ++ "]"
  | expectedType type value => "expected " ++ type.describe ++ ", got " ++ value.compact
  | expectedRecordOf name value => "expected " ++ name ++ " record, got " ++ value.compact
  | expectedRecord value => "expected a record, got " ++ value.compact
  | nullList => "invalid type: null, expected a sequence"
  | endless => "defaults include each other without end"

/-- A record that does not match a structure, and the field at which it does not. -/
structure RecordError where
  name : String
  field : String
  fault : RecordFault
  deriving DecidableEq

/-- An error in words. -/
def RecordError.message (e : RecordError) : String :=
  s!"record does not match structure '{e.name}' at field '{e.field}': {e.fault.message}"

namespace Registry

/-- Checks a value against a field type. `nested` checks a record of another structure; its errors
are reported at the field, followed by the field of the record. -/
def checkValue (nested : String → List (String × Json) → Except RecordError Unit)
    (owner field : String) : FieldType → Json → Except RecordError Unit
  | .text, .string _ => .ok ()
  | .integer, .number (.integer _) => .ok ()
  | .boolean, .bool _ => .ok ()
  | .number, .number _ => .ok ()
  | .date, .string s =>
    if Date.isValid s then .ok () else .error ⟨owner, field, .expectedType .date (.string s)⟩
  | .anyList, .array _ => .ok ()
  | .listOf item, .array items => items.forM (checkValue nested owner field item)
  | .anyDict key, .object members =>
    members.forM fun (k, _) => checkValue nested owner field key (.string k)
  | .dictOf key value, .object members =>
    members.forM fun (k, v) => do
      checkValue nested owner field key (.string k)
      checkValue nested owner field value v
  | .nested name, .object members =>
    (nested name members).mapError fun e => ⟨owner, s!"{field}.{e.field}", e.fault⟩
  | .nested name, v => .error ⟨owner, field, .expectedRecordOf name v⟩
  | type, v => .error ⟨owner, field, .expectedType type v⟩

/-- The value of a field in a record: the one that is given, unless it is null, or the default. -/
def chosen? (f : Field) (record : List (String × Json)) : Option Json :=
  match Json.member? record f.name with
  | none | some .null => f.default
  | some v => some v

/-- Checks the value of a field and adds it to the values of the fields before it. -/
def addField (nested : String → List (String × Json) → Except RecordError Unit) (owner : String)
    (record : List (String × Json)) (values : Dict Json) (name : String) (f : Field) :
    Except RecordError (Dict Json) :=
  match chosen? { f with name } record with
  | none => if f.required then .error ⟨owner, name, .missing⟩ else .ok values
  | some v => do
    checkValue nested owner name f.type v
    if f.admits v then return values.insert name v
    else .error ⟨owner, name, .notAChoice v f.choices⟩

/-- The values of a record of the structure `name`, where records are nested at most `n` deep. -/
def validateWithin (r : Registry) : Nat → String → List (String × Json) →
    Except RecordError (Dict Json)
  | 0, name, _ => .error ⟨name, "", .endless⟩
  | n + 1, name, record =>
    let fields := r.allFields name
    if !r.contains name then .error ⟨name, "", .unknownStructure⟩
    else match record.find? fun (k, _) => !fields.contains k with
      | some (k, _) => .error ⟨name, k, .unknownField⟩
      | none =>
        fields.entries.foldlM (fun values (k, f) =>
          addField (fun s members => (r.validateWithin n s members).map fun _ => ())
            name record values k f) .empty

/-- How deeply the defaults of all fields can nest records, each default counted once. -/
def budget (r : Registry) : Nat :=
  (r.structures.values.flatMap fun s => s.fields.values.map fun f =>
    (f.default.elim 0 Json.depth) + 1).foldr (· + ·) 0

/-- The values of a record of the structure `name`, with defaults filled in. -/
def validate (r : Registry) (name : String) (record : List (String × Json)) :
    Except RecordError (Dict Json) :=
  r.validateWithin ((Json.object record).depth + r.budget + 1) name record

/-- Checks a value against a field type. -/
def check (r : Registry) (owner field : String) (type : FieldType) (value : Json) :
    Except RecordError Unit :=
  checkValue (fun s members =>
    (r.validateWithin (value.depth + r.budget + 1) s members).map fun _ => ())
    owner field type value

end Registry

end Conduit
