import FieldMask.Value.Definedness
import FieldMask.Json.Document

/-!
# Values and JSON

A value is serialized as JSON: records become objects by serialized names, in the order of the
schema, and pointers are transparent. JSON is read as a value without records and pointers.

* `Value.toJson`, `Value.compact`, `Value.pretty`: serialized output.
* `Value.ofJson`, `Value.ofText`: input; of repeated keys the last counts.
-/

namespace FieldMask.Value

mutual

/-- The JSON tree of a value. -/
def toJson : Value → Json
  | null => .null
  | bool b => .bool b
  | number n => .number n
  | string s => .string s
  | array items => .array (itemsToJson items)
  | object entries => .object (entriesToJson entries)
  | record schema values => .object (fieldsToJson schema.fields values)
  | ref target => target.toJson
termination_by structural v => v

/-- The JSON trees of items. -/
def itemsToJson : List Value → List Json
  | [] => []
  | v :: rest => v.toJson :: itemsToJson rest
termination_by structural vs => vs

/-- The JSON members of a map. -/
def entriesToJson {bound : Option String} : Entries String Value bound → List (String × Json)
  | .nil => []
  | .cons key v _ rest => (key, v.toJson) :: entriesToJson rest
termination_by structural vs => vs

/-- The JSON members of a record: the fields that are serialized, less those that omit a value
    that was never set. -/
def fieldsToJson (fields : List Field) : List Value → List (String × Json)
  | [] => []
  | v :: values => match fields with
    | [] => []
    | f :: fields =>
      match f.json with
      | some name =>
        if f.omitEmpty && v.isUndefined then fieldsToJson fields values
        else (name, v.toJson) :: fieldsToJson fields values
      | none => fieldsToJson fields values
termination_by structural vs => vs

end

/-- The value as JSON text without blanks. -/
def compact (v : Value) : String := v.toJson.compact

/-- The value as indented JSON text. -/
def pretty (v : Value) : String := v.toJson.pretty

mutual

/-- The value of a JSON tree. -/
def ofJson : Json → Value
  | .null => null
  | .bool b => bool b
  | .number n => number n
  | .string s => string s
  | .array items => array (itemsOfJson items)
  | .object members => object (Entries.ofList (membersOfJson members))
termination_by structural j => j

/-- The values of JSON items. -/
def itemsOfJson : List Json → List Value
  | [] => []
  | j :: rest => ofJson j :: itemsOfJson rest
termination_by structural js => js

/-- The values of JSON members, with their keys. -/
def membersOfJson : List (String × Json) → List (String × Value)
  | [] => []
  | (key, j) :: rest => (key, ofJson j) :: membersOfJson rest
termination_by structural js => js

end

/-- The value of a JSON text. -/
def ofText (text : String) : Except Error Value :=
  match Json.ofText? text with
  | some j => .ok (ofJson j)
  | none => .error (.of .malformedJson)

end FieldMask.Value
