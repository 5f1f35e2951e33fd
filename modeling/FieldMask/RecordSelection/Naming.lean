import FieldMask.NameSelection.Algebra
import FieldMask.RecordSelection.Defaults

/-!
# From indices to names

A selection of a record as a selection by serialized names, which no longer needs the schema.
What is left open below the root is expanded first if its record has marked fields, because by
name an open selection takes everything. Fields that are not serialized are left out, and fields
that share a serialized name are merged.
-/

namespace FieldMask.RecordSelection

/-- A map of named selections; those of one name are merged. -/
def mergeByName (fields : List (String × NameSelection)) : OrderedMap String NameSelection :=
  fields.foldl (fun merged (name, child) =>
    match merged.get? name with
    | some present => merged.insert name (present.assign child)
    | none => merged.insert name child) .nil

mutual

/-- The selection by serialized names, without any expansion. -/
def byJsonName : RecordSelection → NameSelection
  | undefined _ => .undefined
  | defined record fields => .defined (mergeByName (eachByJsonName record fields))
termination_by structural s => s

/-- The serialized names of fields, with their selections. -/
def eachByJsonName {bound : Option Nat} (record : Schema) :
    Entries Nat (Option RecordSelection) bound → List (String × NameSelection)
  | .nil => []
  | .cons i child _ rest =>
    let nested := match child with
      | some c => c.byJsonName
      | none => .undefined
    match record.fields[i]? >>= Field.json with
    | some name => (name, nested) :: eachByJsonName record rest
    | none => eachByJsonName record rest
termination_by structural es => es

end

/-- The selection by serialized names. -/
def toNames (reg : Registry) (s : RecordSelection) : NameSelection :=
  (s.expandNested reg []).byJsonName

end FieldMask.RecordSelection
