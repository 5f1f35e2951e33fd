import FieldMask.Json.Document
import FieldMask.Schema.Basic

/-!
# Schema documents

A schema may be given as a JSON document. A record is an object with a `name` and a list of
`fields`; a field has a `name` and a `type`, and may have `json`, `omitEmpty` and `tags`; a type
is an object whose `type` names its form. Instead of an object there may be an array of the
members in that order, the form of a type first, where trailing `omitEmpty` and `tags` may be
left out.

Documents are read from front to back, and the first fault found counts. A record is checked when
all of it is read, so nested records first, and a type is looked into only when its text is
complete.

* `Schema.ofText` reads a schema from a text.
-/

namespace FieldMask

namespace Schema

/-- Reading a document, with the next stamp to give to a record. -/
abbrev Reader (α : Type) : Type := StateT Nat (Except Error) α

namespace Reader

/-- The document has another shape than a schema. -/
def malformed {α : Type} : Reader α := throw (.of .malformedSchema)

/-- Go on only if a condition holds of the shape. -/
def expect (condition : Bool) : Reader Unit := if condition then pure () else malformed

/-- The text that a document is. -/
def readString : Document → Reader String
  | .string s => pure s
  | _ => malformed

/-- The truth value that a document is. -/
def readBool : Document → Reader Bool
  | .bool b => pure b
  | _ => malformed

/-- The serialized name that a document gives; `null` gives none. -/
def readJson : Document → Reader (Option String)
  | .null => pure none
  | .string s => pure (some s)
  | _ => malformed

/-- Tags from members, in order. -/
def readTagMembers : List (String × Document) → Reader (List (String × String))
  | [] => pure []
  | (key, value) :: rest => do return (key, ← readString value) :: (← readTagMembers rest)

/-- The tags that a document gives. -/
def readTags : Document → Reader (OrderedMap String String)
  | .object members closed => do
    let tags ← readTagMembers members
    expect closed
    return Entries.ofList tags
  | _ => malformed

/-- The forms of types, in order. -/
inductive Form where
  | any
  | boolean
  | integer
  | number
  | string
  | array
  | map
  | record
  | ref

/-- The names of the forms, in order. -/
def Form.names : List (String × Form) :=
  [("any", .any), ("boolean", .boolean), ("integer", .integer), ("number", .number),
    ("string", .string), ("array", .array), ("map", .map), ("record", .record), ("ref", .ref)]

/-- The form that a document names. Inside another type it may also be given by its position. -/
def readForm (nested : Bool) : Document → Reader Form
  | .string name => match Form.names.lookup name with
    | some form => pure form
    | none => malformed
  | .number (.integer n _) => match nested, Form.names[n.toNat]? with
    | true, some (_, form) => if 0 ≤ n then pure form else malformed
    | _, _ => malformed
  | _ => malformed

/-- The form that the members of a type name, under `type`, exactly once. -/
def formOfMembers (nested : Bool) (members : List (String × Document)) : Reader Form :=
  match members.filter (·.1 == "type") with
  | [(_, d)] => readForm nested d
  | _ => malformed

/-- The type of a form without parts. -/
def Form.simple? : Form → Option FieldType
  | any => some .any
  | boolean => some .boolean
  | integer => some .integer
  | number => some .number
  | string => some .string
  | _ => none

/-- The name that a reference gives: its only member besides its form. -/
def nameOfMembers (members : List (String × Document)) : Reader String :=
  match members.filter (·.1 != "type") with
  | [("name", d)] => readString d
  | _ => malformed

/-- The parts of a field that have been read. -/
structure FieldDraft where
  name : Option String := none
  type : Option FieldType := none
  json : Option (Option String) := none
  omitEmpty : Option Bool := none
  tags : Option (OrderedMap String String) := none

/-- The field of a draft. Without a serialized name it is serialized under its own name. -/
def FieldDraft.finish (d : FieldDraft) : Reader Field :=
  match d.name, d.type with
  | some name, some type =>
    let f := Field.of name type
    let f := match d.json with
      | some (some json) => f.withJson json
      | _ => f
    pure { f with omitEmpty := d.omitEmpty.getD false, tags := d.tags.getD .nil }
  | _, _ => malformed

/-- Check a record, all of which is read, and give it the next stamp. -/
def finish (name : String) (fields : List Field) : Reader Schema := do
  let stamp ← get
  match Schema.build stamp name fields with
  | .ok schema => do
    set (stamp + 1)
    return schema
  | .error fault => throw (.of (.schema fault))

mutual

/-- A type, from a document that is complete. -/
def readType (nested : Bool) : Document → Reader FieldType
  | .object members _ => do
    let form ← formOfMembers nested members
    match form with
    | .array => return .array (← readInner "items" none members)
    | .map => return .map (← readInner "values" none members)
    | .record => do
      let (name, fields) ← readRecordMembers true none none members
      return .record (← finish name fields)
    | .ref => return .ref (← nameOfMembers members)
    | form => match form.simple? with
      | some type => return type
      | none => malformed
  | .array items _ => match items with
    | [] => malformed
    | d :: rest => do
      let form ← readForm nested d
      match form with
      | .array => return .array (← readOnlyType rest)
      | .map => return .map (← readOnlyType rest)
      | .record => do
        let (name, fields) ← readRecordItems true rest
        return .record (← finish name fields)
      | .ref => match rest with
        | [d] => return .ref (← readString d)
        | _ => malformed
      | form => match form.simple?, rest with
        | some type, [] => return type
        | _, _ => malformed
  | _ => malformed
termination_by structural d => d

/-- The type that is the only item. -/
def readOnlyType : List Document → Reader FieldType
  | [] => malformed
  | d :: rest => do
    let type ← readType true d
    expect rest.isEmpty
    return type
termination_by structural ds => ds

/-- The type under a key, which is the only member of a type besides its form. -/
def readInner (key : String) (found : Option FieldType) :
    List (String × Document) → Reader FieldType
  | [] => match found with
    | some type => pure type
    | none => malformed
  | (k, d) :: rest =>
    if k = "type" then readInner key found rest
    else if k = key ∧ found.isNone then do
      let type ← readType true d
      readInner key (some type) rest
    else malformed
termination_by structural ms => ms

/-- The name and the fields of a record from its members; inside a type, less the form of it. -/
def readRecordMembers (nested : Bool) (name : Option String) (fields : Option (List Field)) :
    List (String × Document) → Reader (String × List Field)
  | [] => match name, fields with
    | some name, some fields => pure (name, fields)
    | _, _ => malformed
  | (key, d) :: rest =>
    if key = "type" ∧ nested then readRecordMembers nested name fields rest
    else if key = "name" ∧ name.isNone then do
      let read ← readString d
      readRecordMembers nested (some read) fields rest
    else if key = "fields" ∧ fields.isNone then do
      let read ← readFields nested d
      readRecordMembers nested name (some read) rest
    else malformed
termination_by structural ms => ms

/-- The name and the fields of a record from an array of the two. -/
def readRecordItems (nested : Bool) : List Document → Reader (String × List Field)
  | [] => malformed
  | d :: rest => do
    let name ← readString d
    let fields ← readOnlyFields nested rest
    return (name, fields)
termination_by structural ds => ds

/-- The fields that are the only item. -/
def readOnlyFields (nested : Bool) : List Document → Reader (List Field)
  | [] => malformed
  | d :: rest => do
    let fields ← readFields nested d
    expect rest.isEmpty
    return fields
termination_by structural ds => ds

/-- A list of fields. -/
def readFields (nested : Bool) : Document → Reader (List Field)
  | .array items closed => do
    let fields ← readEachField nested items
    expect closed
    return fields
  | _ => malformed
termination_by structural d => d

/-- Fields one after the other. -/
def readEachField (nested : Bool) : List Document → Reader (List Field)
  | [] => pure []
  | d :: rest => do return (← readField nested d) :: (← readEachField nested rest)
termination_by structural ds => ds

/-- A field. -/
def readField (nested : Bool) : Document → Reader Field
  | .object members closed => do
    let draft ← readFieldMembers nested {} members
    expect closed
    draft.finish
  | .array items closed => do
    let draft ← readFieldItems nested 0 {} items
    expect (closed && draft.json.isSome)
    draft.finish
  | _ => malformed
termination_by structural d => d

/-- The members of a field, each at most once. -/
def readFieldMembers (nested : Bool) (draft : FieldDraft) :
    List (String × Document) → Reader FieldDraft
  | [] => pure draft
  | (key, d) :: rest =>
    if key = "name" ∧ draft.name.isNone then do
      let read ← readString d
      readFieldMembers nested { draft with name := some read } rest
    else if key = "type" ∧ draft.type.isNone then do
      -- A type is looked into only when all of its text is there.
      expect d.toJson?.isSome
      let read ← readType nested d
      readFieldMembers nested { draft with type := some read } rest
    else if key = "json" ∧ draft.json.isNone then do
      let read ← readJson d
      readFieldMembers nested { draft with json := some read } rest
    else if key = "omitEmpty" ∧ draft.omitEmpty.isNone then do
      let read ← readBool d
      readFieldMembers nested { draft with omitEmpty := some read } rest
    else if key = "tags" ∧ draft.tags.isNone then do
      let read ← readTags d
      readFieldMembers nested { draft with tags := some read } rest
    else malformed
termination_by structural ms => ms

/-- The members of a field from an array, the first at a position. -/
def readFieldItems (nested : Bool) (position : Nat) (draft : FieldDraft) :
    List Document → Reader FieldDraft
  | [] => pure draft
  | d :: rest => match position with
    | 0 => do
      let read ← readString d
      readFieldItems nested 1 { draft with name := some read } rest
    | 1 => do
      expect d.toJson?.isSome
      let read ← readType nested d
      readFieldItems nested 2 { draft with type := some read } rest
    | 2 => do
      let read ← readJson d
      readFieldItems nested 3 { draft with json := some read } rest
    | 3 => do
      let read ← readBool d
      readFieldItems nested 4 { draft with omitEmpty := some read } rest
    | 4 => do
      let read ← readTags d
      readFieldItems nested 5 { draft with tags := some read } rest
    | _ => malformed
termination_by structural ds => ds

end

/-- A record by itself. -/
def readRecord : Document → Reader Schema
  | .object members closed => do
    let (name, fields) ← readRecordMembers false none none members
    expect closed
    finish name fields
  | .array items closed => do
    let (name, fields) ← readRecordItems false items
    expect closed
    finish name fields
  | _ => malformed

end Reader

/-- The schema of a text. Its records get stamps from the given one on; the next free stamp is
    returned with it. -/
def ofText (stamp : Nat) (text : String) : Except Error (Schema × Nat) := do
  let reading := Reading.ofText text
  match reading.document with
  | some document =>
    let (schema, next) ← Reader.readRecord document stamp
    if reading.finished then return (schema, next)
    else throw (.of .malformedSchema)
  | none => throw (.of .malformedSchema)

end Schema

end FieldMask
