import FieldMask.OrderedMap.Basic
import FieldMask.Error
import FieldMask.Text.Blank

/-!
# Record schemas

A schema declares a record: its name and an ordered list of fields, each with a type. A field may
be found under its name or under its serialized name. Types nest schemas directly, or by a name
that a registry resolves, which is how records come to refer to themselves.

Each declaration carries a stamp. Schemas built one by one get stamps of their own, so that equal
declarations stay different records: two schemas are the same record type exactly if they are
equal, stamp included.

* `Schema.indexOf?` finds a field by name, or else the first by serialized name.
* `Schema.hasMarkers`, `Schema.isDefault`: the fields of a selection that is left open.
-/

namespace FieldMask

mutual

/-- The type of a field. -/
inductive FieldType where
  /-- Any value. -/
  | any
  | boolean
  | integer
  | number
  | string
  | array (items : FieldType)
  /-- A map from strings to values of one type. -/
  | map (values : FieldType)
  /-- A record declared in place. -/
  | record (schema : Schema)
  /-- A pointer to the record that is registered under a name. -/
  | ref (name : String)

/-- A field of a record. -/
structure Field where
  name : String
  /-- The name in serialized output, `none` if the field is not serialized. -/
  json : Option String
  type : FieldType
  /-- Whether a value that was never set is left out of serialized output. -/
  omitEmpty : Bool
  tags : Entries String String none

/-- The declaration of a record. -/
structure Schema where
  /-- What tells this declaration from others that look the same. -/
  stamp : Nat
  name : String
  fields : List Field

end

/-! ## Equality of declarations -/

mutual

/-- Whether two types are equal. -/
def FieldType.same : FieldType → FieldType → Bool
  | .any, .any => true
  | .boolean, .boolean => true
  | .integer, .integer => true
  | .number, .number => true
  | .string, .string => true
  | .array a, .array b => a.same b
  | .map a, .map b => a.same b
  | .record a, .record b => a.same b
  | .ref a, .ref b => a == b
  | _, _ => false
termination_by structural a => a

/-- Whether two fields are equal. -/
def Field.same : Field → Field → Bool
  | ⟨name, json, type, omitEmpty, tags⟩, b =>
    name == b.name && json == b.json && type.same b.type && omitEmpty == b.omitEmpty &&
      tags == b.tags
termination_by structural a => a

/-- Whether two schemas are equal. Different stamps settle it at once. -/
def Schema.same : Schema → Schema → Bool
  | ⟨stamp, name, fields⟩, b =>
    stamp == b.stamp && name == b.name && Schema.sameFields fields b.fields
termination_by structural a => a

/-- Whether two lists of fields are equal. -/
def Schema.sameFields : List Field → List Field → Bool
  | [], [] => true
  | a :: as, b :: bs => a.same b && Schema.sameFields as bs
  | _, _ => false
termination_by structural a => a

end

mutual

/-- Types are compared as they are written out. -/
theorem FieldType.same_iff : ∀ a b : FieldType, a.same b = true ↔ a = b
  | .any, b => by cases b <;> simp [FieldType.same]
  | .boolean, b => by cases b <;> simp [FieldType.same]
  | .integer, b => by cases b <;> simp [FieldType.same]
  | .number, b => by cases b <;> simp [FieldType.same]
  | .string, b => by cases b <;> simp [FieldType.same]
  | .array a, b => by cases b <;> simp [FieldType.same, FieldType.same_iff a]
  | .map a, b => by cases b <;> simp [FieldType.same, FieldType.same_iff a]
  | .record a, b => by cases b <;> simp [FieldType.same, Schema.same_iff a]
  | .ref a, b => by cases b <;> simp [FieldType.same]
termination_by structural a => a

/-- Fields are compared as they are written out. -/
theorem Field.same_iff : ∀ a b : Field, a.same b = true ↔ a = b
  | ⟨name, json, type, omitEmpty, tags⟩, ⟨name', json', type', omitEmpty', tags'⟩ => by
    simp [Field.same, FieldType.same_iff type, and_assoc]
termination_by structural a => a

/-- Schemas are compared as they are written out. -/
theorem Schema.same_iff : ∀ a b : Schema, a.same b = true ↔ a = b
  | ⟨stamp, name, fields⟩, ⟨stamp', name', fields'⟩ => by
    simp [Schema.same, Schema.sameFields_iff fields, and_assoc]
termination_by structural a => a

/-- Lists of fields are compared one by one. -/
theorem Schema.sameFields_iff : ∀ a b : List Field, Schema.sameFields a b = true ↔ a = b
  | [], b => by cases b <;> simp [Schema.sameFields]
  | a :: as, b => by
    cases b <;> simp [Schema.sameFields, Field.same_iff a, Schema.sameFields_iff as]
termination_by structural a => a

end

instance : DecidableEq FieldType := fun a b => decidable_of_iff _ (FieldType.same_iff a b)

instance : DecidableEq Field := fun a b => decidable_of_iff _ (Field.same_iff a b)

/-- A schema in memory is not looked into when it is compared with itself: schemas share those
    they nest, so that one may be far smaller in memory than written out. -/
instance : DecidableEq Schema := fun a b =>
  withPtrEqDecEq a b fun _ => decidable_of_iff _ (Schema.same_iff a b)

/-! ## Types -/

namespace FieldType

/-- Whether the type is that of a scalar. -/
def isPrimitive : FieldType → Bool
  | boolean | integer | number | string => true
  | _ => false

/-- Whether the type admits any value. -/
def isAny : FieldType → Bool
  | any => true
  | _ => false

/-- Whether values of the type are any values, up to arrays and maps around them. -/
def holdsAny : FieldType → Bool
  | any => true
  | array items => items.holdsAny
  | map values => values.holdsAny
  | _ => false

/-- The type in words. -/
def text : FieldType → String
  | any => "any"
  | boolean => "boolean"
  | integer => "integer"
  | number => "number"
  | string => "string"
  | array items => "array<" ++ items.text ++ ">"
  | map values => "map<" ++ values.text ++ ">"
  | record schema => schema.name
  | ref name => "*" ++ name

end FieldType

/-! ## Fields -/

namespace Field

/-- The tag that can mark a field. -/
def markerTag : String := "fragment"

/-- The tag value that marks a field as selected by default. -/
def marker : String := "includedefault"

/-- A field that is serialized under its own name. -/
def of (name : String) (type : FieldType) : Field :=
  { name, json := some name, type, omitEmpty := false, tags := .nil }

/-- The field with another serialized name. The names `""` and `"-"` stand for none. -/
def withJson (f : Field) (name : String) : Field :=
  { f with json := if name = "" ∨ name = "-" then none else some name }

/-- The field with a tag. -/
def withTag (f : Field) (key value : String) : Field :=
  { f with tags := f.tags.insert key value }

/-- The field, marked as selected by default. -/
def marked (f : Field) : Field := f.withTag markerTag marker

/-- Whether the field is marked as selected by default: the tag may go on behind a comma. -/
def isMarked (f : Field) : Bool :=
  match f.tags.get? markerTag with
  | some value => Text.trim (value.toList.takeWhile (· != ',')) == marker.toList
  | none => false

/-- The field in words. -/
def text (f : Field) : String := f.name ++ " " ++ f.type.text

end Field

/-! ## Schemas -/

namespace Schema

/-- The number of fields. -/
def size (s : Schema) : Nat := s.fields.length

/-- Whether any field is marked as selected by default. -/
def hasMarkers (s : Schema) : Bool := s.fields.any (·.isMarked)

/-- Whether a selection that is left open selects the field: the marked fields if there are any,
    else all fields. -/
def isDefault (s : Schema) (f : Field) : Bool := !s.hasMarkers || f.isMarked

/-- The fields that a selection selects if it is left open, with their indices. -/
def defaultFields (s : Schema) : List (Nat × Field) :=
  (s.fields.zipIdx.filter fun (f, _) => s.isDefault f).map fun (f, i) => (i, f)

/-- The default fields are fields of the schema. -/
theorem mem_fields_of_mem_defaultFields {s : Schema} {i : Nat} {f : Field}
    (h : (i, f) ∈ s.defaultFields) : f ∈ s.fields := by
  simp only [defaultFields, List.mem_map, List.mem_filter, Prod.mk.injEq] at h
  obtain ⟨⟨g, j⟩, ⟨hg, _⟩, rfl, rfl⟩ := h
  exact List.fst_mem_of_mem_zipIdx hg

/-- The index of a field, by its name or else its serialized name. -/
def indexOf? (s : Schema) (name : String) : Option Nat :=
  match s.fields.findIdx? fun f => f.name == name with
  | some i => some i
  | none => s.fields.findIdx? fun f => f.json == some name

/-- A field and its index, by its name or else its serialized name. -/
def lookup? (s : Schema) (name : String) : Option (Nat × Field) := do
  let i ← s.indexOf? name
  let f ← s.fields[i]?
  return (i, f)

/-- The field at an index that is promised to exist. -/
def fieldAt (s : Schema) (index : Nat) : Except Misuse Field :=
  match s.fields[index]? with
  | some f => .ok f
  | none => .error (.noFieldAt s.name index s.size)

/-- The field of a name that is promised to be declared, and its index. -/
def fieldNamed (s : Schema) (name : String) : Except Misuse (Nat × Field) :=
  match s.lookup? name with
  | some found => .ok found
  | none => .error (.noFieldNamed s.name name)

/-- The field at an index, and the index. -/
def resolveIndex (s : Schema) (index : Nat) : Except Error (Nat × Field) :=
  match s.fields[index]? with
  | some f => .ok (index, f)
  | none => .error (.of (.unknownIndex index s.name))

/-- The field of a name, and its index. -/
def resolveName (s : Schema) (name : String) : Except Error (Nat × Field) :=
  match s.lookup? name with
  | some found => .ok found
  | none => .error (.of (.unknownName name s.name))

/-! ## Declaring -/

/-- Whether an expression can spell a name: it is not empty, is trimmed, and has no comma or
    brace. -/
def isSpellable (name : String) : Bool :=
  let cs := name.toList
  !cs.isEmpty && Text.trim cs == cs && !cs.any (fun c => c == '\x7b' || c == '\x7d' || c == ',')

/-- Check a name of a field of a record. -/
def checkName (record name : String) : Except SchemaFault Unit :=
  if isSpellable name then .ok () else .error (.invalidFieldName name record)

/-- Check fields in order, given the names of those before them. -/
def checkFields (record : String) (before : List String) : List Field → Except SchemaFault Unit
  | [] => .ok ()
  | f :: rest => do
    checkName record f.name
    match f.json with
    | some json => checkName record json
    | none => pure ()
    if f.name ∈ before then throw (.duplicateField f.name record)
    checkFields record (f.name :: before) rest

/-- Declare a record. Its name must not be blank, names and serialized names of its fields must
    be spellable, and the names must differ. -/
def build (stamp : Nat) (name : String) (fields : List Field) : Except SchemaFault Schema := do
  if (Text.trim name.toList).isEmpty then throw .blankRecordName
  checkFields name [] fields
  return { stamp, name, fields }

end Schema

end FieldMask
