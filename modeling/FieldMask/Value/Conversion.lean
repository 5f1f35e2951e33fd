import FieldMask.Schema.Registry
import FieldMask.Value.Basic

/-!
# Zero values and conversion

A type has a zero value, which fields hold that were never set, and takes values of a suitable
form: JSON objects become records, and a value of a pointer type becomes a pointer.

* `FieldType.zero`: the zero value of a type.
* `FieldType.convert`: a value as one of a type. `null` is of every type.
* `Record.zero`, `Record.set`: records hold converted values only.
-/

namespace FieldMask

mutual

/-- The value of what was never set. -/
def FieldType.zero : FieldType → Value
  | .boolean => .bool false
  | .integer | .number => .number .zero
  | .string => .string ""
  | .record schema => .record schema schema.zeros
  | .any | .array _ | .map _ | .ref _ => .null
termination_by structural t => t

/-- The zero value of the type of a field. -/
def Field.zero : Field → Value
  | ⟨_, _, type, _, _⟩ => type.zero
termination_by structural f => f

/-- The zero values of the fields of a schema. -/
def Schema.zeros : Schema → List Value
  | ⟨_, _, fields⟩ => Schema.zerosOf fields
termination_by structural s => s

/-- The zero values of fields. -/
def Schema.zerosOf : List Field → List Value
  | [] => []
  | f :: rest => f.zero :: Schema.zerosOf rest
termination_by structural fs => fs

end

/-- The record that values of the type are converted to, and whether pointers to it are. -/
def FieldType.target (reg : Registry) : FieldType → Option (Schema × Bool)
  | .record schema => some (schema, false)
  | .ref name => (reg.get? name).map fun schema => (schema, true)
  | _ => none

/-- The error of a value that has no form of a type. -/
def FieldType.refusal (reg : Registry) (t : FieldType) (v : Value) : Error :=
  let target := match t.target reg with
    | some (schema, _) => schema.name
    | none => t.text
  .of (.conversion v.kind target)

/-- The values of a record, given those of some of its fields by index; of several for one index
    the last counts. -/
def Schema.fill (s : Schema) (assigned : List (Nat × Value)) : List Value :=
  let found : OrderedMap Nat Value := Entries.ofList assigned
  s.fields.zipIdx.map fun (f, i) => (found.get? i).getD f.zero

namespace FieldType

mutual

/-- A value as one of a type. -/
def convert (reg : Registry) (t : FieldType) : Value → Except Error Value
  | .null => .ok .null
  -- A pointer stays one, also where the type makes pointers of its own.
  | .ref v => match t with
    | any => .ok (.ref v)
    | t => do return .ref (← t.convert reg v)
  | .bool b => match t with
    | any | boolean => .ok (.bool b)
    | t => .error (t.refusal reg (.bool b))
  | .number n => match t with
    | any | number => .ok (.number n)
    | integer => match n.toInteger? with
      | some i => .ok (.number i)
      | none => .error (integer.refusal reg (.number n))
    | t => .error (t.refusal reg (.number n))
  | .string s => match t with
    | any | string => .ok (.string s)
    | t => .error (t.refusal reg (.string s))
  | .array vs => match t with
    | any => .ok (.array vs)
    | array items => do return .array (← convertItems reg items 0 vs)
    | t => .error (t.refusal reg (.array vs))
  | .object es => match t with
    | any => .ok (.object es)
    | map values => do return .object (← convertEntries reg values es)
    | t => match t.target reg with
      | some (schema, pointer) => do
        let (assigned, unknown) ← convertMembers reg schema es
        if unknown.isEmpty then
          let r := Value.record schema (schema.fill assigned)
          return if pointer then .ref r else r
        else throw (.of (.unrecognizedFields unknown))
      | none => .error (t.refusal reg (.object es))
  | .record s vs => match t with
    | any => .ok (.record s vs)
    | t => match t.target reg with
      | some (schema, pointer) =>
        if s = schema then .ok (if pointer then .ref (.record s vs) else .record s vs)
        else .error (.of (.typeMismatch schema.name s.name))
      | none => .error (t.refusal reg (.record s vs))
termination_by structural v => v

/-- Items as ones of a type, the first at an index. -/
def convertItems (reg : Registry) (t : FieldType) (index : Nat) :
    List Value → Except Error (List Value)
  | [] => .ok []
  | v :: rest => do
    let item ← within (toString index) (t.convert reg v)
    return item :: (← convertItems reg t (index + 1) rest)
termination_by structural vs => vs

/-- The values of a map as ones of a type. -/
def convertEntries {bound : Option String} (reg : Registry) (t : FieldType) :
    Entries String Value bound → Except Error (Entries String Value bound)
  | .nil => .ok .nil
  | .cons key v above rest => do
    let value ← within key (t.convert reg v)
    return .cons key value above (← convertEntries reg t rest)
termination_by structural es => es

/-- The members of an object as values of fields, by index, and the keys that no field has. -/
def convertMembers {bound : Option String} (reg : Registry) (s : Schema) :
    Entries String Value bound → Except Error (List (Nat × Value) × List String)
  | .nil => .ok ([], [])
  | .cons key v _ rest => match s.lookup? key with
    | some (i, f) => do
      let value ← within f.name (f.type.convert reg v)
      let (assigned, unknown) ← convertMembers reg s rest
      return ((i, value) :: assigned, unknown)
    | none => do
      let (assigned, unknown) ← convertMembers reg s rest
      return (assigned, key :: unknown)
termination_by structural es => es

end

end FieldType

namespace Record

/-- The record whose fields were never set. -/
def zero (schema : Schema) : Record := ⟨schema, schema.zeros⟩

/-- Set a field, by its name or serialized name, to a value converted to its type. -/
def set (reg : Registry) (r : Record) (name : String) (v : Value) : Except Error Record := do
  let (i, f) ← r.schema.resolveName name
  let value ← within f.name (f.type.convert reg v)
  return { r with values := r.values.set i value }

end Record

/-- Set a field of a record value. Pointers are not followed. -/
def Value.setField (reg : Registry) (v : Value) (name : String) (value : Value) :
    Except Error Value :=
  match v with
  | .record schema values => do return (← (Record.mk schema values).set reg name value).toValue
  | v => .error (v.mismatch "record")

end FieldMask
