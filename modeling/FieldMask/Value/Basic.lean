import FieldMask.Number.Basic
import FieldMask.Schema.Basic

/-!
# Values

Values are JSON data, records and pointers. A record holds the values of its fields in the order
of its schema. `null` stands for every absent value; a pointer marks that its target was set on
purpose.

* `Value.kind` names the form of a value, `Value.deref` follows pointers.
* `Value.asBool` and its like read a value of one form through pointers.
* `Value.same` compares values; the two zeros among the doubles are the same.
-/

namespace FieldMask

/-- A value. -/
inductive Value where
  | null
  | bool (b : Bool)
  | number (n : Number)
  | string (s : String)
  | array (items : List Value)
  | object (entries : Entries String Value none)
  | record (schema : Schema) (values : List Value)
  /-- A pointer. -/
  | ref (target : Value)

/-- A record: the values of the fields of a schema, in order. -/
structure Record where
  schema : Schema
  values : List Value

namespace Value

instance : Inhabited Value := ⟨null⟩

/-- The form of a value in a word. -/
def kind : Value → String
  | null => "null"
  | bool _ => "boolean"
  | number _ => "number"
  | string _ => "string"
  | array _ => "array"
  | object _ => "object"
  | record .. => "record"
  | ref _ => "reference"

/-- Whether the value is absent. -/
def isNull : Value → Bool
  | null => true
  | _ => false

/-- The value behind all pointers. -/
def deref : Value → Value
  | ref target => target.deref
  | v => v

/-! ## Equality -/

mutual

/-- Whether two values are the same. -/
def same : Value → Value → Bool
  | null, null => true
  | bool a, bool b => a == b
  | number a, number b => a.same b
  | string a, string b => a == b
  | array a, array b => sameItems a b
  | object a, object b => sameEntries a b
  | record s a, record t b => s == t && sameItems a b
  | ref a, ref b => a.same b
  | _, _ => false
termination_by structural v => v

/-- Whether two lists hold the same values. -/
def sameItems : List Value → List Value → Bool
  | [], [] => true
  | a :: as, b :: bs => a.same b && sameItems as bs
  | _, _ => false
termination_by structural vs => vs

/-- Whether two maps hold the same values under the same keys. -/
def sameEntries {b₁ b₂ : Option String} : Entries String Value b₁ → Entries String Value b₂ → Bool
  | .nil, .nil => true
  | .cons k a _ as, .cons l b _ bs => k == l && a.same b && sameEntries as bs
  | _, _ => false
termination_by structural vs => vs

end

/-! ## Reading through pointers -/

/-- The error of a value that has another form than the expected one. -/
def mismatch (expected : String) (v : Value) : Error := .of (.typeMismatch expected v.kind)

/-- The truth value. -/
def asBool (v : Value) : Except Error Bool :=
  match v.deref with
  | bool b => .ok b
  | v => .error (v.mismatch "boolean")

/-- The text. -/
def asString (v : Value) : Except Error String :=
  match v.deref with
  | string s => .ok s
  | v => .error (v.mismatch "string")

/-- The number. -/
def asNumber (v : Value) : Except Error Number :=
  match v.deref with
  | number n => .ok n
  | v => .error (v.mismatch "number")

/-- The items of an array. -/
def asArray (v : Value) : Except Error (List Value) :=
  match v.deref with
  | array items => .ok items
  | v => .error (v.mismatch "array")

/-- The entries of an object. -/
def asObject (v : Value) : Except Error (OrderedMap String Value) :=
  match v.deref with
  | object entries => .ok entries
  | v => .error (v.mismatch "object")

/-- The record. -/
def asRecord (v : Value) : Except Error Record :=
  match v.deref with
  | record schema values => .ok ⟨schema, values⟩
  | v => .error (v.mismatch "record")

end Value

namespace Record

/-- The record as a value. -/
def toValue (r : Record) : Value := .record r.schema r.values

/-- The value of a field, by its name or serialized name. -/
def get? (r : Record) (name : String) : Option Value := do
  r.values[← r.schema.indexOf? name]?

/-- The value of the field at an index. -/
def getAt? (r : Record) (index : Nat) : Option Value := r.values[index]?

end Record

namespace Value

/-- The item of an array at an index, `null` if there is none. -/
def itemAt (v : Value) (index : Nat) : Value :=
  match v.deref with
  | array items => items[index]?.getD null
  | _ => null

/-- The value of an object or record under a key, `null` if there is none. -/
def entryAt (v : Value) (key : String) : Value :=
  match v.deref with
  | object entries => (entries.get? key).getD null
  | record schema values => ((Record.mk schema values).get? key).getD null
  | _ => null

/-! ## Changing a value in place

These do not follow pointers. -/

/-- Append an item to an array. -/
def push (v item : Value) : Except Error Value :=
  match v with
  | array items => .ok (array (items ++ [item]))
  | v => .error (v.mismatch "array")

/-- Put a value under a key of an object. -/
def insertEntry (v : Value) (key : String) (value : Value) : Except Error Value :=
  match v with
  | object entries => .ok (object (entries.insert key value))
  | v => .error (v.mismatch "object")

end Value

end FieldMask
