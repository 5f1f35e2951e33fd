import FieldMask.OrderedMap.Lemmas
import FieldMask.Schema.Basic

/-!
# Registries

A registry gives names to records. `FieldType.recordOf` looks types up in one: it is the nested
record that a selection of a field selects from. Every operation that has to resolve names takes
the registry as an argument, so what it does depends on nothing else.
-/

namespace FieldMask

/-- Records by the names they are registered under. -/
structure Registry where
  records : OrderedMap String Schema

/-- Why a record could not be registered. -/
inductive RegistryError where
  | alreadyExists (name : String)
  | invalidName (name : String)
deriving DecidableEq, Repr

/-- The reason in words. -/
def RegistryError.message : RegistryError → String
  | alreadyExists name =>
    "Record registration failed: a record named '" ++ name ++ "' is already registered."
  | invalidName name =>
    "Record registration failed: the name '" ++ name ++
      "' is invalid (empty or whitespace-only names are not allowed)."

namespace Registry

/-- The registry without records. -/
def empty : Registry := ⟨.nil⟩

instance : Inhabited Registry := ⟨empty⟩

/-- The record of a name. -/
def get? (reg : Registry) (name : String) : Option Schema := reg.records.get? name

/-- Whether a record has the name. -/
def contains (reg : Registry) (name : String) : Bool := reg.records.contains name

/-- Give a name to a record. The name must not be blank or taken. -/
def registerAs (reg : Registry) (name : String) (schema : Schema) :
    Except RegistryError Registry :=
  if (Text.trim name.toList).isEmpty then .error (.invalidName name)
  else if reg.contains name then .error (.alreadyExists name)
  else .ok ⟨reg.records.insert name schema⟩

/-- Register a record under its own name. -/
def register (reg : Registry) (schema : Schema) : Except RegistryError Registry :=
  reg.registerAs schema.name schema

/-- Free a name. -/
def remove (reg : Registry) (name : String) : Registry := ⟨reg.records.erase name⟩

/-- The names in use, in increasing order. -/
def names (reg : Registry) : List String := reg.records.keys

end Registry

/-- The record that values of the type hold, directly or through arrays, maps and pointers. -/
def FieldType.recordOf (reg : Registry) : FieldType → Option Schema
  | record schema => some schema
  | array items => items.recordOf reg
  | map values => values.recordOf reg
  | ref name => reg.get? name
  | _ => none

/-- The nested record of the field. A field without one only admits the selection that is left
    open. -/
def Field.record (reg : Registry) (f : Field) : Option Schema := f.type.recordOf reg

/-- What a type holds is registered, or it is declared within the type. -/
theorem FieldType.mem_values_or_sizeOf_lt {reg : Registry} {nested : Schema} :
    ∀ {t : FieldType}, t.recordOf reg = some nested →
      nested ∈ reg.records.values ∨ sizeOf nested < sizeOf t
  | record schema, h => by
    simp only [recordOf, Option.some.injEq] at h
    simp [h]
  | array items, h =>
    (items.mem_values_or_sizeOf_lt h).imp_right fun lt => by simp; omega
  | map values, h =>
    (values.mem_values_or_sizeOf_lt h).imp_right fun lt => by simp; omega
  | ref name, h => .inl (Entries.mem_values_of_get?_eq_some h)
termination_by structural t => t

/-- A nested record of a schema is registered, or it is declared within the schema. -/
theorem Field.mem_values_or_sizeOf_lt {reg : Registry} {s nested : Schema} {f : Field}
    (hf : f ∈ s.fields) (h : f.record reg = some nested) :
    nested ∈ reg.records.values ∨ sizeOf nested < sizeOf s := by
  refine (FieldType.mem_values_or_sizeOf_lt h).imp_right fun lt => ?_
  have := List.sizeOf_lt_of_mem hf
  cases f
  cases s
  simp_all
  omega

end FieldMask
