import FieldMask.OrderedMap.Lemmas
import FieldMask.Schema.Registry

/-!
# Selections of a record

A selection bound to a record schema gives fields by their index. A field with a nested record
has a selection of that record, any other field has none. A selection that is left open selects
the default fields of its record: the marked ones if there are any, else all.

* `RecordSelection.explicit?` is the view of a defined selection: the fields it names.
* `RecordSelection.hasIndex`, `fieldSelection`: what a selection selects, field by field.
* `RecordSelection.ensureDefined`: the default fields, named one by one.

What a nested record is depends on the registry, where the schema refers to it by name.
-/

namespace FieldMask

/-- A selection of fields of a record. -/
inductive RecordSelection where
  /-- Left open: the default fields are selected. -/
  | undefined (record : Schema)
  /-- The fields at some indices are selected, those with a nested record with a selection of
      their own. -/
  | defined (record : Schema) (fields : Entries Nat (Option RecordSelection) none)

namespace RecordSelection

/-- The selection of no field. -/
def empty (record : Schema) : RecordSelection := defined record .nil

/-- The record that the selection is bound to. -/
def record : RecordSelection → Schema
  | undefined record => record
  | defined record _ => record

/-! ## Equality -/

mutual

/-- Whether two selections are equal. -/
def same : RecordSelection → RecordSelection → Bool
  | undefined r, undefined s => r == s
  | defined r a, defined s b => r == s && sameFields a b
  | _, _ => false
termination_by structural s => s

/-- Whether two maps of selections are equal. -/
def sameFields {b₁ b₂ : Option Nat} :
    Entries Nat (Option RecordSelection) b₁ → Entries Nat (Option RecordSelection) b₂ → Bool
  | .nil, .nil => true
  | .cons i none _ as, .cons j none _ bs => i == j && sameFields as bs
  | .cons i (some a) _ as, .cons j (some b) _ bs => i == j && a.same b && sameFields as bs
  | _, _ => false
termination_by structural es => es

end

mutual

/-- Selections are compared as trees, with their records. -/
theorem same_iff : ∀ a b : RecordSelection, a.same b = true ↔ a = b
  | undefined r, b => by cases b <;> simp [same]
  | defined r a, b => by cases b <;> simp [same, sameFields_iff a]
termination_by structural a => a

/-- Fields are compared one by one. -/
theorem sameFields_iff {bound : Option Nat} :
    ∀ a b : Entries Nat (Option RecordSelection) bound, sameFields a b = true ↔ a = b
  | .nil, b => by cases b <;> simp [sameFields]
  | .cons i none above as, b => by
    match b with
    | .nil => simp [sameFields]
    | .cons j (some _) _ _ => simp [sameFields]
    | .cons j none above' bs =>
      simp only [sameFields, Bool.and_eq_true, beq_iff_eq]
      constructor
      · rintro ⟨rfl, h⟩
        rw [(sameFields_iff as bs).1 h]
      · intro h
        cases h
        exact ⟨rfl, (sameFields_iff as as).2 rfl⟩
  | .cons i (some a) above as, b => by
    match b with
    | .nil => simp [sameFields]
    | .cons j none _ _ => simp [sameFields]
    | .cons j (some b) above' bs =>
      simp only [sameFields, Bool.and_eq_true, beq_iff_eq, same_iff a b]
      constructor
      · rintro ⟨⟨rfl, rfl⟩, h⟩
        rw [(sameFields_iff as bs).1 h]
      · intro h
        cases h
        exact ⟨⟨rfl, rfl⟩, (sameFields_iff as as).2 rfl⟩
termination_by structural a => a

end

instance : DecidableEq RecordSelection := fun a b => decidable_of_iff _ (same_iff a b)

/-! ## What is selected -/

/-- Whether the selection is left open. -/
def isUndefined : RecordSelection → Bool
  | undefined _ => true
  | defined .. => false

/-- Whether the selection is defined and selects no field. -/
def isEmpty : RecordSelection → Bool
  | undefined _ => false
  | defined _ fields => fields.isEmpty

/-- Whether no field is named. -/
def isUndefinedOrEmpty (s : RecordSelection) : Bool := s.isUndefined || s.isEmpty

/-- The named fields with their selections. -/
def entries : RecordSelection → OrderedMap Nat (Option RecordSelection)
  | undefined _ => .nil
  | defined _ fields => fields

/-- The number of selected fields. -/
def size : RecordSelection → Nat
  | undefined record => record.defaultFields.length
  | defined _ fields => fields.size

/-- The selection of a named field; it is `none` in itself for a field without a nested record. -/
def explicit? (s : RecordSelection) (index : Nat) : Option (Option RecordSelection) :=
  s.entries.get? index

/-- The selection of a field that is selected in full. -/
def fullChild (reg : Registry) (f : Field) : Option RecordSelection :=
  (f.record reg).map undefined

/-- The named fields, with their indices and selections. -/
def explicitFields (s : RecordSelection) : List (Nat × Field × Option RecordSelection) :=
  s.entries.toList.filterMap fun (i, child) => s.record.fields[i]?.map fun f => (i, f, child)

/-- The selected fields, with their indices and selections. -/
def fields (reg : Registry) (s : RecordSelection) :
    List (Nat × Field × Option RecordSelection) :=
  match s with
  | undefined record => record.defaultFields.map fun (i, f) => (i, f, fullChild reg f)
  | s => s.explicitFields

/-- Whether the field at an index is selected. -/
def hasIndex (s : RecordSelection) (index : Nat) : Bool :=
  match s.record.fields[index]? with
  | none => false
  | some f => match s with
    | undefined record => record.isDefault f
    | defined _ fields => fields.contains index

/-- Whether the field of a name is selected. -/
def hasName (s : RecordSelection) (name : String) : Bool :=
  match s.record.indexOf? name with
  | some i => s.hasIndex i
  | none => false

/-- The selection of a field: the one it is named with, else the one that is left open. It is
    `none` for a field without a nested record. -/
def selectionOf (reg : Registry) (s : RecordSelection) (index : Nat) (f : Field) :
    Option RecordSelection :=
  (s.explicit? index).getD (fullChild reg f)

/-- The selection of the field at an index that is promised to exist. -/
def fieldSelection (reg : Registry) (s : RecordSelection) (index : Nat) :
    Except Misuse (Option RecordSelection) := do
  return s.selectionOf reg index (← s.record.fieldAt index)

/-- The selection of the field of a name that is promised to be declared. -/
def namedSelection (reg : Registry) (s : RecordSelection) (name : String) :
    Except Misuse (Option RecordSelection) := do
  let (i, f) ← s.record.fieldNamed name
  return s.selectionOf reg i f

/-! ## Changing single fields -/

/-- Fields of a record, all selected in full. -/
def full (reg : Registry) (fields : List (Nat × Field)) :
    OrderedMap Nat (Option RecordSelection) :=
  Entries.ofList (fields.map fun (i, f) => (i, fullChild reg f))

/-- Every field of a record. -/
def complete (reg : Registry) (record : Schema) : RecordSelection :=
  defined record (full reg (record.fields.zipIdx.map fun (f, i) => (i, f)))

/-- The selection, with its default fields named if it is left open. -/
def ensureDefined (reg : Registry) : RecordSelection → RecordSelection
  | undefined record => defined record (full reg record.defaultFields)
  | s => s

/-- The selection of no field of the same record. -/
def clear (s : RecordSelection) : RecordSelection := empty s.record

/-- Name a field with a selection, replacing the one it has. -/
def put (s : RecordSelection) (index : Nat) (child : Option RecordSelection) : RecordSelection :=
  defined s.record (s.entries.insert index child)

/-- Drop a field. -/
def erase (s : RecordSelection) (index : Nat) : RecordSelection :=
  defined s.record (s.entries.erase index)

/-- Name fields in full; those that are named already keep their selections. A selection that was
    left open stops selecting its default fields, unless there is nothing to add. -/
def add (reg : Registry) (s : RecordSelection) (indices : List Nat) :
    Except Misuse RecordSelection :=
  indices.foldlM (fun s index => do
    let f ← s.record.fieldAt index
    return if (s.explicit? index).isSome then s else s.put index (fullChild reg f)) s

/-- Name fields in full that are not selected, given with their indices. A selection that was
    left open keeps its default fields. -/
def addMissing (reg : Registry) (s : RecordSelection) (fields : List (Nat × Field)) :
    RecordSelection :=
  fields.foldl (fun s (i, f) =>
    if s.hasIndex i then s else (s.ensureDefined reg).put i (fullChild reg f)) s

/-- Select fields that are not selected yet, in full. -/
def addExcluded (reg : Registry) (s : RecordSelection) (indices : List Nat) :
    Except Misuse RecordSelection :=
  indices.foldlM (fun s index => do
    let f ← s.record.fieldAt index
    return s.addMissing reg [(index, f)]) s

/-- Stop selecting fields. A selection that was left open keeps its other default fields. -/
def remove (reg : Registry) (s : RecordSelection) (indices : List Nat) :
    Except Misuse RecordSelection :=
  indices.foldlM (fun s index => do
    let _ ← s.record.fieldAt index
    return if s.hasIndex index then (s.ensureDefined reg).erase index else s) s

/-- The indices of names that are promised to be declared. -/
def indicesOf (s : RecordSelection) (names : List String) : Except Misuse (List Nat) :=
  names.mapM fun name => do return (← s.record.fieldNamed name).1

end RecordSelection

end FieldMask
