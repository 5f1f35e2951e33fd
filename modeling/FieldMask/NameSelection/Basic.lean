import FieldMask.OrderedMap.Lemmas

/-!
# Selections by name

A selection says which fields of a record to take, and which fields of nested records in turn.
Here fields are given by name, without a schema. A selection may be left open, which takes
everything; a field whose own selection is left open is taken in full.

* `NameSelection.field?` is the view of a defined selection: the fields it names.
* `NameSelection.hasName`, `hasPath`: what a selection takes.
* `NameSelection.add`, `remove`, `set`: changes of single fields.
-/

namespace FieldMask

/-- A selection of fields by name. -/
inductive NameSelection where
  /-- Left open: everything is selected. -/
  | undefined
  /-- The named fields are selected, each with a selection of its own. -/
  | defined (fields : Entries String NameSelection none)

namespace NameSelection

instance : Inhabited NameSelection := ⟨undefined⟩

/-- The selection of no field. -/
def empty : NameSelection := defined .nil

/-! ## Equality -/

mutual

/-- Whether two selections are equal. -/
def same : NameSelection → NameSelection → Bool
  | undefined, undefined => true
  | defined a, defined b => sameFields a b
  | _, _ => false
termination_by structural s => s

/-- Whether two maps of selections are equal. -/
def sameFields {b₁ b₂ : Option String} :
    Entries String NameSelection b₁ → Entries String NameSelection b₂ → Bool
  | .nil, .nil => true
  | .cons k a _ as, .cons l b _ bs => k == l && a.same b && sameFields as bs
  | _, _ => false
termination_by structural es => es

end

mutual

/-- Selections are compared as trees. -/
theorem same_iff : ∀ a b : NameSelection, a.same b = true ↔ a = b
  | undefined, b => by cases b <;> simp [same]
  | defined a, b => by cases b <;> simp [same, sameFields_iff a]
termination_by structural a => a

/-- Fields are compared one by one. -/
theorem sameFields_iff {bound : Option String} :
    ∀ a b : Entries String NameSelection bound, sameFields a b = true ↔ a = b
  | .nil, b => by cases b <;> simp [sameFields]
  | .cons k a above as, b => by
    cases b with
    | nil => simp [sameFields]
    | cons l b above' bs =>
      simp only [sameFields, Bool.and_eq_true, beq_iff_eq, same_iff a b]
      constructor
      · rintro ⟨⟨rfl, rfl⟩, h⟩
        rw [(sameFields_iff as bs).1 h]
      · intro h
        cases h
        exact ⟨⟨rfl, rfl⟩, (sameFields_iff as as).2 rfl⟩
termination_by structural a => a

end

instance : DecidableEq NameSelection := fun a b => decidable_of_iff _ (same_iff a b)

/-! ## What is selected -/

/-- Whether the selection is left open. -/
def isUndefined : NameSelection → Bool
  | undefined => true
  | defined _ => false

/-- Whether the selection is defined and selects no field. -/
def isEmpty : NameSelection → Bool
  | undefined => false
  | defined fields => fields.isEmpty

/-- Whether no field is named. -/
def isUndefinedOrEmpty (s : NameSelection) : Bool := s.isUndefined || s.isEmpty

/-- The named fields with their selections. -/
def fields : NameSelection → OrderedMap String NameSelection
  | undefined => .nil
  | defined fields => fields

/-- The number of named fields. -/
def size (s : NameSelection) : Nat := s.fields.size

/-- The names of the named fields, in order. -/
def names (s : NameSelection) : List String := s.fields.keys

/-- The selection of a named field. -/
def field? (s : NameSelection) (name : String) : Option NameSelection := s.fields.get? name

/-- Whether a field is selected. -/
def hasName (s : NameSelection) (name : String) : Bool :=
  s.isUndefined || s.fields.contains name

/-- Whether the field at the end of a path of names is selected. -/
def hasPath (s : NameSelection) : List String → Bool
  | [] => true
  | name :: rest =>
    s.isUndefined || match s.field? name with
      | some child => child.hasPath rest
      | none => false

/-! ## Changing single fields -/

/-- Name a field with a selection, replacing the one it has. A selection that was left open is
    defined after that. -/
def set (s : NameSelection) (name : String) (child : NameSelection) : NameSelection :=
  defined (s.fields.insert name child)

/-- Name fields in full; those that are named already keep their selections. -/
def add (s : NameSelection) (names : List String) : NameSelection :=
  defined (names.foldl (fun fields name =>
    if fields.contains name then fields else fields.insert name undefined) s.fields)

/-- Drop fields. Without names to drop nothing changes; otherwise the result is defined. -/
def remove (s : NameSelection) (names : List String) : NameSelection :=
  if names.isEmpty then s else defined (names.foldl Entries.erase s.fields)

/-- The selection, the empty one if it is left open. -/
def ensureDefined : NameSelection → NameSelection
  | undefined => empty
  | s => s

end NameSelection

end FieldMask
