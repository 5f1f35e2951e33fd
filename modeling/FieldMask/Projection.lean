import FieldMask.Selection

/-!
# Projection

The selected part of a value. Records become objects by serialized names; arrays and objects are
projected item by item, and pointers are followed. A field with nothing to show is `null` if the
selection names it, and is left out if the selection is open.

* `Value.project` projects a value through a selection of its record.
* `Value.projectAny` projects a value of a field of type `any`: every record in full.
* `Value.projectWith` takes a selection of either kind, or none.
-/

namespace FieldMask

namespace Value

mutual

/-- Whether there is a pointer in a value, records aside. -/
def hasRef : Value → Bool
  | ref _ => true
  | array items => anyHasRef items
  | object entries => anyEntryHasRef entries
  | _ => false
termination_by structural v => v

/-- Whether there is a pointer in any of the values. -/
def anyHasRef : List Value → Bool
  | [] => false
  | v :: rest => v.hasRef || anyHasRef rest
termination_by structural vs => vs

/-- Whether there is a pointer in any value of a map. -/
def anyEntryHasRef {bound : Option String} : Entries String Value bound → Bool
  | .nil => false
  | .cons _ v _ rest => v.hasRef || anyEntryHasRef rest
termination_by structural es => es

end

mutual

/-- The value with its pointers followed, records aside. Arrays and objects without pointers are
    taken as they are. -/
def plain : Value → Value
  | ref target => target.plain
  | array items => if anyHasRef items then array (plainItems items) else array items
  | object entries =>
    if anyEntryHasRef entries then object (plainEntries entries) else object entries
  | v => v
termination_by structural v => v

/-- The items with their pointers followed. -/
def plainItems : List Value → List Value
  | [] => []
  | v :: rest => v.plain :: plainItems rest
termination_by structural vs => vs

/-- The entries with their pointers followed. -/
def plainEntries {bound : Option String} :
    Entries String Value bound → Entries String Value bound
  | .nil => .nil
  | .cons key v above rest => .cons key v.plain above (plainEntries rest)
termination_by structural es => es

end

/-- The error of a value that is no record of the one expected. -/
def recordMismatch (expected : Schema) (actual : String) : Error :=
  .of (.typeMismatch expected.name actual)

/-- Add a projected field to an object: what has nothing to show is `null` if the selection names
    its fields, and is left out if it does not. -/
def addProjected (named : Bool) (name : String) (v : Value) (entries : OrderedMap String Value) :
    OrderedMap String Value :=
  if v.isHollow then if named then entries.insert name null else entries
  else entries.insert name v

mutual

/-- The part of a value that a selection selects. -/
def project (reg : Registry) (s : RecordSelection) : Value → Except Error Value
  | null => .ok null
  | ref target => target.project reg s
  | array items => do return array (← projectItems reg s 0 items)
  | object entries => do return object (← projectEntries reg s entries)
  | record schema values =>
    if schema = s.record then do
      return object (← projectFields reg s .nil (schema.fields.zipIdx) values)
    else .error (recordMismatch s.record schema.name)
  | v => .error (recordMismatch s.record v.kind)
termination_by structural v => v

/-- The selected parts of items, the first at an index. -/
def projectItems (reg : Registry) (s : RecordSelection) (index : Nat) :
    List Value → Except Error (List Value)
  | [] => .ok []
  | v :: rest => do
    let item ← within (toString index) (v.project reg s)
    return item :: (← projectItems reg s (index + 1) rest)
termination_by structural vs => vs

/-- The selected parts of the values of a map. -/
def projectEntries {bound : Option String} (reg : Registry) (s : RecordSelection) :
    Entries String Value bound → Except Error (Entries String Value bound)
  | .nil => .ok .nil
  | .cons key v above rest => do
    let value ← within key (v.project reg s)
    return .cons key value above (← projectEntries reg s rest)
termination_by structural es => es

/-- The selected parts of the values of fields, given with their indices, added to those of the
    fields before them. Of fields that share a serialized name the last counts. -/
def projectFields (reg : Registry) (s : RecordSelection) (before : OrderedMap String Value)
    (fields : List (Field × Nat)) : List Value → Except Error (OrderedMap String Value)
  | [] => .ok before
  | v :: values => match fields with
    | [] => .ok before
    | (f, i) :: fields =>
      match (if s.hasIndex i then f.json else none) with
      | none => projectFields reg s before fields values
      | some name =>
        -- Omission is decided by the value before its own selection applies, and once more after.
        if f.isHollow v then
          projectFields reg s (addProjected (!s.isUndefined) name null before) fields values
        else
          let nested :=
            if f.type.holdsAny then some (v.projectAny reg)
            else match f.record reg with
              | some r => some (v.project reg ((s.selectionOf reg i f).getD (.undefined r)))
              | none => none
          match nested with
          | some part => do
            let part ← within f.name part
            projectFields reg s (addProjected (!s.isUndefined) name part before) fields values
          | none => projectFields reg s (before.insert name v.plain) fields values
termination_by structural vs => vs

/-- A value of any type, its records in full. -/
def projectAny (reg : Registry) : Value → Except Error Value
  | ref target => target.projectAny reg
  | record schema values => do
    return object
      (← projectFields reg (.undefined schema) .nil (schema.fields.zipIdx) values)
  | array items => do return array (← projectAnyItems reg items)
  | object entries => do return object (← projectAnyEntries reg entries)
  | v => .ok v
termination_by structural v => v

/-- Items of any type, their records in full. -/
def projectAnyItems (reg : Registry) : List Value → Except Error (List Value)
  | [] => .ok []
  | v :: rest => do return (← v.projectAny reg) :: (← projectAnyItems reg rest)
termination_by structural vs => vs

/-- The values of a map, their records in full. -/
def projectAnyEntries {bound : Option String} (reg : Registry) :
    Entries String Value bound → Except Error (Entries String Value bound)
  | .nil => .ok .nil
  | .cons key v above rest => do
    let value ← v.projectAny reg
    return .cons key value above (← projectAnyEntries reg rest)
termination_by structural es => es

end

mutual

/-- The record of the first record in a value. -/
def recordIn? : Value → Option Schema
  | record schema _ => some schema
  | ref target => target.recordIn?
  | array items => recordInItems? items
  | object entries => recordInEntries? entries
  | _ => none
termination_by structural v => v

/-- The record of the first record in items. -/
def recordInItems? : List Value → Option Schema
  | [] => none
  | v :: rest => v.recordIn? <|> recordInItems? rest
termination_by structural vs => vs

/-- The record of the first record in the values of a map. -/
def recordInEntries? {bound : Option String} : Entries String Value bound → Option Schema
  | .nil => none
  | .cons _ v _ rest => v.recordIn? <|> recordInEntries? rest
termination_by structural es => es

end

/-- The part of a value that a selection of either kind selects. Without a selection, or without
    a record to bind it to, the value is taken as it is. -/
def projectWith (reg : Registry) (selection : Option Selection) (v : Value) :
    Except Error Value :=
  match selection with
  | none => .ok v
  | some (.ofRecord s) => v.project reg s
  | some (.byName s) =>
    if s.isUndefined then .ok v
    else match v.recordIn? with
      | some found => do v.project reg (← RecordSelection.ofNames reg found s)
      | none => .ok v

/-- The selected part of a value as JSON text. -/
def renderWith (reg : Registry) (s : RecordSelection) (v : Value) : Except Error String := do
  return (← v.project reg s).compact

end Value

end FieldMask
