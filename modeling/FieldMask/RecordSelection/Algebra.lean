import FieldMask.RecordSelection.Binding

/-!
# The algebra of selections of a record

Selections of one record are compared and combined field by field. An operand that is left open
stands for the default fields of the record.

* `contains`, `pick`, `exclude`, `assign` combine selections that are promised to be of the same
  record, and so at every field that both name. `contains` merely is false where they are not.
* `has`, `pickQuery`, `excludeQuery`, `assignQuery` bind a query to the record first.
* `setField`, `assignToField` give one field a selection.
-/

namespace FieldMask.RecordSelection

/-- That another selection is of the same record, as promised. -/
def sameRecord (s other : RecordSelection) : Except Misuse Unit :=
  if s.record = other.record then .ok ()
  else .error (.otherRecord s.record.name other.record.name)

mutual

/-- Whether all that a query names is selected. A query that is left open asks for the default
    fields. -/
def contains (reg : Registry) (s : RecordSelection) : RecordSelection → Bool
  | undefined record =>
    s.record = record && (s.isUndefined || record.defaultFields.all fun (i, _) => s.hasIndex i)
  | defined record query => s.record = record && containsEach reg s query
termination_by structural query => query

/-- Whether all fields of a query are selected. -/
def containsEach {bound : Option Nat} (reg : Registry) (s : RecordSelection) :
    Entries Nat (Option RecordSelection) bound → Bool
  | .nil => true
  | .cons i none _ rest => s.hasIndex i && containsEach reg s rest
  | .cons i (some query) _ rest =>
    let current := match s.record.fields[i]? with
      | some f => s.selectionOf reg i f
      | none => none
    s.hasIndex i &&
      (match current with
        | some current => query.isUndefined || current.contains reg query
        | none => true) && containsEach reg s rest
termination_by structural query => query

end

mutual

/-- What is selected by both. -/
def pick (reg : Registry) (s : RecordSelection) : RecordSelection → Except Misuse RecordSelection
  | undefined record => do
    s.sameRecord (undefined record)
    match s with
    | undefined record => return undefined record
    -- An open query picks the default fields.
    | defined record fields =>
      return defined record (Entries.ofList (fields.toList.filter fun (i, _) =>
        match record.fields[i]? with
        | some f => record.isDefault f
        | none => false))
  | defined record query => do
    s.sameRecord (defined record query)
    return defined s.record (← pickEach reg (s.ensureDefined reg).entries query)
termination_by structural query => query

/-- The fields of a query that are among the given ones. -/
def pickEach {bound : Option Nat} (reg : Registry)
    (fields : OrderedMap Nat (Option RecordSelection)) :
    Entries Nat (Option RecordSelection) bound →
      Except Misuse (OrderedMap Nat (Option RecordSelection))
  | .nil => .ok .nil
  | .cons i none _ rest => do
    let picked ← pickEach reg fields rest
    match fields.get? i with
    | some current => return picked.insert i current
    | none => return picked
  | .cons i (some query) _ rest =>
    match fields.get? i with
    | some (some current) => do
      let child ← if query.isUndefined then pure current else current.pick reg query
      return (← pickEach reg fields rest).insert i (some child)
    | some none => do return (← pickEach reg fields rest).insert i none
    | none => pickEach reg fields rest
termination_by structural query => query

end

mutual

/-- The selection without what a query names. A field that the query names in full is dropped,
    and so is one that would be left with nothing. -/
def exclude (reg : Registry) (s : RecordSelection) :
    RecordSelection → Except Misuse RecordSelection
  | undefined record => do
    s.sameRecord (undefined record)
    return s
  | defined record query => do
    s.sameRecord (defined record query)
    if query.isEmpty then return s
    else return defined s.record (← excludeEach reg (s.ensureDefined reg).entries query)
termination_by structural query => query

/-- The given fields without those of a query. -/
def excludeEach {bound : Option Nat} (reg : Registry)
    (fields : OrderedMap Nat (Option RecordSelection)) :
    Entries Nat (Option RecordSelection) bound →
      Except Misuse (OrderedMap Nat (Option RecordSelection))
  | .nil => .ok fields
  | .cons i none _ rest => do return (← excludeEach reg fields rest).erase i
  | .cons i (some query) _ rest =>
    if query.isUndefined then do return (← excludeEach reg fields rest).erase i
    else if query.isEmpty then excludeEach reg fields rest
    else match fields.get? i with
      | some (some current) => do
        let remaining ← current.exclude reg query
        let left ← excludeEach reg fields rest
        return if remaining.isEmpty then left.erase i else left.insert i (some remaining)
      | _ => excludeEach reg fields rest
termination_by structural query => query

end

mutual

/-- What is named by either. A field that only one of them details is selected in that detail. An
    open selection adds its default fields to one that is defined; by itself it names nothing. -/
def assign (reg : Registry) (s : RecordSelection) :
    RecordSelection → Except Misuse RecordSelection
  | undefined record => do
    s.sameRecord (undefined record)
    match s with
    | undefined record => return undefined record
    -- An open operand adds the default fields.
    | s => return s.addMissing reg record.defaultFields
  | defined record other => do
    s.sameRecord (defined record other)
    return defined s.record (← assignEach reg s.entries other)
termination_by structural other => other

/-- The given fields and those of another selection. -/
def assignEach {bound : Option Nat} (reg : Registry)
    (fields : OrderedMap Nat (Option RecordSelection)) :
    Entries Nat (Option RecordSelection) bound →
      Except Misuse (OrderedMap Nat (Option RecordSelection))
  | .nil => .ok fields
  | .cons i none _ rest => do
    let merged ← assignEach reg fields rest
    return if (fields.get? i).isSome then merged else merged.insert i none
  | .cons i (some other) _ rest => do
    let child ← match fields.get? i with
      | some (some current) =>
        if other.isUndefined then pure current
        else if current.isUndefined then pure other
        else current.assign reg other
      | _ => pure other
    return (← assignEach reg fields rest).insert i (some child)
termination_by structural other => other

end

/-! ## Queries -/

/-- Whether all that a query asks for is selected. A query that cannot be bound is not. -/
def has (reg : Registry) (s : RecordSelection) (query : Query) : Bool :=
  match ofQuery reg s.record query with
  | .ok q => s.contains reg q
  | .error _ => false

/-- What is selected and asked for by a query. -/
def pickQuery (reg : Registry) (s : RecordSelection) (query : Query) :
    Except Failure RecordSelection := do
  let q ← ofQuery reg s.record query
  s.pick reg q

/-- What is selected and not named by a query. -/
def excludeQuery (reg : Registry) (s : RecordSelection) (query : Query) :
    Except Failure RecordSelection := do
  let q ← ofQuery reg s.record query
  s.exclude reg q

/-- What is selected or asked for by a query. -/
def assignQuery (reg : Registry) (s : RecordSelection) (query : Query) :
    Except Failure RecordSelection := do
  let q ← ofQuery reg s.record query
  s.assign reg q

/-- Name the field at an index that is promised to exist with the selection that a query asks
    for, replacing the one it has. -/
def setField (reg : Registry) (s : RecordSelection) (index : Nat) (query : Query) :
    Except Failure RecordSelection := do
  let f ← s.record.fieldAt index
  let child ← f.bind reg query
  return s.put index child

/-- Name the field at an index that is promised to exist with the selection that a query asks
    for, in addition to the one it has. -/
def assignToField (reg : Registry) (s : RecordSelection) (index : Nat) (query : Query) :
    Except Failure RecordSelection := do
  let f ← s.record.fieldAt index
  let child ← f.bind reg query
  let merged ← match s.explicit? index, child with
    | some (some current), some other =>
      if other.isUndefined then pure (some current)
      else if current.isUndefined then pure (some other)
      else some <$> (current.assign reg other : Except Misuse RecordSelection)
    | _, child => pure child
  return s.put index merged

/-- The selection bound to another record by its serialized names. -/
def toRecord (reg : Registry) (s : RecordSelection) (record : Schema) :
    Except Error RecordSelection :=
  if s.record = record then .ok s
  else if s.isUndefined then .ok (undefined record)
  else ofNames reg record (s.toNames reg)

end FieldMask.RecordSelection
