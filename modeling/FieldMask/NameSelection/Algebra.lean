import FieldMask.NameSelection.Basic

/-!
# The algebra of selections by name

Selections are compared and combined field by field, down to any depth.

* `contains`: whether one selection takes everything that another names.
* `pick`: what two selections have in common.
* `exclude`: a selection without what another names.
* `assign`: what either of two selections names.
-/

namespace FieldMask.NameSelection

mutual

/-- Whether all that a query names is selected. -/
def contains (s : NameSelection) : NameSelection → Bool
  | undefined => true
  | defined query => s.isUndefined || containsFields s.fields query
termination_by structural query => query

/-- Whether all fields of a query are among the given ones. -/
def containsFields {bound : Option String} (fields : OrderedMap String NameSelection) :
    Entries String NameSelection bound → Bool
  | .nil => true
  | .cons name query _ rest =>
    (match fields.get? name with
      | some child => child.contains query
      | none => false) && containsFields fields rest
termination_by structural query => query

end

mutual

/-- What is selected by both. -/
def pick (s : NameSelection) : NameSelection → NameSelection
  | undefined => s
  | defined query => match s with
    | undefined => defined query
    | defined fields => defined (pickFields fields query)
termination_by structural query => query

/-- The fields of a query that are among the given ones. -/
def pickFields {bound : Option String} (fields : OrderedMap String NameSelection) :
    Entries String NameSelection bound → OrderedMap String NameSelection
  | .nil => .nil
  | .cons name query _ rest =>
    let picked := pickFields fields rest
    match fields.get? name with
    | some child => picked.insert name (child.pick query)
    | none => picked
termination_by structural query => query

end

mutual

/-- The selection without what a query names. A field that the query names in full is dropped,
    and so is one that would be left with nothing. Without a schema, "all but some" of a field that
    is selected in full cannot be said, so that field is dropped as well. -/
def exclude (s : NameSelection) : NameSelection → NameSelection
  | undefined => s
  | defined query => if query.isEmpty then s else defined (excludeFields s.fields query)
termination_by structural query => query

/-- The given fields without those of a query. -/
def excludeFields {bound : Option String} (fields : OrderedMap String NameSelection) :
    Entries String NameSelection bound → OrderedMap String NameSelection
  | .nil => fields
  | .cons name query _ rest =>
    let left := excludeFields fields rest
    match fields.get? name with
    | none => left
    | some child =>
      if query.isUndefined then left.erase name
      else if query.isEmpty then left
      else if child.isUndefined then left.erase name
      else
        let remaining := child.exclude query
        if remaining.isEmpty then left.erase name else left.insert name remaining
termination_by structural query => query

end

mutual

/-- What is named by either. A field that only one of them details is selected in that detail. -/
def assign (s : NameSelection) : NameSelection → NameSelection
  | undefined => s
  | defined other => match s with
    -- Naming nothing leaves the selection open.
    | undefined => if other.isEmpty then undefined else defined other
    | defined fields => defined (assignFields fields other)
termination_by structural other => other

/-- The given fields and those of another selection. -/
def assignFields {bound : Option String} (fields : OrderedMap String NameSelection) :
    Entries String NameSelection bound → OrderedMap String NameSelection
  | .nil => fields
  | .cons name other _ rest =>
    let merged := assignFields fields rest
    match fields.get? name with
    | none => merged.insert name other
    | some child =>
      if other.isUndefined then merged
      else if child.isUndefined then merged.insert name other
      else merged.insert name (child.assign other)
termination_by structural other => other

end

end FieldMask.NameSelection
