import FieldMask.NameSelection.Printer
import FieldMask.Query

/-!
# Binding selections to records

A selection by name is bound to a record by looking up its names, down to any depth. Names that
the record does not declare are reported together, after everything below the others has been
bound. `__typename` may be selected on any record and is bound to nothing.

* `RecordSelection.ofNames` binds a selection by name.
* `RecordSelection.ofQuery` binds any query; a selection of the record is taken as it is.
* `Field.bind` binds the selection of a field.
-/

namespace FieldMask

namespace RecordSelection

/-- A name that may be selected on any record, and stands for no field. -/
def typename : String := "__typename"

mutual

/-- Bind a selection by name to a record. Of two names of one field the later one counts. -/
def ofNames (reg : Registry) (record : Schema) : NameSelection → Except Error RecordSelection
  | .undefined => .ok (undefined record)
  | .defined fields => do
    let (bound, unknown) ← ofNamesEach reg record fields
    if unknown.isEmpty then return defined record (Entries.ofList bound)
    else throw (.of (.unrecognizedFields unknown))
termination_by structural s => s

/-- Bind named fields: the indices of those that the record declares with their selections, and
    the names of the others. Fields without a nested record must be selected in full. -/
def ofNamesEach {bound : Option String} (reg : Registry) (record : Schema) :
    Entries String NameSelection bound →
      Except Error (List (Nat × Option RecordSelection) × List String)
  | .nil => .ok ([], [])
  | .cons name child _ rest => match record.lookup? name with
    | some (i, f) => do
      let nested ← within f.name (match f.record reg with
        | some r => do return some (← ofNames reg r child)
        | none =>
          if child.isUndefined then .ok none
          else .error (.of (.notFragmentable f.name child.expr)))
      let (bound, unknown) ← ofNamesEach reg record rest
      return ((i, nested) :: bound, unknown)
    | none => do
      let (bound, unknown) ← ofNamesEach reg record rest
      -- What is selected below `__typename` does not matter.
      return (bound, if name = typename then unknown else name :: unknown)
termination_by structural es => es

end

/-- Bind a query to a record. A selection of a record is not bound anew: it has to be one of the
    same record, or be left open. -/
def ofQuery (reg : Registry) (record : Schema) : Query → Except Error RecordSelection
  | .ofRecord s =>
    if s.isUndefined then .ok (undefined record)
    else if s.record = record then .ok s
    else .error (.of (.typeMismatch record.name s.record.name))
  | query => do ofNames reg record (← query.toNames reg)

end RecordSelection

/-- Bind a query to the nested record of a field. A field without one only admits a query that
    leaves the selection open. -/
def Field.bind (reg : Registry) (f : Field) (query : Query) :
    Except Error (Option RecordSelection) :=
  within f.name (match f.record reg with
    | some record => do return some (← RecordSelection.ofQuery reg record query)
    | none => do
      let s ← query.toNames reg
      if s.isUndefined then return none
      else throw (.of (.notFragmentable f.name s.expr)))

end FieldMask
