import FieldMask.RecordSelection.Algebra
import FieldMask.RecordSelection.Printer

/-!
# Selections of either kind

A selection by name or one bound to a record. Queries are read in the way of the selection that
they are put to: by name, or bound to its record.
-/

namespace FieldMask

namespace NameSelection

/-- Whether all that a query asks for is selected. A query that cannot be read is not. -/
def has (reg : Registry) (s : NameSelection) (query : Query) : Bool :=
  match query.toNames reg with
  | .ok q => s.contains q
  | .error _ => false

/-- What is selected and asked for by a query. -/
def pickQuery (reg : Registry) (s : NameSelection) (query : Query) :
    Except Error NameSelection := do
  return s.pick (← query.toNames reg)

/-- What is selected and not named by a query. -/
def excludeQuery (reg : Registry) (s : NameSelection) (query : Query) :
    Except Error NameSelection := do
  return s.exclude (← query.toNames reg)

/-- What is selected or asked for by a query. -/
def assignQuery (reg : Registry) (s : NameSelection) (query : Query) :
    Except Error NameSelection := do
  return s.assign (← query.toNames reg)

end NameSelection

/-- A selection of either kind. -/
inductive Selection where
  | ofRecord (s : RecordSelection)
  | byName (s : NameSelection)
deriving DecidableEq

namespace Selection

/-- Read a query as a selection by name. -/
def ofQuery (reg : Registry) (query : Query) : Except Error Selection := do
  return byName (← query.toNames reg)

/-- The selection as a query. -/
def toQuery : Selection → Query
  | ofRecord s => .ofRecord s
  | byName s => .byName s

/-- Whether the selection is left open. -/
def isUndefined : Selection → Bool
  | ofRecord s => s.isUndefined
  | byName s => s.isUndefined

/-- Whether the selection is defined and selects no field. -/
def isEmpty : Selection → Bool
  | ofRecord s => s.isEmpty
  | byName s => s.isEmpty

/-- Whether no field is named. -/
def isUndefinedOrEmpty (s : Selection) : Bool := s.isUndefined || s.isEmpty

/-- The number of selected fields, or of named ones if there is no schema. -/
def size : Selection → Nat
  | ofRecord s => s.size
  | byName s => s.size

/-- Whether the field of a name is selected. -/
def hasName (s : Selection) (name : String) : Bool :=
  match s with
  | ofRecord s => s.hasName name
  | byName s => s.hasName name

/-- The canonical expression, by names. -/
def expr : Selection → String
  | ofRecord s => s.expr
  | byName s => s.expr

/-- The canonical expression, by serialized names. -/
def jsonExpr : Selection → String
  | ofRecord s => s.jsonExpr
  | byName s => s.expr

/-- The selection in words. -/
def text : Selection → String
  | ofRecord s => s.text
  | byName s => s.text

/-- Whether all that a query asks for is selected. -/
def has (reg : Registry) (s : Selection) (query : Query) : Bool :=
  match s with
  | ofRecord s => s.has reg query
  | byName s => s.has reg query

/-- What is selected and asked for by a query. -/
def pickQuery (reg : Registry) (s : Selection) (query : Query) : Except Failure Selection :=
  match s with
  | ofRecord s => ofRecord <$> s.pickQuery reg query
  | byName s => do return byName (← s.pickQuery reg query)

/-- What is selected and not named by a query. -/
def excludeQuery (reg : Registry) (s : Selection) (query : Query) : Except Failure Selection :=
  match s with
  | ofRecord s => ofRecord <$> s.excludeQuery reg query
  | byName s => do return byName (← s.excludeQuery reg query)

/-- What is selected or asked for by a query. -/
def assignQuery (reg : Registry) (s : Selection) (query : Query) : Except Failure Selection :=
  match s with
  | ofRecord s => ofRecord <$> s.assignQuery reg query
  | byName s => do return byName (← s.assignQuery reg query)

/-- The selection of a record, if it is one. -/
def record? : Selection → Option RecordSelection
  | ofRecord s => some s
  | byName _ => none

/-- The selection by serialized names. -/
def toNames (reg : Registry) : Selection → NameSelection
  | ofRecord s => s.toNames reg
  | byName s => s

/-- The selection bound to a record. -/
def toRecord (reg : Registry) (s : Selection) (record : Schema) : Except Error RecordSelection :=
  RecordSelection.ofQuery reg record s.toQuery

end Selection

end FieldMask
