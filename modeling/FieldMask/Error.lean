import FieldMask.Text.Quoted

/-!
# Errors

An error is a cause and the path of the fields at which it arose, outermost first. Causes are
data; their wording is in `Cause.message` alone.

* `Error`: a request that could not be met, with the path to the failing place.
* `Misuse`: a call outside the contract of an operation that does not check its arguments.
* `Failure`: either, for operations that check some of their arguments and rely on others.
-/

namespace FieldMask

open Text (quoted inQuotes)

/-- What is wrong with a record declaration. -/
inductive SchemaFault where
  /-- The name of the record is blank. -/
  | blankRecordName
  /-- A name or serialized name that an expression could not spell. -/
  | invalidFieldName (name record : String)
  /-- Two fields of one name. -/
  | duplicateField (name record : String)
deriving DecidableEq, Repr

/-- The fault in words. -/
def SchemaFault.message : SchemaFault → String
  | blankRecordName => "record name must not be empty"
  | invalidFieldName name record => "invalid field name " ++ quoted name ++ " in record " ++ record
  | duplicateField name record =>
    "duplicate field " ++ inQuotes name ++ " in record " ++ record

/-- Why a request could not be met. -/
inductive Cause where
  /-- A closing brace without an opening one, at a position counted in UTF-8 bytes. -/
  | unexpectedClosingBrace (index : Nat) (expr : String)
  /-- An opening brace that is never closed. -/
  | missingClosingBrace (expr : String)
  /-- A part with text after its block. -/
  | moreThanOneSpace (part : String)
  /-- A block without a field name in front of it. -/
  | missingFieldName (part : String)
  /-- Names that the record does not declare. -/
  | unrecognizedFields (names : List String)
  /-- A nested selection of a field without a nested record. -/
  | notFragmentable (field expr : String)
  /-- A selection or value of another record or kind than the expected one. -/
  | typeMismatch (expected actual : String)
  /-- A name that a record does not declare. -/
  | unknownName (name record : String)
  /-- An index beyond the fields of a record. -/
  | unknownIndex (index : Nat) (record : String)
  /-- Data that is no selection. -/
  | notASelection (json : String)
  /-- An item of a list of names that is no name. -/
  | nonStringName (json : String)
  /-- A path that goes on behind its tail selection. -/
  | continuesAfterTail (name : String)
  /-- A field index on a path without a schema. -/
  | indexWithoutSchema (index : Nat)
  /-- Text that is not JSON. -/
  | malformedJson
  /-- A value that has no form of the type asked for. -/
  | conversion (value target : String)
  /-- A record declaration that is refused. -/
  | schema (fault : SchemaFault)
  /-- A schema document of the wrong shape. -/
  | malformedSchema
deriving DecidableEq, Repr

/-- Names in quotes, as in `"a", "b", and "c"`. -/
def enumerated (names : List String) : String :=
  match names.map inQuotes with
  | [] => ""
  | [a] => a
  | [a, b] => a ++ " and " ++ b
  | a :: b :: rest =>
    let all := a :: b :: rest
    String.intercalate ", " all.dropLast ++ ", and " ++ all.getLastD ""

/-- The cause in words. -/
def Cause.message : Cause → String
  | unexpectedClosingBrace index expr =>
    "unexpected closing brace at index " ++ toString index ++ " in " ++ inQuotes expr
  | missingClosingBrace expr => "missing closing brace in " ++ inQuotes expr
  | moreThanOneSpace part =>
    "failed parsing " ++ inQuotes part ++ ": contains more than one space"
  | missingFieldName part => "failed parsing " ++ inQuotes part ++ ": missing field name"
  | unrecognizedFields names => "unrecognized field(s): " ++ enumerated names
  | notFragmentable field expr =>
    "expected undefined selection for non-fragmentable field " ++ inQuotes field ++
      ", but received " ++ inQuotes expr
  | typeMismatch expected actual =>
    "type mismatch: expected " ++ expected ++ ", but received " ++ actual
  | unknownName name record => "unknown field " ++ inQuotes name ++ " in record " ++ record
  | unknownIndex index record =>
    "unknown field #" ++ toString index ++ " in record " ++ record
  | notASelection json => "cannot parse selection from " ++ json
  | nonStringName json => "cannot parse selection from non-string field name " ++ json
  | continuesAfterTail name =>
    "cannot parse selection from path continues with " ++ inQuotes name ++
      " after its tail selection"
  | indexWithoutSchema index =>
    "cannot parse selection from field index " ++ toString index ++ " needs a record schema"
  | malformedJson => "cannot parse selection from malformed JSON"
  | conversion value target => "cannot convert " ++ value ++ " to " ++ target
  | schema fault => "invalid schema: " ++ fault.message
  | malformedSchema => "invalid schema: malformed document"

/-- A cause, and the names of the fields at which it arose, outermost first. -/
structure Error where
  path : List String
  cause : Cause
deriving DecidableEq, Repr

namespace Error

/-- The error of a cause without a path. -/
def of (cause : Cause) : Error := ⟨[], cause⟩

/-- The error as seen from an enclosing field. -/
def under (field : String) (e : Error) : Error := { e with path := field :: e.path }

/-- The error in words, the path in parentheses behind it. -/
def message (e : Error) : String :=
  if e.path.isEmpty then e.cause.message
  else e.cause.message ++ " (" ++ String.intercalate "." e.path ++ ")"

end Error

/-- Report the errors of a computation as seen from an enclosing field. -/
def within {α : Type} (field : String) : Except Error α → Except Error α
  | .ok a => .ok a
  | .error e => .error (e.under field)

/-- A call outside the contract of an operation. -/
inductive Misuse where
  /-- An index beyond the fields of a record. -/
  | noFieldAt (record : String) (index count : Nat)
  /-- A name that a record does not declare. -/
  | noFieldNamed (record name : String)
  /-- A selection of another record than the receiver's. -/
  | otherRecord (expected received : String)
  /-- A record declaration that is refused. -/
  | schema (fault : SchemaFault)
deriving DecidableEq, Repr

/-- The misuse in words. -/
def Misuse.message : Misuse → String
  | noFieldAt record index count =>
    "record " ++ record ++ " has no field at index " ++ toString index ++ " (" ++
      toString count ++ " fields)"
  | noFieldNamed record name => "record " ++ record ++ " has no field named " ++ inQuotes name
  | otherRecord expected received =>
    "expected selection of " ++ expected ++ " but received selection of " ++ received
  | schema fault => "invalid schema: " ++ fault.message

/-- What stops an operation that checks some of its arguments and relies on others. -/
inductive Failure where
  | error (e : Error)
  | misuse (m : Misuse)
deriving DecidableEq, Repr

/-- The failure as seen from an enclosing field. Only errors have a path. -/
def Failure.under (field : String) : Failure → Failure
  | error e => error (e.under field)
  | misuse m => misuse m

instance : MonadLift (Except Error) (Except Failure) := ⟨Except.mapError .error⟩

instance : MonadLift (Except Misuse) (Except Failure) := ⟨Except.mapError .misuse⟩

end FieldMask
