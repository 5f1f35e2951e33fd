import FieldMask.NameSelection.Printer
import FieldMask.RecordSelection.Basic

/-!
# Writing selections of a record

The canonical expression of a selection, by the names of the fields or by their serialized names.
By serialized names, fields that are not serialized are left out.
-/

namespace FieldMask.RecordSelection

mutual

/-- The characters of the expression, by a choice of names. -/
def render (nameOf : Field → Option String) : RecordSelection → List Char
  | undefined _ => []
  | defined record fields => renderFields (renderEach nameOf record fields)
termination_by structural s => s

/-- The chosen names of fields with the expressions of their selections. -/
def renderEach {bound : Option Nat} (nameOf : Field → Option String) (record : Schema) :
    Entries Nat (Option RecordSelection) bound → List (List Char × List Char)
  | .nil => []
  | .cons i child _ rest =>
    let nested := match child with
      | some c => c.render nameOf
      | none => []
    match record.fields[i]? >>= nameOf with
    | some name => (name.toList, nested) :: renderEach nameOf record rest
    | none => renderEach nameOf record rest
termination_by structural es => es

end

/-- The canonical expression, by names. -/
def expr (s : RecordSelection) : String := String.ofList (s.render fun f => some f.name)

/-- The canonical expression, by serialized names. -/
def jsonExpr (s : RecordSelection) : String := String.ofList (s.render Field.json)

/-- The selection in words. -/
def text (s : RecordSelection) : String :=
  s.record.name ++ "Selection(" ++ (if s.expr = "" then "*" else s.expr) ++ ")"

end FieldMask.RecordSelection
