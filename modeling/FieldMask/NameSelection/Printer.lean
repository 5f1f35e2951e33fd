import FieldMask.NameSelection.Basic

/-!
# Writing selections

The canonical expression of a selection: nothing if it is left open, `{}` if it is empty, and
otherwise its fields in order, as in `{ a, b { c } }`.
-/

namespace FieldMask

/-- Fields with the expressions of their selections, as one expression. -/
def renderFields (fields : List (List Char × List Char)) : List Char :=
  let field (f : List Char × List Char) : List Char :=
    if f.2.isEmpty then f.1 else f.1 ++ ' ' :: f.2
  match fields with
  | [] => ['\x7b', '\x7d']
  | fields => ['\x7b', ' '] ++ [',', ' '].intercalate (fields.map field) ++ [' ', '\x7d']

namespace NameSelection

mutual

/-- The characters of the expression. -/
def render : NameSelection → List Char
  | undefined => []
  | defined fields => renderFields (renderEach fields)
termination_by structural s => s

/-- The names of fields with the expressions of their selections. -/
def renderEach {bound : Option String} :
    Entries String NameSelection bound → List (List Char × List Char)
  | .nil => []
  | .cons name child _ rest => (name.toList, child.render) :: renderEach rest
termination_by structural es => es

end

/-- The canonical expression. -/
def expr (s : NameSelection) : String := String.ofList s.render

/-- The selection in words. -/
def text (s : NameSelection) : String :=
  "Selection(" ++ (if s.render.isEmpty then "*" else s.expr) ++ ")"

end NameSelection

end FieldMask
