import FieldMask.Number.Literal

/-!
# JSON

The tree of a JSON text, members in the order written and repeated ones kept, and the two ways to
write it: `Json.compact` without any blank, `Json.pretty` indented by two spaces.
-/

namespace FieldMask

/-- The tree of a JSON text. -/
inductive Json where
  | null
  | bool (b : Bool)
  | number (n : Number)
  | string (s : String)
  | array (items : List Json)
  | object (members : List (String × Json))

namespace Json

instance : Inhabited Json := ⟨null⟩

/-- The hexadecimal digit of a number below sixteen. -/
def hexDigit (n : Nat) : Char := Nat.digitChar n

/-- A character inside a JSON string. Only quotes, backslashes and control characters are
    escaped. -/
def escapedChar (c : Char) : List Char :=
  match c with
  | '"' => ['\\', '"']
  | '\\' => ['\\', '\\']
  | '\x08' => ['\\', 'b']
  | '\x0c' => ['\\', 'f']
  | '\n' => ['\\', 'n']
  | '\r' => ['\\', 'r']
  | '\t' => ['\\', 't']
  | c =>
    if c.toNat < 0x20 then
      ['\\', 'u', '0', '0', hexDigit (c.toNat / 16), hexDigit (c.toNat % 16)]
    else [c]

/-- A JSON string literal. -/
def literal (s : String) : String :=
  String.ofList ('"' :: s.toList.flatMap escapedChar ++ ['"'])

/-- Text between an opening and a closing brace. -/
def braced (s : String) : String := "\x7b" ++ s ++ "\x7d"

/-- Text between an opening and a closing bracket. -/
def bracketed (s : String) : String := "[" ++ s ++ "]"

mutual

/-- The text of a tree without any blank. -/
def compact : Json → String
  | null => "null"
  | bool b => if b then "true" else "false"
  | number n => n.text
  | string s => literal s
  | array items => bracketed (String.intercalate "," (compactItems items))
  | object members => braced (String.intercalate "," (compactMembers members))
termination_by structural j => j

/-- The texts of the items of an array. -/
def compactItems : List Json → List String
  | [] => []
  | item :: rest => item.compact :: compactItems rest
termination_by structural js => js

/-- The texts of the members of an object. -/
def compactMembers : List (String × Json) → List String
  | [] => []
  | (key, value) :: rest => (literal key ++ ":" ++ value.compact) :: compactMembers rest
termination_by structural js => js

end

/-- Lines at a depth of indentation, between brackets one level further out. -/
def block (depth : Nat) (lines : List String) : String :=
  let indent (n : Nat) := String.ofList ('\n' :: List.replicate (2 * n) ' ')
  if lines.isEmpty then ""
  else
    indent (depth + 1) ++ String.intercalate ("," ++ indent (depth + 1)) lines ++ indent depth

mutual

/-- The text of a tree, indented by two spaces for each level, `depth` levels in. -/
def prettyAt (depth : Nat) : Json → String
  | null => "null"
  | bool b => if b then "true" else "false"
  | number n => n.text
  | string s => literal s
  | array items => bracketed (block depth (prettyItems (depth + 1) items))
  | object members => braced (block depth (prettyMembers (depth + 1) members))
termination_by structural j => j

/-- The indented texts of the items of an array. -/
def prettyItems (depth : Nat) : List Json → List String
  | [] => []
  | item :: rest => item.prettyAt depth :: prettyItems depth rest
termination_by structural js => js

/-- The indented texts of the members of an object. -/
def prettyMembers (depth : Nat) : List (String × Json) → List String
  | [] => []
  | (key, value) :: rest =>
    (literal key ++ ": " ++ value.prettyAt depth) :: prettyMembers depth rest
termination_by structural js => js

end

/-- The text of a tree, indented by two spaces for each level. -/
def pretty (j : Json) : String := j.prettyAt 0

end Json

end FieldMask
