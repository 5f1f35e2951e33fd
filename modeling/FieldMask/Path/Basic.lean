import FieldMask.Selection

/-!
# Paths

A path leads through nested records to one field, and may end in a selection of what is there,
its tail. Bound to a record, a path is a list of field indices; without a schema it is a list of
names. Paths are put together from segments.

* `RecordPath.walk` looks up the fields along a path.
* `RecordPath.toSelection`, `NamePath.toSelection`: the selection of just the end of a path.
* `RecordPath.selectionAt`: the part of a selection at the end of a path.
-/

namespace FieldMask

/-- A path of field indices from a record, with an optional tail. -/
structure RecordPath where
  record : Schema
  indices : List Nat
  tail : Option RecordSelection
deriving DecidableEq

/-- A path of field names, with an optional tail. -/
structure NamePath where
  names : List String
  tail : Option NameSelection
deriving DecidableEq

/-- A piece of a path. -/
inductive Segment where
  /-- Field names with dots between them. -/
  | names (dotted : String)
  /-- The index of a field. -/
  | index (index : Nat)
  | ofRecord (path : RecordPath)
  | byName (path : NamePath)
  /-- The selection at the end of the path. -/
  | tail (query : Query)

namespace Segment

/-- The pieces of a text between the dots. -/
def splitAtDots : List Char → List (List Char)
  | [] => [[]]
  | c :: rest =>
    if c = '.' then [] :: splitAtDots rest
    else match splitAtDots rest with
      | [] => [[c]]
      | piece :: pieces => (c :: piece) :: pieces

/-- The names in a dotted text, without blanks around them and without blank ones. -/
def dottedNames (text : String) : List String :=
  (((splitAtDots text.toList).map Text.trim).filter (!·.isEmpty)).map String.ofList

end Segment

/-- The expression of a path: its names with dots between them, and its tail. -/
def joinPath (names : List String) (tail : Option String) : String :=
  if names.isEmpty then ""
  else
    let path := String.intercalate "." names
    match tail with
    | some expr => if expr = "" then path else path ++ " " ++ expr
    | none => path

/-! ## Paths of indices -/

namespace RecordPath

/-- The fields along indices from a record, with the record that declares each. What comes after
    a field without a nested record is left out. The indices are promised to exist. -/
def walkFrom (reg : Registry) (record : Schema) :
    List Nat → Except Misuse (List (Schema × Nat × Field))
  | [] => .ok []
  | i :: rest => do
    let f ← record.fieldAt i
    match f.record reg with
    | some next => return (record, i, f) :: (← walkFrom reg next rest)
    | none => return [(record, i, f)]

/-- The fields along the path, with the record that declares each. -/
def walk (reg : Registry) (p : RecordPath) : Except Misuse (List (Schema × Nat × Field)) :=
  walkFrom reg p.record p.indices

/-- The record at the end of the path, if its last field has a nested record. -/
def tailRecord (reg : Registry) (p : RecordPath) : Except Misuse (Option Schema) := do
  match (← p.walk reg).getLast? with
  | some (_, _, f) => return f.record reg
  | none => return some p.record

/-- The names of the fields along the path. -/
def names (reg : Registry) (p : RecordPath) : Except Misuse (List String) := do
  return (← p.walk reg).map fun (_, _, f) => f.name

/-- The serialized names of the fields along the path, if all are serialized. -/
def jsonNames (reg : Registry) (p : RecordPath) : Except Misuse (Option (List String)) := do
  return (← p.walk reg).mapM fun (_, _, f) => f.json

/-- The expression of the path, by names. -/
def expr (reg : Registry) (p : RecordPath) : Except Misuse String := do
  return joinPath (← p.names reg) (p.tail.map RecordSelection.expr)

/-- The expression of the path, by serialized names. It is empty if a field on the path is not
    serialized. -/
def jsonExpr (reg : Registry) (p : RecordPath) : Except Misuse String := do
  match ← p.jsonNames reg with
  | some names => return joinPath names (p.tail.map RecordSelection.jsonExpr)
  | none => return ""

/-- The path in words. -/
def text (reg : Registry) (p : RecordPath) : Except Misuse String := do
  return p.record.name ++ "Path(" ++ (← p.expr reg) ++ ")"

/-- The selection of the end of fields that follow one another, with a tail there. -/
def selectionOf? (reg : Registry) (tail : Option RecordSelection) :
    List (Schema × Nat × Field) → Option RecordSelection
  | [] => none
  | (record, i, f) :: rest =>
    let child := match rest with
      | [] => tail <|> RecordSelection.fullChild reg f
      | rest => selectionOf? reg tail rest
    some ((RecordSelection.empty record).put i child)

/-- The selection of just the end of the path. A path without fields selects nothing. -/
def toSelection (reg : Registry) (p : RecordPath) : Except Misuse RecordSelection := do
  return (selectionOf? reg p.tail (← p.walk reg)).getD (.empty p.record)

/-- The part of a selection along indices. -/
def selectionAlong (reg : Registry) (s : RecordSelection) :
    List Nat → Except Misuse (Option RecordSelection)
  | [] => .ok (some s)
  | i :: rest => do
    match ← s.fieldSelection reg i with
    | some child => selectionAlong reg child rest
    | none => return none

/-- The part of a selection at the end of the path. There is none if the selection is of another
    record, or if the path ends at a field without a nested record. -/
def selectionAt (reg : Registry) (p : RecordPath) (s : RecordSelection) :
    Except Misuse (Option RecordSelection) :=
  if s.record = p.record then selectionAlong reg s p.indices else .ok none

/-- The path with a selection added to its tail. -/
def assignTail (reg : Registry) (p : RecordPath) (query : Query) : Except Failure RecordPath := do
  match ← p.tailRecord reg with
  | some record =>
    let current := p.tail.getD (.empty record)
    return { p with tail := some (← current.assignQuery reg query) }
  | none =>
    let s ← query.toNames reg
    if s.isUndefined then return p
    else
      let last := (← p.names reg).getLastD ""
      throw (.error (.of (.notFragmentable last s.expr)))

end RecordPath

/-! ## Paths of names -/

namespace NamePath

/-- The expression of the path. -/
def expr (p : NamePath) : String := joinPath p.names (p.tail.map NameSelection.expr)

/-- The path in words. -/
def text (p : NamePath) : String := "Path(" ++ p.expr ++ ")"

/-- The selection of just the end of the path. A path without names selects nothing. -/
def toSelection (p : NamePath) : NameSelection :=
  match p.names with
  | [] => .empty
  | names => names.foldr (fun name child => .set .empty name child) (p.tail.getD .undefined)

end NamePath

/-! ## Paths of either kind -/

/-- A path of either kind. -/
inductive Path where
  | ofRecord (path : RecordPath)
  | byName (path : NamePath)
deriving DecidableEq

namespace Path

/-- The path as a segment of another. -/
def toSegment : Path → Segment
  | ofRecord p => .ofRecord p
  | byName p => .byName p

/-- The names of the fields along the path. -/
def names (reg : Registry) : Path → Except Misuse (List String)
  | ofRecord p => p.names reg
  | byName p => .ok p.names

/-- The serialized names of the fields along the path, if all are serialized. -/
def jsonNames (reg : Registry) : Path → Except Misuse (Option (List String))
  | ofRecord p => p.jsonNames reg
  | byName p => .ok (some p.names)

/-- The selection at the end of the path. -/
def tail : Path → Option Selection
  | ofRecord p => p.tail.map .ofRecord
  | byName p => p.tail.map .byName

/-- The expression of the path, by names. -/
def expr (reg : Registry) : Path → Except Misuse String
  | ofRecord p => p.expr reg
  | byName p => .ok p.expr

/-- The expression of the path, by serialized names. -/
def jsonExpr (reg : Registry) : Path → Except Misuse String
  | ofRecord p => p.jsonExpr reg
  | byName p => .ok p.expr

/-- The path in words. -/
def text (reg : Registry) : Path → Except Misuse String
  | ofRecord p => p.text reg
  | byName p => .ok p.text

/-- The selection of just the end of the path. -/
def toSelection (reg : Registry) : Path → Except Misuse Selection
  | ofRecord p => .ofRecord <$> p.toSelection reg
  | byName p => .ok (.byName p.toSelection)

end Path

end FieldMask
