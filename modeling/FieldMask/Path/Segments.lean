import FieldMask.Path.Basic

/-!
# Putting paths together

A path is made of segments, taken one after the other: names are looked up in the record that the
path has reached, and a tail has to be a selection of that record. Nothing may come after a tail
but another tail.

* `RecordPath.ofSegments` resolves segments from a record.
* `NamePath.ofSegments` takes the names as they are.
-/

namespace FieldMask

/-- A path that is being put together from segments. -/
structure RecordPath.Draft where
  path : RecordPath
  /-- The record that the path has reached, if its last field has a nested record. -/
  reached : Option Schema
  /-- The name of the last field. -/
  last : String

namespace RecordPath.Draft

/-- The record in which the path can go on with something. -/
def here (d : Draft) (next : String) : Except Error Schema :=
  if d.path.tail.isSome then .error (.of (.continuesAfterTail next))
  else match d.reached with
    | some record => .ok record
    | none => .error (.of (.notFragmentable d.last next))

/-- Go on to a field of the record reached. -/
def push (reg : Registry) (d : Draft) (index : Nat) (f : Field) : Draft where
  path := { d.path with indices := d.path.indices ++ [index] }
  reached := f.record reg
  last := f.name

/-- Go on to the field of a name. -/
def addName (reg : Registry) (d : Draft) (name : String) : Except Error Draft := do
  let (i, f) ← (← d.here name).resolveName name
  return d.push reg i f

/-- Go on to the field at an index. -/
def addIndex (reg : Registry) (d : Draft) (index : Nat) : Except Error Draft := do
  let (i, f) ← (← d.here ("#" ++ toString index)).resolveIndex index
  return d.push reg i f

/-- Set the tail; one that is left open is none. -/
def setTail (reg : Registry) (d : Draft) (query : Query) : Except Error Draft := do
  match d.reached with
  | some record =>
    let tail ← RecordSelection.ofQuery reg record query
    return { d with path := { d.path with tail := if tail.isUndefined then none else some tail } }
  | none =>
    let s ← query.toNames reg
    if s.isUndefined then return { d with path := { d.path with tail := none } }
    else throw (.of (.notFragmentable d.last s.expr))

/-- Go on with a segment. -/
def addSegment (reg : Registry) (d : Draft) : Segment → Except Failure Draft
  | .names dotted => ((Segment.dottedNames dotted).foldlM (addName reg) d : Except Error Draft)
  | .index i => (d.addIndex reg i : Except Error Draft)
  | .tail query => (d.setTail reg query : Except Error Draft)
  | .byName p => do
    let d ← (p.names.foldlM (addName reg) d : Except Error Draft)
    match p.tail with
    | some tail => (d.setTail reg (.byName tail) : Except Error Draft)
    | none => return d
  | .ofRecord p => do
    -- The path in words is needed for the error only, but its indices have to exist.
    let next ← p.expr reg
    let record ← d.here next
    if record ≠ p.record then
      throw (.error (.of (.typeMismatch record.name p.record.name)))
    let d ← (p.indices.foldlM (addIndex reg) d : Except Error Draft)
    match p.tail with
    | some tail => (d.setTail reg (.ofRecord tail) : Except Error Draft)
    | none => return d

end RecordPath.Draft

/-- The path of segments from a record. -/
def RecordPath.ofSegments (reg : Registry) (record : Schema) (segments : List Segment) :
    Except Failure RecordPath := do
  let start : Draft := ⟨⟨record, [], none⟩, some record, ""⟩
  return (← segments.foldlM (Draft.addSegment reg) start).path

namespace NamePath

/-- The names and the tail that a segment adds to a path of names. -/
def partsOf (reg : Registry) :
    Segment → Except Failure (List String × Option NameSelection)
  | .names dotted => .ok (Segment.dottedNames dotted, none)
  | .index i => .error (.error (.of (.indexWithoutSchema i)))
  | .ofRecord p => do return (← p.names reg, p.tail.map (·.toNames reg))
  | .byName p => .ok (p.names, p.tail)
  | .tail query => do return ([], some (← query.toNames reg))

/-- Go on with a segment. A tail that is left open is none. -/
def addSegment (reg : Registry) (p : NamePath) (segment : Segment) : Except Failure NamePath := do
  let (names, tail) ← partsOf reg segment
  match names.head?, p.tail with
  | some name, some _ => throw (.error (.of (.continuesAfterTail name)))
  | _, _ =>
    let kept := match tail with
      | some s => if s.isUndefined then p.tail else some s
      | none => p.tail
    return { names := p.names ++ names, tail := kept }

/-- The path of segments. -/
def ofSegments (reg : Registry) (segments : List Segment) : Except Failure NamePath :=
  segments.foldlM (addSegment reg) ⟨[], none⟩

end NamePath

end FieldMask
