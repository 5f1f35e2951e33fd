import FieldMask.Path.Basic
import FieldMask.Value.Conversion

/-!
# Values along a path

What a value holds at the end of a path. Arrays and objects on the way are searched item by item,
pointers are followed, and `null` ends its branch.

* `RecordPath.visit` goes through the values at the end of a path until it is told to stop.
* `values`, `find?`, `firstDefined?`, `collectInto` are what it is used for.
-/

namespace FieldMask

namespace RecordPath

variable {σ : Type}

mutual

/-- Go through the values at the end of indices from a record, in order, with a state. `visitor`
    sees one after the other, and says with the new state whether to stop. -/
def visitFrom (reg : Registry) (visitor : σ → Value → σ × Bool) (record : Schema)
    (indices : List Nat) (state : σ) : Value → Except Failure (σ × Bool)
  | .null => match indices with
    | [] => .ok (visitor state .null)
    | _ => .ok (state, false)
  | .ref target => match indices with
    | [] => .ok (visitor state (.ref target))
    | indices => visitFrom reg visitor record indices state target
  | .array items => match indices with
    | [] => .ok (visitor state (.array items))
    | indices => visitItems reg visitor record indices state items
  | .object entries => match indices with
    | [] => .ok (visitor state (.object entries))
    | indices => visitEntries reg visitor record indices state entries
  | .record schema values => match indices with
    | [] => .ok (visitor state (.record schema values))
    | i :: rest =>
      if schema = record then do
        let f ← record.fieldAt i
        visitField reg visitor f rest state i values
      else .error (.error (.of (.typeMismatch record.name schema.name)))
  | v => match indices with
    | [] => .ok (visitor state v)
    | _ => .error (.error (.of (.typeMismatch record.name v.kind)))
termination_by structural v => v

/-- Go through what is at the end of indices behind a field, whose value is so far down a list of
    values. -/
def visitField (reg : Registry) (visitor : σ → Value → σ × Bool) (f : Field)
    (indices : List Nat) (state : σ) (skip : Nat) : List Value → Except Failure (σ × Bool)
  | [] => .ok (state, false)
  | v :: values => match skip with
    | skip + 1 => visitField reg visitor f indices state skip values
    | 0 =>
      -- At the end a pointer is seen as it is.
      if indices.isEmpty then .ok (visitor state v)
      else match f.record reg with
        | some next =>
          (visitFrom reg visitor next indices state v).mapError (Failure.under f.name)
        | none => .ok (state, false)
termination_by structural vs => vs

/-- Go through what is at the end of indices in items. -/
def visitItems (reg : Registry) (visitor : σ → Value → σ × Bool) (record : Schema)
    (indices : List Nat) (state : σ) : List Value → Except Failure (σ × Bool)
  | [] => .ok (state, false)
  | v :: rest => do
    let (state, stop) ← visitFrom reg visitor record indices state v
    if stop then return (state, true)
    else visitItems reg visitor record indices state rest
termination_by structural vs => vs

/-- Go through what is at the end of indices in the values of a map. -/
def visitEntries {bound : Option String} (reg : Registry) (visitor : σ → Value → σ × Bool)
    (record : Schema) (indices : List Nat) (state : σ) :
    Entries String Value bound → Except Failure (σ × Bool)
  | .nil => .ok (state, false)
  | .cons _ v _ rest => do
    let (state, stop) ← visitFrom reg visitor record indices state v
    if stop then return (state, true)
    else visitEntries reg visitor record indices state rest
termination_by structural es => es

end

/-- Go through the values at the end of the path, in order, with a state. -/
def visit (reg : Registry) (p : RecordPath) (visitor : σ → Value → σ × Bool) (state : σ)
    (v : Value) : Except Failure σ := do
  return (← visitFrom reg visitor p.record p.indices state v).1

/-- All values at the end of the path. -/
def values (reg : Registry) (p : RecordPath) (v : Value) : Except Failure (List Value) := do
  return (← p.visit reg (fun found v => (v :: found, false)) [] v).reverse

/-- The first value at the end of the path that is accepted. -/
def find? (reg : Registry) (p : RecordPath) (accept : Value → Bool) (v : Value) :
    Except Failure (Option Value) :=
  p.visit reg (fun _ v => if accept v then (some v, true) else (none, false)) none v

/-- The first value at the end of the path that has something to show. -/
def firstDefined? (reg : Registry) (p : RecordPath) (v : Value) :
    Except Failure (Option Value) :=
  p.find? reg (fun v => !v.isHollow) v

/-- What is at the end of the path, as a value of a type: in an array all values that have
    something to show, otherwise the first of them, or `null`. -/
def collectInto (reg : Registry) (p : RecordPath) (v : Value) (target : FieldType) :
    Except Failure Value := do
  match target with
  | .array items =>
    let found := (← p.values reg v).filter fun v => !v.isHollow
    return .array (← (found.mapM (items.convert reg) : Except Error (List Value)))
  | target =>
    match ← p.firstDefined? reg v with
    | some found => (target.convert reg found : Except Error Value)
    | none => return .null

end RecordPath

end FieldMask
