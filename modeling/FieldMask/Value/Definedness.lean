import FieldMask.Value.Basic

/-!
# Values that hold nothing

Two readings of "nothing": a value may never have been set, or it may have nothing to show in
serialized output.

* `Value.isUndefined`: never set. A pointer to anything but `null` was set on purpose.
* `Value.isHollow`: nothing to show: `null`, an empty text, arrays and objects of only such
  values, and records whose fields are all zero.
* `Field.isHollow`: the same for the value of a field that may ask to omit what was never set.
-/

namespace FieldMask

namespace Value

mutual

/-- Whether a value is the zero of its form, without any array, object or pointer. -/
def isZero : Value → Bool
  | null => true
  | bool b => !b
  | number n => n.isZero
  | string s => s.isEmpty
  | record _ values => allZero values
  | array _ | object _ | ref _ => false
termination_by structural v => v

/-- Whether all values are zero. -/
def allZero : List Value → Bool
  | [] => true
  | v :: rest => v.isZero && allZero rest
termination_by structural vs => vs

end

/-- Whether a value was never set. -/
def isUndefined : Value → Bool
  | null => true
  | ref target => target.isNull
  | v => v.isZero

mutual

/-- Whether a value has nothing to show in serialized output. -/
def isHollow : Value → Bool
  | null => true
  | ref target => target.isHollow
  | bool _ | number _ => false
  | string s => s.isEmpty
  | array items => allHollow items
  | object entries => allHollowEntries entries
  | record _ values => allZero values
termination_by structural v => v

/-- Whether no value has anything to show. -/
def allHollow : List Value → Bool
  | [] => true
  | v :: rest => v.isHollow && allHollow rest
termination_by structural vs => vs

/-- Whether no value of a map has anything to show. -/
def allHollowEntries {bound : Option String} : Entries String Value bound → Bool
  | .nil => true
  | .cons _ v _ rest => v.isHollow && allHollowEntries rest
termination_by structural vs => vs

end

end Value

/-- Whether the value of a field has nothing to show: it is hollow, or it was never set and the
    field omits such values. -/
def Field.isHollow (f : Field) (v : Value) : Bool :=
  v.isHollow || (f.omitEmpty && v.isUndefined)

end FieldMask
