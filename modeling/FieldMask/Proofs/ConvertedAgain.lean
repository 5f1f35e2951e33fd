import FieldMask.Proofs.JsonRoundTrip
import FieldMask.Proofs.PathSearches

/-!
# Converting again

What has been converted to a type is converted to it once more when a field is set to the value that
it holds, or when values of a type are collected along a path. Data stays as it is then, integers
are integers already, and a record is taken as it is by the types that take records of its schema.
But a type of pointers puts a pointer around a record, and it does so as well where the record is
behind a pointer already, since a pointer is converted by converting what it points to. So the value
stays the same exactly if there is no record where the type is of pointers.

## Key results

- `FieldType.repointed_eq_self_iff`: where one more pointer changes nothing
- `Value.convert_of_hasType` / `Value.convert_of_convert`: values of the type, and converted values
- `Record.set_held`: setting a field to what it holds
- `RecordPath.collectInto_array` / `RecordPath.collectInto_first`: collecting values of the type
- `convert_repointed`: the three together
-/

namespace FieldMask

variable {reg : Registry}

/-! ## One more pointer -/

/-- What is behind the pointers of a value, changed. -/
def Value.overTarget (change : Value → Value) : Value → Value
  | .ref target => .ref (target.overTarget change)
  | v => change v

namespace FieldType

/-- The value with one more pointer around each record that a type of pointers has in it, by itself
    or through arrays and maps. -/
def repointed : FieldType → Value → Value
  | .ref _ => Value.overTarget fun
    | .record s vs => .ref (.record s vs)
    | v => v
  | .array items => Value.overTarget fun
    | .array vs => .array (vs.map items.repointed)
    | v => v
  | .map values => Value.overTarget fun
    | .object es => .object (es.mapValues values.repointed)
    | v => v
  | _ => id
termination_by structural t => t

/-- There is a record in a value where the type is of pointers. -/
def Repoints : FieldType → Value → Prop
  | .ref _, v => ∃ s vs, v.deref = .record s vs
  | .array items, v => ∃ vs, v.deref = .array vs ∧ ∃ x ∈ vs, items.Repoints x
  | .map values, v => ∃ es, v.deref = .object es ∧ ∃ p ∈ es.toList, values.Repoints p.2
  | _, _ => False
termination_by structural t => t

/-- The type is of pointers, or of arrays or maps of pointers. -/
def holdsPointers : FieldType → Bool
  | .ref _ => true
  | .array items => items.holdsPointers
  | .map values => values.holdsPointers
  | _ => false
termination_by structural t => t

variable {t : FieldType} {v w : Value}

/-- Where the type is not of pointers, there is no such record. -/
theorem not_repoints : ∀ {t : FieldType}, t.holdsPointers = false → ∀ v : Value, ¬ t.Repoints v
  | .ref _, h, _ => by cases h
  | .array items, h, v => by
    rintro ⟨vs, -, x, -, hx⟩
    exact not_repoints (t := items) h x hx
  | .map values, h, v => by
    rintro ⟨es, -, p, -, hp⟩
    exact not_repoints (t := values) h p.2 hp
  | .any, _, _ | .boolean, _, _ | .integer, _, _ | .number, _, _ | .string, _, _
  | .record _, _, _ => id
termination_by structural t => t

/-! ### Value by value -/

@[simp] theorem repointed_ref (t : FieldType) (v : Value) :
    t.repointed (.ref v) = .ref (t.repointed v) := by
  cases t <;> rfl

@[simp] theorem repointed_null (t : FieldType) : t.repointed .null = .null := by
  cases t <;> rfl

@[simp] theorem repointed_bool (t : FieldType) (b : Bool) : t.repointed (.bool b) = .bool b := by
  cases t <;> rfl

@[simp] theorem repointed_number (t : FieldType) (n : Number) :
    t.repointed (.number n) = .number n := by
  cases t <;> rfl

@[simp] theorem repointed_string (t : FieldType) (s : String) :
    t.repointed (.string s) = .string s := by
  cases t <;> rfl

/-- A record of the type gets a pointer around it exactly if the type is of pointers. -/
theorem repointed_record {s s' : Schema} {pointer : Bool}
    (h : t.target reg = some (s', pointer)) (vs : List Value) :
    t.repointed (.record s vs) = if pointer then .ref (.record s vs) else .record s vs := by
  -- Only the two types of records have a target.
  cases t with
  | record schema =>
    cases h
    rfl
  | ref name =>
    obtain ⟨schema, -, heq⟩ := Option.map_eq_some_iff.1 h
    cases heq
    rfl
  | _ => cases h

/-- A record of the type is converted to what it is with one more pointer, if the type is of
    pointers. -/
theorem convert_record_of_target {s : Schema} {pointer : Bool}
    (h : t.target reg = some (s, pointer)) (vs : List Value) :
    t.convert reg (.record s vs) = .ok (t.repointed (.record s vs)) := by
  rw [repointed_record h]
  cases t with
  | record schema =>
    simp only [convert, h, if_true]
  | ref name =>
    simp only [convert, h, if_true]
  | _ => cases h

end FieldType

/-! ### Where nothing changes -/

/-- What is behind the pointers decides whether a value stays the same. -/
theorem Value.overTarget_eq_self_iff {change : Value → Value} : ∀ v : Value,
    v.overTarget change = v ↔ change v.deref = v.deref
  | .ref target => by
    rw [overTarget, deref, Value.ref.injEq]
    exact overTarget_eq_self_iff target
  | .null | .bool _ | .number _ | .string _ | .array _ | .object _ | .record .. => Iff.rfl
termination_by structural v => v

/-- The value is the same exactly if there is no record that a pointer is put around. -/
theorem FieldType.repointed_eq_self_iff : ∀ {t : FieldType} {v : Value},
    t.repointed v = v ↔ ¬ t.Repoints v
  | .ref name, v => by
    -- What matters is what is behind the pointers: a record there gets one more.
    rw [repointed, Value.overTarget_eq_self_iff, Repoints]
    cases v.deref <;> simp
  | .array items, v => by
    -- An array stays the same exactly if each of its items does.
    have hitems : ∀ vs : List Value,
        vs.map items.repointed = vs ↔ ∀ x ∈ vs, ¬ items.Repoints x := by
      intro vs
      simp only [← repointed_eq_self_iff (t := items)]
      exact map_eq_self_iff
    rw [repointed, Value.overTarget_eq_self_iff, Repoints]
    cases v.deref <;> simp [hitems]
  | .map values, v => by
    have hvalues : ∀ es : OrderedMap String Value,
        es.mapValues values.repointed = es ↔ ∀ p ∈ es.toList, ¬ values.Repoints p.2 := by
      intro es
      simp only [← repointed_eq_self_iff (t := values)]
      exact Entries.mapValues_eq_self_iff
    rw [repointed, Value.overTarget_eq_self_iff, Repoints]
    cases v.deref <;> simp [hvalues]
  | .any, _ | .boolean, _ | .integer, _ | .number, _ | .string, _ | .record _, _ =>
    iff_of_true rfl id
termination_by structural t => t

namespace Value

/-! ## Values of the type -/

section Converted

variable {t : FieldType}

/-- What is so of items is so of an array of them. -/
theorem convert_array_of_items {items : FieldType} {vs : List Value}
    (h : FieldType.convertItems reg items 0 vs = .ok (vs.map items.repointed)) :
    (FieldType.array items).convert reg (.array vs) =
      .ok ((FieldType.array items).repointed (.array vs)) := by
  rw [FieldType.convert, h]
  rfl

/-- What is so of the values of a map is so of the map. -/
theorem convert_object_of_entries {values : FieldType} {es : OrderedMap String Value}
    (h : FieldType.convertEntries reg values es = .ok (es.mapValues values.repointed)) :
    (FieldType.map values).convert reg (.object es) =
      .ok ((FieldType.map values).repointed (.object es)) := by
  rw [FieldType.convert, h]
  rfl

/-- Conversion to any type takes a value as it is. -/
theorem convert_any (v : Value) : FieldType.any.convert reg v = .ok v := by
  cases v <;> rfl

/-- What is so behind a pointer is so of the pointer. -/
theorem convert_ref_of_target {v : Value} (h : t.convert reg v = .ok (t.repointed v)) :
    t.convert reg (.ref v) = .ok (t.repointed (.ref v)) := by
  -- Data of any type is not looked into, so nothing is put around it there either.
  by_cases hany : t = .any
  · rw [hany]
    exact convert_any (.ref v)
  · rw [FieldType.convert_ref hany, h, FieldType.repointed_ref]
    rfl

/-- A record that conversion has put a pointer around gets another one. -/
theorem convert_pointed_of_target {s : Schema} {pointer : Bool}
    (h : t.target reg = some (s, pointer)) (vs : List Value) :
    t.convert reg (if pointer then .ref (.record s vs) else .record s vs) =
      .ok (t.repointed (if pointer then .ref (.record s vs) else .record s vs)) := by
  cases pointer with
  | false => exact FieldType.convert_record_of_target h vs
  | true => exact convert_ref_of_target (FieldType.convert_record_of_target h vs)

/-- A number that is an integer already stays as it is. -/
theorem convert_number_of_integer {n : Number} (h : n.toInteger? = some n) :
    FieldType.integer.convert reg (.number n) = .ok (.number n) := by
  simp only [FieldType.convert, h]

end Converted

mutual

/-- What is of a type is converted to it by putting a pointer around each record where the type is
    of pointers. -/
theorem convert_of_hasType : ∀ (v : Value) {t : FieldType}, v.HasType reg t →
    t.convert reg v = .ok (t.repointed v)
  | .null, t, _ => by
    rw [FieldType.repointed_null]
    rfl
  | .ref v, t, h => convert_ref_of_target (convert_of_hasType v h)
  | .bool b, t, h => by
    rw [FieldType.repointed_bool, FieldType.convert_bool_eq_ok_iff]
    exact ⟨h, rfl⟩
  | .number n, t, h => by
    rw [FieldType.repointed_number]
    -- An integer has been made one before; the other two types take any number.
    rcases h with h | h | ⟨h, hn⟩
    · rw [h]
      rfl
    · rw [h]
      rfl
    · rw [h]
      exact convert_number_of_integer hn
  | .string s, t, h => by
    rw [FieldType.repointed_string, FieldType.convert_string_eq_ok_iff]
    exact ⟨h, rfl⟩
  | .array vs, t, h => by
    obtain ⟨u, hu, hitems⟩ := h
    -- Only a type of arrays has items of its own.
    cases t with
    | any => rfl
    | array items =>
      cases hu
      exact convert_array_of_items (convertItems_of_haveType vs 0 hitems)
    | _ => cases hu
  | .object es, t, h => by
    obtain ⟨u, hu, hentries⟩ := h
    -- A map of values. A record given by its members is an object as well, but has no type of maps.
    cases t with
    | any => rfl
    | map values =>
      cases hu
      exact convert_object_of_entries (convertEntries_of_haveType es hentries)
    | _ => cases hu
  | .record s vs, t, h => by
    -- A record is of any type, or of one that has it as its target.
    rcases h.1 with hany | ⟨pointer, htarget⟩
    · rw [hany]
      rfl
    · exact FieldType.convert_record_of_target htarget vs
termination_by structural v => v

/-- The index of an item is for errors only, so it does not matter where the items start. -/
theorem convertItems_of_haveType : ∀ (vs : List Value) (index : Nat) {t : FieldType},
    ItemsHaveType reg vs t →
      FieldType.convertItems reg t index vs = .ok (vs.map t.repointed)
  | [], _, _, _ => rfl
  | v :: rest, index, t, h => by
    have hv := convert_of_hasType v h.1
    have hrest := convertItems_of_haveType rest (index + 1) h.2
    rw [FieldType.convertItems, hv, hrest]
    rfl
termination_by structural vs => vs

/-- The values of a map are converted under their keys. -/
theorem convertEntries_of_haveType {bound : Option String} :
    ∀ (es : Entries String Value bound) {t : FieldType}, EntriesHaveType reg es t →
      FieldType.convertEntries reg t es = .ok (es.mapValues t.repointed)
  | .nil, _, _ => rfl
  | .cons key v above rest, t, h => by
    have hv := convert_of_hasType v h.1
    have hrest := convertEntries_of_haveType rest h.2
    rw [FieldType.convertEntries, hv, hrest]
    rfl
termination_by structural es => es

end

/-! ## Values that have been converted -/

mutual

/-- Converting again puts one more pointer around each record where the type is of pointers. -/
theorem convert_of_convert : ∀ (v : Value) {t : FieldType} {w : Value},
    t.convert reg v = .ok w → t.convert reg w = .ok (t.repointed w)
  | .null, t, w, h => by
    cases h
    rw [FieldType.repointed_null]
    rfl
  | .ref v, t, w, h => by
    -- A pointer that is converted to any type stays; else what is behind it is converted first.
    by_cases hany : t = .any
    · rw [hany]
      exact convert_any w
    · rw [FieldType.convert_ref hany] at h
      obtain ⟨x, hx, hw⟩ := bind_eq_ok_iff.1 h
      cases hw
      exact convert_ref_of_target (convert_of_convert v hx)
  | .bool b, t, w, h => by
    -- What has been converted is what was given, so it is converted again with the same result.
    have hw : w = .bool b := (FieldType.convert_bool_eq_ok_iff.1 h).2
    rw [hw, FieldType.repointed_bool]
    rw [hw] at h
    exact h
  | .number n, t, w, h => by
    rcases FieldType.convert_number_eq_ok h with ⟨-, hw⟩ | ⟨ht, i, hi, hw⟩
    · rw [hw, FieldType.repointed_number]
      rw [hw] at h
      exact h
    · -- The integer that the number stands for is an integer.
      rw [ht, hw]
      exact convert_number_of_integer (Number.toInteger?_idem hi)
  | .string s, t, w, h => by
    have hw : w = .string s := (FieldType.convert_string_eq_ok_iff.1 h).2
    rw [hw, FieldType.repointed_string]
    rw [hw] at h
    exact h
  | .array vs, t, w, h => by
    rcases FieldType.convert_array_eq_ok h with ⟨ht, -⟩ | ⟨items, ws, ht, hws, hw⟩
    · rw [ht]
      exact convert_any w
    · rw [ht, hw]
      exact convert_array_of_items (convertItems_of_convertItems vs 0 hws)
  | .object es, t, w, h => by
    -- An object is taken as it is, as a map of values, or as the members of a record. In the last
    -- case it has become a record, with a pointer around it where the type is of pointers.
    rcases FieldType.convert_object_eq_ok h with ⟨ht, -⟩ | ⟨values, ms, ht, hms, hw⟩ |
      ⟨schema, pointer, assigned, htarget, -, hw⟩
    · rw [ht]
      exact convert_any w
    · rw [ht, hw]
      exact convert_object_of_entries (convertEntries_of_convertEntries es hms)
    · rw [hw]
      exact convert_pointed_of_target htarget _
  | .record s vs, t, w, h => by
    -- A record gets its pointer when it is converted first, and one more when it is converted
    -- again.
    rcases FieldType.convert_record_eq_ok h with ⟨ht, -⟩ | ⟨pointer, htarget, hw⟩
    · rw [ht]
      exact convert_any w
    · rw [hw]
      exact convert_pointed_of_target htarget vs
termination_by structural v => v

/-- Each item is converted again by itself. -/
theorem convertItems_of_convertItems : ∀ (vs : List Value) (index : Nat) {t : FieldType}
    {ws : List Value}, FieldType.convertItems reg t index vs = .ok ws →
      FieldType.convertItems reg t index ws = .ok (ws.map t.repointed)
  | [], _, _, _, h => by
    cases h
    rfl
  | v :: rest, index, t, ws, h => by
    obtain ⟨w, hw, hmore⟩ := bind_eq_ok_iff.1 h
    obtain ⟨ws', hws, heq⟩ := bind_eq_ok_iff.1 hmore
    cases heq
    have hv := convert_of_convert v (within_eq_ok_iff.1 hw)
    have hrest := convertItems_of_convertItems rest (index + 1) hws
    rw [FieldType.convertItems, hv, hrest]
    rfl
termination_by structural vs => vs

/-- So is the value of each key. -/
theorem convertEntries_of_convertEntries {bound : Option String} :
    ∀ (es : Entries String Value bound) {t : FieldType} {ms : Entries String Value bound},
      FieldType.convertEntries reg t es = .ok ms →
        FieldType.convertEntries reg t ms = .ok (ms.mapValues t.repointed)
  | .nil, _, _, h => by
    cases h
    rfl
  | .cons key v above rest, t, ms, h => by
    obtain ⟨w, hw, hmore⟩ := bind_eq_ok_iff.1 h
    obtain ⟨ms', hms, heq⟩ := bind_eq_ok_iff.1 hmore
    cases heq
    have hv := convert_of_convert v (within_eq_ok_iff.1 hw)
    have hrest := convertEntries_of_convertEntries rest hms
    rw [FieldType.convertEntries, hv, hrest]
    rfl
termination_by structural es => es

end

end Value

/-! ## Values that are held and collected -/

/-- A list in which an element is replaced is the same list if the element is. -/
theorem set_eq_self_iff {α : Type} {l : List α} {i : Nat} {a b : α} (h : l[i]? = some a) :
    l.set i b = l ↔ b = a := by
  obtain ⟨hi, ha⟩ := List.getElem?_eq_some_iff.1 h
  constructor
  -- What is held at the index after the change is the new element, so it is the one held before.
  · intro heq
    have hb : (l.set i b)[i]? = some b := List.getElem?_set_self hi
    rw [heq, h] at hb
    exact (Option.some.inj hb).symm
  · intro heq
    rw [heq, ← ha]
    exact List.set_getElem_self hi

/-- A name by which a record holds a value is that of a field. -/
theorem Record.exists_lookup?_of_get? {r : Record} {name : String} {v : Value}
    (h : r.get? name = some v) :
    ∃ i f, r.schema.lookup? name = some (i, f) ∧ r.values[i]? = some v := by
  -- A value is held under a name only where a field has that name.
  rw [get?_eq_bind_lookup?] at h
  obtain ⟨⟨i, f⟩, hfound, hv⟩ := Option.bind_eq_some_iff.1 h
  exact ⟨i, f, hfound, hv⟩

/-- Setting a field of a well-typed record to the value that it holds puts a pointer around each
    record where the type of the field is of pointers. It leaves the record as it is if there is
    none. -/
theorem Record.set_held {r : Record} (hr : r.WellTyped reg) {name : String} {v : Value}
    (h : r.get? name = some v) :
    ∃ i f, r.schema.lookup? name = some (i, f) ∧
      r.set reg name v = .ok { r with values := r.values.set i (f.type.repointed v) } ∧
      (r.set reg name v = .ok r ↔ ¬ f.type.Repoints v) := by
  obtain ⟨i, f, hfound, hv⟩ := exists_lookup?_of_get? h
  have hf : r.schema.fields[i]? = some f := Schema.getElem?_of_lookup? hfound
  have hset : r.set reg name v = .ok { r with values := r.values.set i (f.type.repointed v) } := by
    rw [Record.set, Schema.resolveName, hfound]
    show (do
      let value ← within f.name (f.type.convert reg v)
      return { r with values := r.values.set i value }) = _
    rw [Value.convert_of_hasType v (hr.hasType i v f hv hf)]
    rfl
  refine ⟨i, f, hfound, hset, ?_⟩
  -- Two records of a schema are the same exactly if the values at the index are.
  rw [hset, ← FieldType.repointed_eq_self_iff, ← set_eq_self_iff hv, Except.ok.injEq]
  constructor
  · intro heq
    exact congrArg Record.values heq
  · intro heq
    rw [heq]

namespace RecordPath

variable {p : RecordPath} {v : Value}

/-- Values of a type that are collected in an array get a pointer around each record where the type
    is of pointers. -/
theorem collectInto_array {items : FieldType} {vs found : List Value}
    (h : p.values reg v = .ok vs) (hfound : (vs.filter fun x => !x.isHollow) = found)
    (hitems : ∀ x ∈ found, x.HasType reg items) :
    p.collectInto reg v (.array items) = .ok (.array (found.map items.repointed)) := by
  have hconvert : ∀ x ∈ found, items.convert reg x = .ok (items.repointed x) := by
    intro x hx
    exact Value.convert_of_hasType x (hitems x hx)
  rw [collectInto_array_of_values h, hfound, mapM_eq_ok_of_forall hconvert]
  rfl

/-- They are collected as they are exactly if there is no such record in any of them. -/
theorem collectInto_array_eq_self_iff {items : FieldType} {vs found : List Value}
    (h : p.values reg v = .ok vs) (hfound : (vs.filter fun x => !x.isHollow) = found)
    (hitems : ∀ x ∈ found, x.HasType reg items) :
    p.collectInto reg v (.array items) = .ok (.array found) ↔
      ∀ x ∈ found, ¬ items.Repoints x := by
  rw [collectInto_array h hfound hitems, Except.ok.injEq, Value.array.injEq, map_eq_self_iff]
  simp only [FieldType.repointed_eq_self_iff]

/-- A value of a type that is collected alone gets such pointers, too. -/
theorem collectInto_first {t : FieldType} (ht : ∀ items, t ≠ .array items) {x : Value}
    (h : p.firstDefined? reg v = .ok (some x)) (hx : x.HasType reg t) :
    p.collectInto reg v t = .ok (t.repointed x) := by
  rw [collectInto_of_firstDefined? h ht, Option.elim_some, Value.convert_of_hasType x hx]
  rfl

end RecordPath

/-- A node with a parent, as a record. -/
def Record.withParent : Record where
  schema := Schema.node
  values := [.number .zero, .string "child", .ref Value.leaf, .null, .string "note"]

theorem Record.wellTyped_withParent : withParent.WellTyped Registry.ofNode := by
  have hparent : (Value.ref Value.leaf).HasType Registry.ofNode (.ref "Node") :=
    Value.hasType_leaf (.inr ⟨true, rfl⟩)
  exact wellTyped_iff_fieldsHaveTypes.2
    ⟨.inr (.inr ⟨rfl, rfl⟩), .inr rfl, hparent, trivial, .inl rfl, rfl⟩

/-- What has been converted to a type, converted again, gets one more pointer around each record
    where the type is of pointers. So it is the same exactly if there is no such record, and for all
    types that are not of pointers. What holds of conversion holds of setting a field to the value
    that it holds, and of collecting values that are of the type. -/
theorem convert_repointed (reg : Registry) :
    (∀ (t : FieldType) (v w : Value), t.convert reg v = .ok w →
      t.convert reg w = .ok (t.repointed w) ∧ (t.convert reg w = .ok w ↔ ¬ t.Repoints w) ∧
        (t.holdsPointers = false → t.convert reg w = .ok w)) ∧
    (∀ (r : Record) (name : String) (v : Value), r.WellTyped reg → r.get? name = some v →
      ∃ i f, r.schema.lookup? name = some (i, f) ∧
        r.set reg name v = .ok { r with values := r.values.set i (f.type.repointed v) } ∧
        (r.set reg name v = .ok r ↔ ¬ f.type.Repoints v)) ∧
    ∀ (p : RecordPath) (v : Value),
      (∀ items vs found, p.values reg v = .ok vs → (vs.filter fun x => !x.isHollow) = found →
        (∀ x ∈ found, x.HasType reg items) →
          p.collectInto reg v (.array items) = .ok (.array (found.map items.repointed)) ∧
          (p.collectInto reg v (.array items) = .ok (.array found) ↔
            ∀ x ∈ found, ¬ items.Repoints x)) ∧
      ∀ t x, (∀ items, t ≠ .array items) → p.firstDefined? reg v = .ok (some x) →
        x.HasType reg t → p.collectInto reg v t = .ok (t.repointed x) ∧
          (p.collectInto reg v t = .ok x ↔ ¬ t.Repoints x) := by
  refine ⟨?_, ?_, ?_⟩
  · intro t v w h
    -- All of this follows from what the second conversion gives.
    have hagain : t.convert reg w = .ok (t.repointed w) := Value.convert_of_convert v h
    have hsame : t.convert reg w = .ok w ↔ ¬ t.Repoints w := by
      rw [hagain, Except.ok.injEq, FieldType.repointed_eq_self_iff]
    exact ⟨hagain, hsame, fun ht => hsame.2 (FieldType.not_repoints ht w)⟩
  · intro r name v hr h
    exact Record.set_held hr h
  · intro p v
    constructor
    · intro items vs found h hfound hitems
      exact ⟨RecordPath.collectInto_array h hfound hitems,
        RecordPath.collectInto_array_eq_self_iff h hfound hitems⟩
    · intro t x ht h hx
      have hcollected := RecordPath.collectInto_first ht h hx
      refine ⟨hcollected, ?_⟩
      rw [hcollected, Except.ok.injEq, FieldType.repointed_eq_self_iff]

/-- A node stays the same when it is converted to a node again, when its note is set to what it is,
    and when its title is collected as a text. -/
theorem convert_repointed_withParent :
    (FieldType.record Schema.node).convert Registry.ofNode Value.leaf = .ok Value.leaf ∧
      Record.withParent.set Registry.ofNode "note" (.string "note") = .ok Record.withParent ∧
      RecordPath.collectInto Registry.ofNode ⟨Schema.node, [1], none⟩ Record.withParent.toValue
        (.array .string) = .ok (.array [.string "child"]) ∧
      RecordPath.collectInto Registry.ofNode ⟨Schema.node, [1], none⟩ Record.withParent.toValue
        .string = .ok (.string "child") := by
  obtain ⟨hagain, hheld, hcollected⟩ := convert_repointed Registry.ofNode
  -- The path leads to the title, which is a text, so no type of pointers is involved.
  obtain ⟨harray, hfirst⟩ :=
    hcollected ⟨Schema.node, [1], none⟩ Record.withParent.toValue
  refine ⟨?_, ?_, ?_, ?_⟩
  · exact (hagain (.record Schema.node) Value.leaf Value.leaf rfl).2.2 rfl
  · obtain ⟨i, f, hfound, -, hsame⟩ :=
      hheld Record.withParent "note" (.string "note") Record.wellTyped_withParent rfl
    cases hfound
    exact hsame.2 id
  · refine (harray .string [.string "child"] [.string "child"] rfl rfl ?_).1
    intro x hx
    cases List.mem_singleton.1 hx
    exact .inr rfl
  · exact (hfirst .string (.string "child") (fun items h => by cases h) rfl (.inr rfl)).1

/-- A node is converted to a pointer, and the pointer to a pointer to the pointer. In the same way
    the parent of a node changes when it is set to what it is. -/
theorem convert_ref_again :
    (FieldType.ref "Node").convert Registry.ofNode Value.leaf = .ok (.ref Value.leaf) ∧
      (FieldType.ref "Node").convert Registry.ofNode (.ref Value.leaf) ≠ .ok (.ref Value.leaf) ∧
      (Value.ref (.ref Value.leaf)).same (.ref Value.leaf) = false ∧
      Record.withParent.get? "parent" = some (.ref Value.leaf) ∧
      Record.withParent.set Registry.ofNode "parent" (.ref Value.leaf) ≠ .ok Record.withParent := by
  -- Both are computed: the second conversion puts a pointer around what it is given.
  have hagain : (FieldType.ref "Node").convert Registry.ofNode (.ref Value.leaf) =
      .ok (.ref (.ref Value.leaf)) := rfl
  refine ⟨rfl, ?_, rfl, rfl, ?_⟩
  · rw [hagain, Ne, Except.ok.injEq]
    intro h
    cases h
  · have hset : Record.withParent.set Registry.ofNode "parent" (.ref Value.leaf) =
        .ok { Record.withParent with
          values := Record.withParent.values.set 2 (.ref (.ref Value.leaf)) } := rfl
    rw [hset, Ne, Except.ok.injEq]
    intro h
    cases h

end FieldMask
