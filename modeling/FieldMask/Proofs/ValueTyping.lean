import FieldMask.Proofs.MapOfList
import FieldMask.Proofs.SchemaInvariant
import FieldMask.Value.Conversion

/-!
# Well-typed values

Whether a value is of a type. `null` is of every type, and a pointer is of the type of its target.
A record is of the types that take records of its schema, if it holds one value for each field and
each is of the type of the field. Of type `any` are the values all of whose records are like that.

## Key results

- `Value.induction`: induction along the values within a value
- `Value.HasType.any`: what is of some type is of type `any`
- `Value.HasType.leavesIn`: a value of a type with a nested record is made of records of it alone
-/

namespace FieldMask

namespace FieldType

/-- The type of the items of the arrays of a type. -/
def items? : FieldType → Option FieldType
  | any => some any
  | array items => some items
  | _ => none

/-- The type of the values of the maps of a type. -/
def values? : FieldType → Option FieldType
  | any => some any
  | map values => some values
  | _ => none

/-- The type is `any`, or that of records of a schema, in place or by the name of the schema. -/
def TakesRecord (reg : Registry) (t : FieldType) (s : Schema) : Prop :=
  t = any ∨ ∃ pointer, t.target reg = some (s, pointer)

/-- The record whose values a type takes is its nested record. -/
theorem recordOf_eq_some_of_target {reg : Registry} {t : FieldType} {s : Schema} {pointer : Bool}
    (h : t.target reg = some (s, pointer)) : t.recordOf reg = some s := by
  cases t with
  | record schema =>
    simp only [target, Option.some.injEq, Prod.mk.injEq] at h
    rw [recordOf, h.1]
  | ref name =>
    obtain ⟨r, hr, heq⟩ := Option.map_eq_some_iff.1 h
    cases heq
    exact hr
  | _ => cases h

/-- Where a type has a nested record, `any` is not in the way. -/
theorem holdsAny_eq_false_of_recordOf {reg : Registry} : ∀ {t : FieldType} {r : Schema},
    t.recordOf reg = some r → t.holdsAny = false
  | record _, _, _ => rfl
  | ref _, _, _ => rfl
  | array items, _, h => holdsAny_eq_false_of_recordOf (t := items) h
  | map values, _, h => holdsAny_eq_false_of_recordOf (t := values) h
termination_by structural t => t

/-- The items of a type have the nested record of the type. -/
theorem recordOf_items (reg : Registry) {t u : FieldType} (hany : t.holdsAny = false)
    (h : t.items? = some u) : u.recordOf reg = t.recordOf reg ∧ u.holdsAny = false := by
  cases t with
  | any => cases hany
  | array items =>
    cases h
    exact ⟨rfl, hany⟩
  | _ => cases h

/-- The values of a type have the nested record of the type. -/
theorem recordOf_values (reg : Registry) {t u : FieldType} (hany : t.holdsAny = false)
    (h : t.values? = some u) : u.recordOf reg = t.recordOf reg ∧ u.holdsAny = false := by
  cases t with
  | any => cases hany
  | map values =>
    cases h
    exact ⟨rfl, hany⟩
  | _ => cases h

end FieldType

namespace Value

/-- What holds of a value if it holds of the values within it holds of every value. -/
theorem induction {motive : Value → Prop} (null : motive null) (bool : ∀ b, motive (bool b))
    (number : ∀ n, motive (number n)) (string : ∀ s, motive (string s))
    (array : ∀ items, (∀ v ∈ items, motive v) → motive (array items))
    (object : ∀ entries : OrderedMap String Value,
      (∀ p ∈ entries.toList, motive p.2) → motive (object entries))
    (record : ∀ schema values, (∀ v ∈ values, motive v) → motive (record schema values))
    (ref : ∀ target, motive target → motive (ref target)) : ∀ v, motive v
  | .null => null
  | .bool b => bool b
  | .number n => number n
  | .string s => string s
  | .array items => array items fun v _ =>
    induction null bool number string array object record ref v
  | .object entries => object entries fun p _ =>
    induction null bool number string array object record ref p.2
  | .record schema values => record schema values fun v _ =>
    induction null bool number string array object record ref v
  | .ref target => ref target (induction null bool number string array object record ref target)
termination_by v => sizeOf v
-- The values within are smaller; those of a map stand among its entries.
decreasing_by
  · have := List.sizeOf_lt_of_mem ‹v ∈ items›
    rw [Value.array.sizeOf_spec]
    omega
  · have := Entries.sizeOf_lt_of_mem_toList ‹p ∈ entries.toList›
    rw [Value.object.sizeOf_spec]
    omega
  · have := List.sizeOf_lt_of_mem ‹v ∈ values›
    rw [Value.record.sizeOf_spec]
    omega
  · rw [Value.ref.sizeOf_spec]
    omega

variable {reg : Registry}

/-! ## Types of values -/

mutual

/-- A value is of a type. An integer is a number that stands for itself. -/
def HasType (reg : Registry) : Value → FieldType → Prop
  | null, _ => True
  | ref target, t => target.HasType reg t
  | bool _, t => t = .any ∨ t = .boolean
  | number n, t => t = .any ∨ t = .number ∨ (t = .integer ∧ n.toInteger? = some n)
  | string _, t => t = .any ∨ t = .string
  | array items, t => ∃ u, t.items? = some u ∧ ItemsHaveType reg items u
  | object entries, t => ∃ u, t.values? = some u ∧ EntriesHaveType reg entries u
  | record s values, t => t.TakesRecord reg s ∧ FieldsHaveTypes reg values s.fields
termination_by structural v => v

/-- All items are of a type. -/
def ItemsHaveType (reg : Registry) : List Value → FieldType → Prop
  | [], _ => True
  | v :: rest, t => v.HasType reg t ∧ ItemsHaveType reg rest t
termination_by structural vs => vs

/-- All values of a map are of a type. -/
def EntriesHaveType {bound : Option String} (reg : Registry) :
    Entries String Value bound → FieldType → Prop
  | .nil, _ => True
  | .cons _ v _ rest, t => v.HasType reg t ∧ EntriesHaveType reg rest t
termination_by structural es => es

/-- There is one value for each field, of the type of the field. -/
def FieldsHaveTypes (reg : Registry) : List Value → List Field → Prop
  | [], fields => fields = []
  | v :: values, fields => match fields with
    | [] => False
    | f :: fields => v.HasType reg f.type ∧ FieldsHaveTypes reg values fields
termination_by structural vs => vs

end

mutual

/-- What is of some type is of type `any`. -/
theorem HasType.any : ∀ {v : Value} {t : FieldType}, v.HasType reg t → v.HasType reg .any
  | .null, _, _ => trivial
  | .ref target, _, h => HasType.any (v := target) h
  | .bool _, _, _ => .inl rfl
  | .number _, _, _ => .inl rfl
  | .string _, _, _ => .inl rfl
  | .array items, _, h => by
    obtain ⟨u, -, hitems⟩ := h
    exact ⟨.any, rfl, ItemsHaveType.any (l := items) hitems⟩
  | .object entries, _, h => by
    obtain ⟨u, -, hentries⟩ := h
    exact ⟨.any, rfl, EntriesHaveType.any (m := entries) hentries⟩
  | .record _ _, _, h => ⟨.inl rfl, h.2⟩
termination_by structural v => v

/-- Items of some type are of type `any`. -/
theorem ItemsHaveType.any : ∀ {l : List Value} {t : FieldType},
    ItemsHaveType reg l t → ItemsHaveType reg l .any
  | [], _, _ => trivial
  | v :: rest, _, h => ⟨HasType.any (v := v) h.1, ItemsHaveType.any (l := rest) h.2⟩
termination_by structural l => l

/-- Values of a map of some type are of type `any`. -/
theorem EntriesHaveType.any {bound : Option String} :
    ∀ {m : Entries String Value bound} {t : FieldType},
      EntriesHaveType reg m t → EntriesHaveType reg m .any
  | .nil, _, _ => trivial
  | .cons _ v _ rest, _, h => ⟨HasType.any (v := v) h.1, EntriesHaveType.any (m := rest) h.2⟩
termination_by structural m => m

end

/-- The items of an array of any type are of any type. -/
theorem HasType.items {items : List Value} (h : (array items).HasType reg .any) :
    ItemsHaveType reg items .any := by
  obtain ⟨u, hu, hitems⟩ := h
  cases hu
  exact hitems

/-- The values of an object of any type are of any type. -/
theorem HasType.entries {entries : OrderedMap String Value}
    (h : (object entries).HasType reg .any) : EntriesHaveType reg entries .any := by
  obtain ⟨u, hu, hentries⟩ := h
  cases hu
  exact hentries

/-- The values of a record are of the types of the fields. -/
theorem HasType.zipIdx {schema : Schema} {values : List Value} {t : FieldType}
    (h : (record schema values).HasType reg t) :
    FieldsHaveTypes reg values (schema.fields.zipIdx.map Prod.fst) := by
  rw [List.zipIdx_map_fst]
  exact h.2

/-! ## Records within values -/

mutual

/-- Through pointers, arrays and objects, only `null` and records of a schema are reached. -/
def LeavesIn (schema : Schema) : Value → Prop
  | null => True
  | ref target => target.LeavesIn schema
  | array items => ItemsLeavesIn schema items
  | object entries => EntriesLeavesIn schema entries
  | record s _ => s = schema
  | bool _ | number _ | string _ => False
termination_by structural v => v

/-- From all items, only `null` and records of a schema are reached. -/
def ItemsLeavesIn (schema : Schema) : List Value → Prop
  | [] => True
  | v :: rest => v.LeavesIn schema ∧ ItemsLeavesIn schema rest
termination_by structural vs => vs

/-- From all values of a map, only `null` and records of a schema are reached. -/
def EntriesLeavesIn {bound : Option String} (schema : Schema) :
    Entries String Value bound → Prop
  | .nil => True
  | .cons _ v _ rest => v.LeavesIn schema ∧ EntriesLeavesIn schema rest
termination_by structural es => es

end

mutual

/-- A value of a type with a nested record, and without `any` in it, is made of records of it. -/
theorem HasType.leavesIn {r : Schema} : ∀ {v : Value} {t : FieldType}, v.HasType reg t →
    t.holdsAny = false → t.recordOf reg = some r → v.LeavesIn r
  | .null, _, _, _, _ => trivial
  -- A type that takes a plain value is `any` or has no nested record.
  | .ref target, _, h, hany, hr => HasType.leavesIn (v := target) h hany hr
  | .bool _, _, h, hany, hr => by
    rcases h with rfl | rfl
    · cases hany
    · cases hr
  | .number _, _, h, hany, hr => by
    rcases h with rfl | rfl | ⟨rfl, -⟩
    · cases hany
    · cases hr
    · cases hr
  | .string _, _, h, hany, hr => by
    rcases h with rfl | rfl
    · cases hany
    · cases hr
  | .array items, _, h, hany, hr => by
    obtain ⟨u, hu, hitems⟩ := h
    obtain ⟨hrecord, huany⟩ := FieldType.recordOf_items reg hany hu
    exact ItemsHaveType.leavesIn (l := items) hitems huany (hrecord.trans hr)
  | .object entries, _, h, hany, hr => by
    obtain ⟨u, hu, hentries⟩ := h
    obtain ⟨hrecord, huany⟩ := FieldType.recordOf_values reg hany hu
    exact EntriesHaveType.leavesIn (m := entries) hentries huany (hrecord.trans hr)
  | .record s _, _, h, hany, hr => by
    -- Apart from `any`, a type takes the records of one schema, which is its nested record.
    obtain ⟨rfl | ⟨pointer, htarget⟩, -⟩ := h
    · cases hany
    · rw [FieldType.recordOf_eq_some_of_target htarget] at hr
      exact Option.some.inj hr
termination_by structural v => v

/-- Items of such a type are made of records of it. -/
theorem ItemsHaveType.leavesIn {r : Schema} : ∀ {l : List Value} {t : FieldType},
    ItemsHaveType reg l t → t.holdsAny = false → t.recordOf reg = some r → ItemsLeavesIn r l
  | [], _, _, _, _ => trivial
  | v :: rest, _, h, hany, hr =>
    ⟨HasType.leavesIn (v := v) h.1 hany hr, ItemsHaveType.leavesIn (l := rest) h.2 hany hr⟩
termination_by structural l => l

/-- Values of a map of such a type are made of records of it. -/
theorem EntriesHaveType.leavesIn {r : Schema} {bound : Option String} :
    ∀ {m : Entries String Value bound} {t : FieldType}, EntriesHaveType reg m t →
      t.holdsAny = false → t.recordOf reg = some r → EntriesLeavesIn r m
  | .nil, _, _, _, _ => trivial
  | .cons _ v _ rest, _, h, hany, hr =>
    ⟨HasType.leavesIn (v := v) h.1 hany hr, EntriesHaveType.leavesIn (m := rest) h.2 hany hr⟩
termination_by structural m => m

end

/-! ## Nodes -/

/-- A node without a parent and children. -/
def leaf : Value := record Schema.node [number .zero, string "leaf", null, null, null]

/-- A node with a parent, a child and another node as its note. -/
def inner : Value :=
  record Schema.node [number .zero, string "inner", ref leaf, array [ref leaf, null], leaf]

/-- It is of any type that takes nodes. -/
theorem hasType_leaf {t : FieldType} (h : t.TakesRecord Registry.ofNode Schema.node) :
    leaf.HasType Registry.ofNode t :=
  ⟨h, .inr (.inr ⟨rfl, rfl⟩), .inr rfl, trivial, trivial, trivial, rfl⟩

/-- It is of any type; its parent and its child are pointers to a node. -/
theorem hasType_inner : inner.HasType Registry.ofNode .any := by
  have hleaf : leaf.HasType Registry.ofNode (.ref "Node") := hasType_leaf (.inr ⟨true, rfl⟩)
  exact ⟨.inl rfl, .inr (.inr ⟨rfl, rfl⟩), .inr rfl, hleaf, ⟨_, rfl, hleaf, trivial, trivial⟩,
    hasType_leaf (.inl rfl), rfl⟩

end Value

end FieldMask
