import FieldMask.Proofs.BindingInvariant
import FieldMask.Proofs.ValueTyping
import Mathlib.Data.List.Forall2

/-!
# Records are well-typed

A record holds one value for each field of its schema, of the type of the field. A record starts
with zero values, which are of their types, and takes values only after they have been converted to
the type of the field. Conversion takes some values as they are: those of an `any` field, and
records of the right schema. So it gives a value of the type only if the records within the value
that it is given are well-typed before.

## Key results

- `FieldType.zero_hasType`: the zero value of a type is of the type
- `Value.convert_hasType`: what is converted to a type is of the type
- `Record.WellTyped.set`: setting a field keeps a record well-typed
- `Obtainable.hasType`: records are well-typed, however they have been obtained
- `records_wellTyped`: the three together, with what is left of a record that could not be set
-/

namespace FieldMask

variable {reg : Registry}

/-! ## One value for each field -/

namespace Value

/-- Values are of the types of fields if each is of the type of its own field. -/
theorem fieldsHaveTypes_iff_forall₂ {values : List Value} {fields : List Field} :
    FieldsHaveTypes reg values fields ↔
      List.Forall₂ (fun (v : Value) (f : Field) => v.HasType reg f.type) values fields := by
  induction values generalizing fields with
  | nil => rw [FieldsHaveTypes, List.forall₂_nil_left_iff]
  | cons v rest ih =>
    cases fields with
    | nil => simp [FieldsHaveTypes]
    | cons f fields => rw [FieldsHaveTypes, List.forall₂_cons, ih]

/-- There are as many values as fields, and those at one index go together. -/
theorem fieldsHaveTypes_iff {values : List Value} {fields : List Field} :
    FieldsHaveTypes reg values fields ↔ values.length = fields.length ∧
      ∀ (i : Nat) (v : Value) (f : Field), values[i]? = some v → fields[i]? = some f →
        v.HasType reg f.type := by
  rw [fieldsHaveTypes_iff_forall₂, List.forall₂_iff_get]
  refine and_congr_right fun hlength => ⟨fun h i v f hv hf => ?_, fun h i hi hi' => ?_⟩
  · obtain ⟨hi, rfl⟩ := List.getElem?_eq_some_iff.1 hv
    obtain ⟨hi', rfl⟩ := List.getElem?_eq_some_iff.1 hf
    exact h i hi hi'
  · exact h i _ _ (List.getElem?_eq_getElem hi) (List.getElem?_eq_getElem hi')

/-- One value may be replaced by another one of the type of the field. -/
theorem FieldsHaveTypes.set {values : List Value} {fields : List Field}
    (h : FieldsHaveTypes reg values fields) {i : Nat} {f : Field} {w : Value}
    (hf : fields[i]? = some f) (hw : w.HasType reg f.type) :
    FieldsHaveTypes reg (values.set i w) fields := by
  obtain ⟨hlength, htypes⟩ := fieldsHaveTypes_iff.1 h
  -- At another index the value is as before.
  refine fieldsHaveTypes_iff.2 ⟨by rw [List.length_set, hlength], fun j v g hv hg => ?_⟩
  rw [List.getElem?_set] at hv
  split at hv
  · rename_i hij
    subst hij
    split at hv
    · -- At the index itself there is the new value.
      cases hv
      cases hf.symm.trans hg
      exact hw
    · cases hv
  · exact htypes j v g hv hg

end Value

/-! ## Zero values -/

mutual

/-- The zero value of a type is of the type. -/
theorem FieldType.zero_hasType : ∀ t : FieldType, t.zero.HasType reg t
  | .boolean => .inr rfl
  | .integer => .inr (.inr ⟨rfl, rfl⟩)
  | .number => .inr (.inl rfl)
  | .string => .inr rfl
  | .record schema => ⟨.inr ⟨false, rfl⟩, Schema.zeros_haveTypes schema⟩
  | .any => trivial
  | .array _ => trivial
  | .map _ => trivial
  | .ref _ => trivial
termination_by structural t => t

/-- The zero value of a field is of the type of the field. -/
theorem Field.zero_hasType : ∀ f : Field, f.zero.HasType reg f.type
  | ⟨_, _, type, _, _⟩ => FieldType.zero_hasType type
termination_by structural f => f

/-- The zero values of the fields of a schema are of the types of the fields. -/
theorem Schema.zeros_haveTypes : ∀ s : Schema, Value.FieldsHaveTypes reg s.zeros s.fields
  | ⟨_, _, fields⟩ => Schema.zerosOf_haveTypes fields
termination_by structural s => s

/-- The zero values of fields are of the types of the fields. -/
theorem Schema.zerosOf_haveTypes : ∀ fields : List Field,
    Value.FieldsHaveTypes reg (Schema.zerosOf fields) fields
  | [] => rfl
  | f :: rest => ⟨Field.zero_hasType f, Schema.zerosOf_haveTypes rest⟩
termination_by structural fields => fields

end

/-- The value of a field is the last one that was assigned, or the zero value. -/
theorem Schema.getElem?_fill {s : Schema} {assigned : List (Nat × Value)} {i : Nat} {f : Field}
    (hf : s.fields[i]? = some f) :
    (s.fill assigned)[i]? =
      some (((Entries.ofList assigned : OrderedMap Nat Value).get? i).getD f.zero) := by
  rw [fill, List.getElem?_map, List.getElem?_zipIdx, hf]
  simp

/-- A record is filled with the values that are given, and with zero values. -/
theorem Schema.fill_haveTypes {s : Schema} {assigned : List (Nat × Value)}
    (h : ∀ (i : Nat) (v : Value) (f : Field), (i, v) ∈ assigned → s.fields[i]? = some f →
      v.HasType reg f.type) :
    Value.FieldsHaveTypes reg (s.fill assigned) s.fields := by
  refine Value.fieldsHaveTypes_iff.2 ⟨by simp [fill], fun i v f hv hf => ?_⟩
  rw [getElem?_fill hf] at hv
  cases hv
  -- The last value that was given for the index is one of those that were given.
  cases hget : (Entries.ofList assigned).get? i with
  | none => exact f.zero_hasType
  | some w => exact h i w f (Entries.mem_of_get?_ofList hget) hf

/-! ## Conversion -/

/-- The integer that a number stands for stands for itself. -/
theorem Number.toInteger?_idem {n i : Number} (h : n.toInteger? = some i) :
    i.toInteger? = some i := by
  cases n with
  | integer value inRange =>
    cases h
    rfl
  | double d =>
    -- A double stands for an integer that fits one of the two ranges.
    simp only [toInteger?, ofInt?] at h
    split at h
    · split at h
      · split at h
        · cases h
          rfl
        · cases h
      · cases h
    · cases h

namespace FieldType

variable {t : FieldType} {w : Value}

/-- A pointer is converted by converting its target, except to `any`. -/
theorem convert_ref (ht : t ≠ any) (v : Value) :
    t.convert reg (.ref v) = (do return .ref (← t.convert reg v)) := by
  cases t <;> first | rfl | exact absurd rfl ht

/-- A truth value is only taken as it is. -/
theorem convert_bool_eq_ok_iff {b : Bool} :
    t.convert reg (.bool b) = .ok w ↔ (t = any ∨ t = boolean) ∧ w = .bool b := by
  cases t <;> simp [convert, eq_comm]

/-- A text is only taken as it is. -/
theorem convert_string_eq_ok_iff {s : String} :
    t.convert reg (.string s) = .ok w ↔ (t = any ∨ t = string) ∧ w = .string s := by
  cases t <;> simp [convert, eq_comm]

/-- A number is taken as it is, or as the integer that it stands for. -/
theorem convert_number_eq_ok {n : Number} (h : t.convert reg (.number n) = .ok w) :
    (t = any ∨ t = number) ∧ w = .number n ∨
      t = integer ∧ ∃ i, n.toInteger? = some i ∧ w = .number i := by
  cases t with
  | any =>
    cases h
    exact .inl ⟨.inl rfl, rfl⟩
  | number =>
    cases h
    exact .inl ⟨.inr rfl, rfl⟩
  | integer =>
    simp only [convert] at h
    split at h
    · rename_i i hi
      cases h
      exact .inr ⟨rfl, i, hi, rfl⟩
    · cases h
  | _ => cases h

/-- An array is taken as it is, or converted item by item. -/
theorem convert_array_eq_ok {vs : List Value} (h : t.convert reg (.array vs) = .ok w) :
    t = any ∧ w = .array vs ∨
      ∃ items ws, t = array items ∧ convertItems reg items 0 vs = .ok ws ∧ w = .array ws := by
  cases t with
  | any =>
    cases h
    exact .inl ⟨rfl, rfl⟩
  | array items =>
    obtain ⟨ws, hws, hw⟩ := bind_eq_ok_iff.1 h
    cases hw
    exact .inr ⟨items, ws, rfl, hws, rfl⟩
  | _ => cases h

/-- An object is taken as it is, as a map, or as the members of a record. -/
theorem convert_object_eq_ok {es : OrderedMap String Value}
    (h : t.convert reg (.object es) = .ok w) :
    t = any ∧ w = .object es ∨
      (∃ values ms, t = map values ∧ convertEntries reg values es = .ok ms ∧ w = .object ms) ∨
      ∃ schema pointer assigned, t.target reg = some (schema, pointer) ∧
        convertMembers reg schema es = .ok (assigned, []) ∧
        w = if pointer then .ref (.record schema (schema.fill assigned))
          else .record schema (schema.fill assigned) := by
  cases htarget : t.target reg with
  | none =>
    cases t with
    | any =>
      cases h
      exact .inl ⟨rfl, rfl⟩
    | map values =>
      obtain ⟨ms, hms, hw⟩ := bind_eq_ok_iff.1 h
      cases hw
      exact .inr (.inl ⟨values, ms, rfl, hms, rfl⟩)
    | _ =>
      simp only [convert, htarget] at h
      cases h
  | some found =>
    obtain ⟨schema, pointer⟩ := found
    -- The type is of records, in place or by name, and looks at the members in either case.
    obtain ⟨⟨assigned, unknown⟩, hmembers, hw⟩ : ∃ p, convertMembers reg schema es = .ok p ∧
        (if p.2.isEmpty then Except.ok (if pointer then .ref (.record schema (schema.fill p.1))
          else .record schema (schema.fill p.1))
          else .error (Error.of (.unrecognizedFields p.2))) = Except.ok w := by
      cases t <;> simp only [convert, htarget] at h <;>
        first | exact bind_eq_ok_iff.1 h | cases htarget
    -- All that is left is whether any key was left over.
    simp only [List.isEmpty_iff] at hw
    split at hw
    · rename_i hempty
      cases hempty
      cases hw
      exact .inr (.inr ⟨schema, pointer, assigned, rfl, hmembers, rfl⟩)
    · cases hw

/-- A record is taken as it is, by `any` and by the types that take records of its schema. -/
theorem convert_record_eq_ok {s : Schema} {vs : List Value}
    (h : t.convert reg (.record s vs) = .ok w) :
    t = any ∧ w = .record s vs ∨ ∃ pointer, t.target reg = some (s, pointer) ∧
      w = if pointer then .ref (.record s vs) else .record s vs := by
  cases htarget : t.target reg with
  | none =>
    cases t with
    | any =>
      cases h
      exact .inl ⟨rfl, rfl⟩
    | _ =>
      simp only [convert, htarget] at h
      cases h
  | some found =>
    obtain ⟨schema, pointer⟩ := found
    have hsame : (if s = schema then Except.ok (if pointer then .ref (.record s vs)
        else .record s vs) else .error (Error.of (.typeMismatch schema.name s.name))) =
          Except.ok w := by
      -- Both types of records only compare the schemas.
      cases t <;> simp only [convert, htarget] at h <;> first | exact h | cases htarget
    split at hsame
    · rename_i heq
      cases heq
      cases hsame
      exact .inr ⟨pointer, rfl, rfl⟩
    · cases hsame

end FieldType

namespace Value

/-- A pointer to a value is of the types of the value. -/
theorem hasType_pointed_iff {pointer : Bool} {v : Value} {t : FieldType} :
    (if pointer then ref v else v).HasType reg t ↔ v.HasType reg t := by
  cases pointer <;> rfl

mutual

/-- What is converted to a type is of the type, if all records within it are well-typed. -/
theorem convert_hasType : ∀ (v : Value) {t : FieldType} {w : Value}, v.HasType reg .any →
    t.convert reg v = .ok w → w.HasType reg t
  | .null, _, _, _, h => by
    cases h
    trivial
  | .ref v, t, w, hv, h => by
    by_cases hany : t = .any
    · -- Values of any type are taken as they are, and so are the records within them.
      subst hany
      cases h
      exact hv
    · rw [FieldType.convert_ref hany] at h
      obtain ⟨x, hx, hw⟩ := bind_eq_ok_iff.1 h
      cases hw
      have htarget := convert_hasType v hv hx
      exact htarget
  | .bool b, t, w, _, h => by
    obtain ⟨ht, rfl⟩ := FieldType.convert_bool_eq_ok_iff.1 h
    exact ht
  | .number n, t, w, _, h => by
    obtain ⟨rfl | rfl, rfl⟩ | ⟨rfl, i, hi, rfl⟩ := FieldType.convert_number_eq_ok h
    · exact .inl rfl
    · exact .inr (.inl rfl)
    · exact .inr (.inr ⟨rfl, Number.toInteger?_idem hi⟩)
  | .string s, t, w, _, h => by
    obtain ⟨ht, rfl⟩ := FieldType.convert_string_eq_ok_iff.1 h
    exact ht
  | .array vs, t, w, hv, h => by
    obtain ⟨rfl, rfl⟩ | ⟨items, ws, rfl, hws, rfl⟩ := FieldType.convert_array_eq_ok h
    · exact hv
    · exact ⟨items, rfl, convertItems_haveType vs hv.items hws⟩
  | .object es, t, w, hv, h => by
    obtain ⟨rfl, rfl⟩ | ⟨values, ms, rfl, hms, rfl⟩ | ⟨schema, pointer, assigned, htarget, hmembers,
      rfl⟩ := FieldType.convert_object_eq_ok h
    · exact hv
    · exact ⟨values, rfl, convertEntries_haveType es hv.entries hms⟩
    · -- What the members do not give is filled with zero values.
      have hassigned := convertMembers_haveTypes es hv.entries hmembers
      exact hasType_pointed_iff.2 ⟨.inr ⟨pointer, htarget⟩, Schema.fill_haveTypes hassigned⟩
  | .record s vs, t, w, hv, h => by
    obtain ⟨rfl, rfl⟩ | ⟨pointer, htarget, rfl⟩ := FieldType.convert_record_eq_ok h
    · exact hv
    · -- The values are not looked at, since they are of the types of the fields.
      exact hasType_pointed_iff.2 ⟨.inr ⟨pointer, htarget⟩, hv.2⟩
termination_by structural v => v

/-- Items are converted to items of the type. -/
theorem convertItems_haveType : ∀ (vs : List Value) {t : FieldType} {index : Nat}
    {ws : List Value}, ItemsHaveType reg vs .any →
      FieldType.convertItems reg t index vs = .ok ws → ItemsHaveType reg ws t
  | [], _, _, _, _, h => by
    cases h
    trivial
  | v :: rest, t, index, ws, hvs, h => by
    obtain ⟨w, hw, hmore⟩ := bind_eq_ok_iff.1 h
    obtain ⟨ws', hws, heq⟩ := bind_eq_ok_iff.1 hmore
    cases heq
    exact ⟨convert_hasType v hvs.1 (within_eq_ok_iff.1 hw), convertItems_haveType rest hvs.2 hws⟩
termination_by structural vs => vs

/-- Values of a map are converted to values of the type. -/
theorem convertEntries_haveType {bound : Option String} :
    ∀ (es : Entries String Value bound) {t : FieldType} {ms : Entries String Value bound},
      EntriesHaveType reg es .any → FieldType.convertEntries reg t es = .ok ms →
        EntriesHaveType reg ms t
  | .nil, _, _, _, h => by
    cases h
    trivial
  | .cons key v above rest, t, ms, hes, h => by
    obtain ⟨w, hw, hmore⟩ := bind_eq_ok_iff.1 h
    obtain ⟨ms', hms, heq⟩ := bind_eq_ok_iff.1 hmore
    cases heq
    exact ⟨convert_hasType v hes.1 (within_eq_ok_iff.1 hw), convertEntries_haveType rest hes.2 hms⟩
termination_by structural es => es

/-- The members of an object are assigned to fields as values of their types. -/
theorem convertMembers_haveTypes {bound : Option String} :
    ∀ (es : Entries String Value bound) {s : Schema} {assigned : List (Nat × Value)}
      {unknown : List String}, EntriesHaveType reg es .any →
      FieldType.convertMembers reg s es = .ok (assigned, unknown) →
        ∀ (i : Nat) (v : Value) (f : Field), (i, v) ∈ assigned → s.fields[i]? = some f →
          v.HasType reg f.type
  | .nil, _, _, _, _, h => by
    cases h
    intro i v f hmem
    cases hmem
  | .cons key v above rest, s, assigned, unknown, hes, h => by
    cases hlookup : s.lookup? key with
    | none =>
      simp only [FieldType.convertMembers, hlookup] at h
      obtain ⟨⟨assigned', unknown'⟩, hrest, heq⟩ := bind_eq_ok_iff.1 h
      cases heq
      exact convertMembers_haveTypes rest hes.2 hrest
    | some found =>
      obtain ⟨j, g⟩ := found
      simp only [FieldType.convertMembers, hlookup] at h
      obtain ⟨w, hw, hmore⟩ := bind_eq_ok_iff.1 h
      obtain ⟨⟨assigned', unknown'⟩, hrest, heq⟩ := bind_eq_ok_iff.1 hmore
      cases heq
      -- A value that is assigned is the first one, or one that the other members assign.
      intro i x f hmem hf
      rcases List.mem_cons.1 hmem with hfirst | hmem
      · -- The field of the member is the one at its index.
        cases hfirst
        cases hf.symm.trans (Schema.getElem?_of_lookup? hlookup)
        exact convert_hasType v hes.1 (within_eq_ok_iff.1 hw)
      · exact convertMembers_haveTypes rest hes.2 hrest i x f hmem hf
termination_by structural es => es

end

end Value

/-! ## Reading and setting fields -/

namespace Record

/-- A record is read at the field that a name finds. -/
theorem get?_eq_bind_lookup? (r : Record) (name : String) :
    r.get? name = (r.schema.lookup? name).bind fun p => r.values[p.1]? := by
  rw [get?, Schema.indexOf?_eq_map_lookup?]
  cases r.schema.lookup? name <;> rfl

/-- A record holds exactly one value for each field of its schema, of the type of the field. -/
structure WellTyped (reg : Registry) (r : Record) : Prop where
  length_eq : r.values.length = r.schema.size
  hasType : ∀ (i : Nat) (v : Value) (f : Field), r.values[i]? = some v →
    r.schema.fields[i]? = some f → v.HasType reg f.type

/-- A record is well-typed if its values have the types of its fields. -/
theorem wellTyped_iff_fieldsHaveTypes {r : Record} :
    r.WellTyped reg ↔ Value.FieldsHaveTypes reg r.values r.schema.fields := by
  rw [Value.fieldsHaveTypes_iff]
  exact ⟨fun h => ⟨h.length_eq, h.hasType⟩, fun h => ⟨h.1, h.2⟩⟩

/-- A record is well-typed if it is of type `any` as a value. -/
theorem wellTyped_iff {r : Record} : r.WellTyped reg ↔ r.toValue.HasType reg .any := by
  rw [wellTyped_iff_fieldsHaveTypes]
  exact ⟨fun h => ⟨.inl rfl, h⟩, fun h => h.2⟩

/-- A record of zero values is well-typed. -/
theorem zero_wellTyped (schema : Schema) : (zero schema).WellTyped reg :=
  wellTyped_iff_fieldsHaveTypes.2 schema.zeros_haveTypes

/-- Setting a field keeps a record well-typed. -/
theorem WellTyped.set {r r' : Record} (hr : r.WellTyped reg) {name : String} {v : Value}
    (hv : v.HasType reg .any) (h : r.set reg name v = .ok r') : r'.WellTyped reg := by
  obtain ⟨⟨i, f⟩, hname, hmore⟩ := bind_eq_ok_iff.1 h
  obtain ⟨w, hw, heq⟩ := bind_eq_ok_iff.1 hmore
  cases heq
  have hf : r.schema.fields[i]? = some f := Schema.getElem?_of_resolveName hname
  -- The old value goes, and the new one has been converted to the type of the field.
  have hconverted : w.HasType reg f.type := Value.convert_hasType v hv (within_eq_ok_iff.1 hw)
  exact wellTyped_iff_fieldsHaveTypes.2 ((wellTyped_iff_fieldsHaveTypes.1 hr).set hf hconverted)

/-- Set a field of a record in place. The value is converted before the record is touched. -/
def setInPlace (reg : Registry) (name : String) (v : Value) : EStateM Error Record Unit := do
  let r ← get
  let (i, f) ← ofExcept (r.schema.resolveName name)
  let value ← ofExcept (within f.name (f.type.convert reg v))
  modify fun r => { r with values := r.values.set i value }

/-- In place there is the record that setting the field gives, or the record as it was. -/
theorem run_setInPlace (reg : Registry) (r : Record) (name : String) (v : Value) :
    (∃ r', r.set reg name v = .ok r' ∧ (setInPlace reg name v).run r = .ok () r') ∨
      ∃ e, r.set reg name v = .error e ∧ (setInPlace reg name v).run r = .error e r := by
  cases hname : r.schema.resolveName name with
  | error e =>
    refine .inr ⟨e, ?_, ?_⟩
    · rw [Record.set, hname]
      rfl
    · simp only [setInPlace, EStateM.run_bind, EStateM.run_get, hname]
      rfl
  | ok found =>
    -- The field exists, so that it depends on the conversion what happens.
    cases hvalue : within found.2.name (found.2.type.convert reg v) with
    | error e =>
      refine .inr ⟨e, ?_, ?_⟩
      · simp only [Record.set, hname, bind, Except.bind, hvalue]
      · simp only [setInPlace, EStateM.run_bind, EStateM.run_get, hname, ofExcept,
          EStateM.run_pure, hvalue]
        rfl
    | ok w =>
      refine .inl ⟨{ r with values := r.values.set found.1 w }, ?_, ?_⟩
      · simp only [Record.set, hname, bind, Except.bind, hvalue]
        rfl
      · simp only [setInPlace, EStateM.run_bind, EStateM.run_get, hname, ofExcept,
          EStateM.run_pure, hvalue]
        rfl

/-- If setting a field in place succeeds, it gives what setting the field gives. -/
theorem set_eq_ok_of_run {r r' : Record} {name : String} {v : Value}
    (h : (setInPlace reg name v).run r = .ok () r') : r.set reg name v = .ok r' := by
  obtain ⟨t, hset, hrun⟩ | ⟨e, -, hrun⟩ := run_setInPlace reg r name v
  · rw [hrun] at h
    cases h
    exact hset
  · rw [hrun] at h
    cases h

/-- A record of which a field cannot be set is left as it was. -/
theorem eq_of_run_eq_error {r r' : Record} {name : String} {v : Value} {e : Error}
    (h : (setInPlace reg name v).run r = .error e r') : r.set reg name v = .error e ∧ r' = r := by
  obtain ⟨t, -, hrun⟩ | ⟨e', hset, hrun⟩ := run_setInPlace reg r name v
  · rw [hrun] at h
    cases h
  · rw [hrun] at h
    cases h
    exact ⟨hset, rfl⟩

end Record

/-! ## What can be obtained -/

namespace Value

/-- Items have a type if each of them has it. -/
theorem itemsHaveType_iff {items : List Value} {t : FieldType} :
    ItemsHaveType reg items t ↔ ∀ v ∈ items, v.HasType reg t := by
  induction items with
  | nil => simp [ItemsHaveType]
  | cons v rest ih => rw [ItemsHaveType, ih, List.forall_mem_cons]

/-- Values of a map have a type if each of them has it. -/
theorem entriesHaveType_iff {bound : Option String} {entries : Entries String Value bound}
    {t : FieldType} :
    EntriesHaveType reg entries t ↔ ∀ p ∈ entries.toList, p.2.HasType reg t := by
  induction entries with
  | nil => simp [EntriesHaveType]
  | cons key v above rest ih =>
    rw [EntriesHaveType, ih, Entries.toList_cons, List.forall_mem_cons]

/-- The values that can be obtained. Data is put together freely, also around records. A record
    starts with zero values, is the result of a conversion, or comes about by setting a field of
    another one, as a new record or in place. -/
inductive Obtainable (reg : Registry) : Value → Prop where
  | null : Obtainable reg null
  | bool (b : Bool) : Obtainable reg (bool b)
  | number (n : Number) : Obtainable reg (number n)
  | string (s : String) : Obtainable reg (string s)
  | array {items : List Value} (each : ∀ v ∈ items, Obtainable reg v) :
      Obtainable reg (array items)
  | object {entries : OrderedMap String Value}
      (each : ∀ p ∈ entries.toList, Obtainable reg p.2) : Obtainable reg (object entries)
  | ref {target : Value} (of : Obtainable reg target) : Obtainable reg (ref target)
  | target {target : Value} (of : Obtainable reg (.ref target)) : Obtainable reg target
  | item {items : List Value} {v : Value} (of : Obtainable reg (.array items))
      (mem : v ∈ items) : Obtainable reg v
  | entry {entries : OrderedMap String Value} {p : String × Value}
      (of : Obtainable reg (.object entries)) (mem : p ∈ entries.toList) : Obtainable reg p.2
  | field {r : Record} {v : Value} (of : Obtainable reg r.toValue) (mem : v ∈ r.values) :
      Obtainable reg v
  | zero (t : FieldType) : Obtainable reg t.zero
  | convert {t : FieldType} {v w : Value} (input : Obtainable reg v)
      (result : t.convert reg v = .ok w) : Obtainable reg w
  | zeroRecord (schema : Schema) : Obtainable reg (Record.zero schema).toValue
  | withField {r r' : Record} {name : String} {v : Value} (before : Obtainable reg r.toValue)
      (input : Obtainable reg v) (result : r.set reg name v = .ok r') : Obtainable reg r'.toValue
  | setInPlace {r r' : Record} {name : String} {v : Value} (before : Obtainable reg r.toValue)
      (input : Obtainable reg v) (result : (Record.setInPlace reg name v).run r = .ok () r') :
      Obtainable reg r'.toValue
  | notSet {r r' : Record} {name : String} {v : Value} {e : Error}
      (before : Obtainable reg r.toValue) (input : Obtainable reg v)
      (result : (Record.setInPlace reg name v).run r = .error e r') : Obtainable reg r'.toValue

/-- All records within a value that can be obtained are well-typed. -/
theorem Obtainable.hasType {v : Value} (h : v.Obtainable reg) : v.HasType reg .any := by
  -- Along the ways to obtain a value: records within it are well-typed before and after each of
  -- them.
  induction h with
  | null => trivial
  | bool b => exact .inl rfl
  | number n => exact .inl rfl
  | string s => exact .inl rfl
  | array _ ih => exact ⟨.any, rfl, itemsHaveType_iff.2 ih⟩
  | object _ ih => exact ⟨.any, rfl, entriesHaveType_iff.2 ih⟩
  | ref _ ih => exact ih
  | target _ ih => exact ih
  | item _ mem ih => exact itemsHaveType_iff.1 ih.items _ mem
  | entry _ mem ih => exact entriesHaveType_iff.1 ih.entries _ mem
  -- A value of a field is of the type of the field, and so its records are well-typed.
  | @field r v _ mem ih =>
    obtain ⟨hlength, htypes⟩ := Record.wellTyped_iff.2 ih
    obtain ⟨i, hi⟩ := List.getElem?_of_mem mem
    have hlt : i < r.schema.fields.length := by
      have := (List.getElem?_eq_some_iff.1 hi).1
      rwa [hlength] at this
    exact (htypes i v _ hi (List.getElem?_eq_getElem hlt)).any
  | zero t => exact t.zero_hasType.any
  | convert _ result ih => exact (convert_hasType _ ih result).any
  | zeroRecord schema => exact Record.wellTyped_iff.1 (Record.zero_wellTyped schema)
  | withField _ _ result ihr ihv =>
    exact Record.wellTyped_iff.1 ((Record.wellTyped_iff.2 ihr).set ihv result)
  | setInPlace _ _ result ihr ihv =>
    have hset := Record.set_eq_ok_of_run result
    exact Record.wellTyped_iff.1 ((Record.wellTyped_iff.2 ihr).set ihv hset)
  | notSet _ _ result ihr _ =>
    obtain ⟨-, rfl⟩ := Record.eq_of_run_eq_error result
    exact ihr

end Value

/-- The zero value of a type is of the type, and so is what is converted to it, if all records
    within the value are well-typed. All records that can be obtained are well-typed, and one of
    which a field could not be set is as it was. -/
theorem records_wellTyped (reg : Registry) :
    (∀ t : FieldType, t.zero.HasType reg t) ∧
      (∀ (t : FieldType) (v w : Value), v.HasType reg .any → t.convert reg v = .ok w →
        w.HasType reg t) ∧
      (∀ r : Record, r.toValue.Obtainable reg → r.WellTyped reg) ∧
      ∀ (r r' : Record) (name : String) (v : Value) (e : Error),
        (Record.setInPlace reg name v).run r = .error e r' →
          r.set reg name v = .error e ∧ r' = r := by
  refine ⟨FieldType.zero_hasType, fun t v w hv h => ?_, fun r hr => ?_, fun r r' name v e h => ?_⟩
  · exact Value.convert_hasType v hv h
  · exact Record.wellTyped_iff.2 hr.hasType
  · exact Record.eq_of_run_eq_error h

/-- A leaf becomes a pointer where a node is referred to, and the number of a node is not set to a
    text. -/
theorem records_wellTyped_node :
    (∃ w, (FieldType.ref "Node").convert Registry.ofNode Value.leaf = .ok w ∧
        w.HasType Registry.ofNode (.ref "Node")) ∧
      (Record.zero Schema.node).WellTyped Registry.ofNode ∧
      ∃ e, (Record.setInPlace Registry.ofNode "id" (.string "one")).run (Record.zero Schema.node) =
        .error e (Record.zero Schema.node) := by
  obtain ⟨-, hconvert, hobtained, hfailed⟩ := records_wellTyped Registry.ofNode
  have hleaf : Value.leaf.HasType Registry.ofNode .any := Value.hasType_leaf (.inl rfl)
  -- Converted to a reference, the leaf is put behind a pointer.
  refine ⟨⟨_, rfl, hconvert _ _ _ hleaf rfl⟩, hobtained _ (.zeroRecord Schema.node), ?_⟩
  have hrun : ∃ e r', (Record.setInPlace Registry.ofNode "id" (.string "one")).run
      (Record.zero Schema.node) = .error e r' := ⟨_, _, rfl⟩
  obtain ⟨e, r', hrun⟩ := hrun
  obtain ⟨-, rfl⟩ := hfailed _ _ _ _ _ hrun
  exact ⟨e, hrun⟩

end FieldMask
