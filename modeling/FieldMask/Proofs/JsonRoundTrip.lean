import FieldMask.Proofs.NamingRoundTrip
import FieldMask.Proofs.RecordTyping
import FieldMask.Value.Json

/-!
# Reading records back from JSON

Serialized, a record is an object by serialized names, and the pointers within it cannot be told
from what they point to. Conversion to the type of the record makes up for that: it finds the fields
by their names again, and makes pointers where a type is of them. So a record is what its JSON tree
is converted to, provided that all of its fields are written and found by the names they are written
with, that no type leaves open what a value was, and that pointers are where conversion makes them.

## Key results

- `Value.mem_readMembers_iff`: the members that a record is read back as
- `FieldType.convertMembers_eq_ok`: members that are all of fields are converted one by one
- `Value.convert_reread`: a value is what its JSON tree is converted to
- `Record.convert_toJson`: so is a record
-/

namespace FieldMask

variable {reg : Registry}

/-! ## What is read back -/

namespace Value

/-- A value, written as JSON and read as a value again. -/
def reread (v : Value) : Value := ofJson v.toJson

/-- An array is read as the array of its items, each of them read again. -/
theorem reread_array (items : List Value) : (array items).reread = array (items.map reread) := by
  have hitems : itemsOfJson (itemsToJson items) = items.map reread := by
    induction items with
    | nil => rfl
    | cons v rest ih => rw [itemsToJson, itemsOfJson, ih, List.map_cons, reread]
  rw [reread, toJson, ofJson, hitems]

/-- An object is read as the object of its values, each of them read again. -/
theorem reread_object (entries : OrderedMap String Value) :
    (object entries).reread = object (entries.mapValues reread) := by
  have hentries : ∀ {bound : Option String} (es : Entries String Value bound),
      membersOfJson (entriesToJson es) = (es.mapValues reread).toList := by
    intro bound es
    induction es with
    | nil => rfl
    | cons key v above rest ih =>
      rw [entriesToJson, membersOfJson, ih, Entries.mapValues, Entries.toList_cons, reread]
  rw [reread, toJson, ofJson, hentries entries, Entries.ofList_of_perm (.refl _)]

/-- The members that a record is written as, if no field leaves a value out, are read back as the
    values of its fields by serialized names. -/
theorem mem_membersOfJson_fieldsToJson_iff {fields : List Field} {values : List Value}
    (homit : ∀ f ∈ fields, f.omitEmpty = false) {name : String} {w : Value} :
    (name, w) ∈ membersOfJson (fieldsToJson fields values) ↔
      ∃ (i : Nat) (f : Field) (v : Value), fields[i]? = some f ∧ values[i]? = some v ∧
        f.json = some name ∧ w = v.reread := by
  induction values generalizing fields with
  | nil => simp [fieldsToJson, membersOfJson]
  | cons v rest ih =>
    cases fields with
    | nil => simp [fieldsToJson, membersOfJson]
    | cons f fields =>
      -- A field that is written is the first one or one of those behind it, and none of them is
      -- left out.
      have hsplit : (∃ (i : Nat) (g : Field) (x : Value), (f :: fields)[i]? = some g ∧
          (v :: rest)[i]? = some x ∧ g.json = some name ∧ w = x.reread) ↔
          f.json = some name ∧ w = v.reread ∨ ∃ (i : Nat) (g : Field) (x : Value),
            fields[i]? = some g ∧ rest[i]? = some x ∧ g.json = some name ∧ w = x.reread := by
        rw [← Nat.or_exists_add_one]
        simp
      rw [hsplit, ← ih fun g hg => homit g (List.mem_cons_of_mem f hg), fieldsToJson,
        homit f List.mem_cons_self]
      cases f.json with
      | none => simp
      | some json => simp [membersOfJson, reread, eq_comm]

end Value

/-! ## What members are converted to -/

namespace FieldType

/-- Members that are all of fields, and of which each can be converted, are converted one by one. -/
theorem convertMembers_eq_ok {s : Schema} {bound : Option String} {es : Entries String Value bound}
    (h : ∀ key v, (key, v) ∈ es.toList →
      ∃ i f w, s.lookup? key = some (i, f) ∧ f.type.convert reg v = .ok w) :
    ∃ assigned, convertMembers reg s es = .ok (assigned, []) ∧
      ∀ i w, (i, w) ∈ assigned ↔ ∃ key v f, (key, v) ∈ es.toList ∧
        s.lookup? key = some (i, f) ∧ f.type.convert reg v = .ok w := by
  induction es with
  | nil => exact ⟨[], rfl, by simp⟩
  | cons key v above rest ih =>
    obtain ⟨assigned, hrest, hassigned⟩ :=
      ih fun key v hmem => h key v (List.mem_cons_of_mem _ hmem)
    obtain ⟨i, f, w, hfound, hw⟩ := h key v List.mem_cons_self
    -- The first member is that of a field; those behind it are so by induction, without errors.
    refine ⟨(i, w) :: assigned, ?_, fun j x => ?_⟩
    · rw [convertMembers, hfound, hrest]
      simp only [hw]
      rfl
    · simp only [Entries.toList_cons, List.mem_cons, Prod.mk.injEq, hassigned]
      constructor
      -- A pair is that of the first member or of one behind it.
      · rintro (⟨rfl, rfl⟩ | ⟨key', v', f', hmem, hfound', hx⟩)
        · exact ⟨key, v, f, .inl ⟨rfl, rfl⟩, hfound, hw⟩
        · exact ⟨key', v', f', .inr hmem, hfound', hx⟩
      -- One key leads to one field, and one value is converted to one.
      · rintro ⟨key', v', f', ⟨rfl, rfl⟩ | hmem, hfound', hx⟩
        · cases hfound.symm.trans hfound'
          cases hw.symm.trans hx
          exact .inl ⟨rfl, rfl⟩
        · exact .inr ⟨key', v', f', hmem, hfound', hx⟩

/-- Where a type takes an object as a record, all members being of fields, it is the record that
    they fill. -/
theorem convert_object_of_members {t : FieldType} {s : Schema} {pointer : Bool}
    (htarget : t.target reg = some (s, pointer)) {es : OrderedMap String Value}
    {assigned : List (Nat × Value)} (h : convertMembers reg s es = .ok (assigned, [])) :
    t.convert reg (.object es) = .ok (if pointer then .ref (.record s (s.fill assigned))
      else .record s (s.fill assigned)) := by
  cases t with
  | record schema =>
    cases htarget
    simp only [convert, target, h]
    rfl
  | ref name =>
    simp only [convert, htarget, h]
    rfl
  | _ => cases htarget

end FieldType

/-- A record is filled with one value for each field. -/
theorem Schema.fill_eq {s : Schema} {assigned : List (Nat × Value)} {values : List Value}
    (hlength : values.length = s.fields.length)
    (h : ∀ i w, (i, w) ∈ assigned ↔ values[i]? = some w) : s.fill assigned = values := by
  refine List.ext_getElem? fun i => ?_
  rw [fill, List.getElem?_map, List.getElem?_zipIdx, Nat.zero_add]
  cases hv : values[i]? with
  -- Beyond the values there are no fields either.
  | none =>
    rw [List.getElem?_eq_none_iff, hlength] at hv
    rw [List.getElem?_eq_none hv]
    rfl
  | some v =>
    have hi : i < s.fields.length := hlength ▸ (List.getElem?_eq_some_iff.1 hv).1
    -- Only one value is assigned to the index, so the last one that is assigned is that one.
    have hfound : (Entries.ofList assigned : OrderedMap Nat Value).get? i = some v := by
      refine Entries.get?_ofList_of_mem ((h i v).2 hv) fun w hw => ?_
      rw [h, hv] at hw
      exact (Option.some.inj hw).symm
    simp [List.getElem?_eq_getElem hi, hfound]

/-! ## Records that can be read back -/

/-- All fields are written, and found by the names that they are written with, and their types say
    what their values are. -/
structure Schema.Rebuildable (s : Schema) : Prop where
  foundByJson : s.FoundByJson
  omitEmpty : ∀ f ∈ s.fields, f.omitEmpty = false
  holdsAny : ∀ f ∈ s.fields, f.type.holdsAny = false

/-- Values of a type are not just any, and records among them can be read back, down to any
    depth. -/
structure FieldType.Rebuildable (reg : Registry) (t : FieldType) : Prop where
  holdsAny : t.holdsAny = false
  records : ∀ s, t.recordOf reg = some s → ∀ r, Schema.HasBelow reg s r → r.Rebuildable

namespace FieldType.Rebuildable

variable {t : FieldType}

/-- The types of the fields of a record can be rebuilt if a type of the record can. -/
theorem field (h : t.Rebuildable reg) {s : Schema} (hs : t.recordOf reg = some s) {f : Field}
    (hf : f ∈ s.fields) : f.type.Rebuildable reg where
  holdsAny := (h.records s hs s .refl).holdsAny f hf
  records _ hr _ hbelow := h.records s hs _ (.head ⟨f, hf, hr⟩ hbelow)

/-- The items of arrays can be rebuilt if the arrays can. -/
theorem items {u : FieldType} (h : t.Rebuildable reg) (hu : t.items? = some u) :
    u.Rebuildable reg := by
  obtain ⟨hrecord, hany⟩ := recordOf_items reg h.holdsAny hu
  exact ⟨hany, fun s hs => h.records s (hrecord ▸ hs)⟩

/-- The values of maps can be rebuilt if the maps can. -/
theorem values {u : FieldType} (h : t.Rebuildable reg) (hu : t.values? = some u) :
    u.Rebuildable reg := by
  obtain ⟨hrecord, hany⟩ := recordOf_values reg h.holdsAny hu
  exact ⟨hany, fun s hs => h.records s (hrecord ▸ hs)⟩

/-- Records of a schema are taken in place or by a name, and by a name as pointers. -/
theorem target_of_takesRecord (h : t.Rebuildable reg) {s : Schema} (hs : t.TakesRecord reg s) :
    t = .record s ∧ t.target reg = some (s, false) ∨
      (∃ name, t = .ref name) ∧ t.target reg = some (s, true) := by
  have hany := h.holdsAny
  obtain rfl | ⟨pointer, htarget⟩ := hs
  -- A record is taken by `any`, by a type of the record, or by a type that names it.
  · cases hany
  · cases t with
    | record schema =>
      cases htarget
      exact .inl ⟨rfl, rfl⟩
    | ref name =>
      obtain ⟨r, hr, heq⟩ := Option.map_eq_some_iff.1 htarget
      cases heq
      exact .inr ⟨⟨name, rfl⟩, htarget⟩
    | _ => cases htarget

end FieldType.Rebuildable

namespace Value

mutual

/-- Where a type makes pointers there is either none but `null` or one to a record. Elsewhere there
    are no pointers. -/
def PointersPlaced : Value → FieldType → Prop
  | ref (record s values), t => (∃ name, t = .ref name) ∧ FieldsPointersPlaced values s.fields
  | ref _, _ => False
  | record s values, t => (∀ name, t ≠ .ref name) ∧ FieldsPointersPlaced values s.fields
  | array items, t => ∀ u, t.items? = some u → ItemsPointersPlaced items u
  | object entries, t => ∀ u, t.values? = some u → EntriesPointersPlaced entries u
  | null, _ | bool _, _ | number _, _ | string _, _ => True
termination_by structural v => v

/-- Pointers are in their places in all items. -/
def ItemsPointersPlaced : List Value → FieldType → Prop
  | [], _ => True
  | v :: rest, t => v.PointersPlaced t ∧ ItemsPointersPlaced rest t
termination_by structural vs => vs

/-- Pointers are in their places in all values of a map. -/
def EntriesPointersPlaced {bound : Option String} : Entries String Value bound → FieldType → Prop
  | .nil, _ => True
  | .cons _ v _ rest, t => v.PointersPlaced t ∧ EntriesPointersPlaced rest t
termination_by structural es => es

/-- Pointers are in their places in the values of fields. -/
def FieldsPointersPlaced : List Value → List Field → Prop
  | [], _ => True
  | v :: values, fields => match fields with
    | [] => True
    | f :: fields => v.PointersPlaced f.type ∧ FieldsPointersPlaced values fields
termination_by structural vs => vs

end

/-- The members that a record is written as, as they are read back. -/
def readMembers (s : Schema) (values : List Value) : OrderedMap String Value :=
  Entries.ofList (membersOfJson (fieldsToJson s.fields values))

/-- A record is read as the object of the members that it is written as. -/
theorem reread_record (s : Schema) (values : List Value) :
    (record s values).reread = object (readMembers s values) := rfl

/-- The keys that are read back lead to the fields again, and the values are those of the fields. -/
theorem mem_readMembers_iff {s : Schema} {values : List Value} (hs : s.Rebuildable) {key : String}
    {w : Value} : (key, w) ∈ (readMembers s values).toList ↔ ∃ (i : Nat) (f : Field) (v : Value),
      s.lookup? key = some (i, f) ∧ f.json = some key ∧ values[i]? = some v ∧ w = v.reread := by
  have hwritten : ∀ {x : Value}, (key, x) ∈ membersOfJson (fieldsToJson s.fields values) ↔
      ∃ (i : Nat) (f : Field) (v : Value), s.lookup? key = some (i, f) ∧ f.json = some key ∧
        values[i]? = some v ∧ x = v.reread := by
    intro x
    rw [mem_membersOfJson_fieldsToJson_iff hs.omitEmpty]
    constructor
    · rintro ⟨i, f, v, hf, hv, hkey, hx⟩
      obtain ⟨name, hname, hfound⟩ := hs.foundByJson i f hf
      cases hkey.symm.trans hname
      exact ⟨i, f, v, hfound, hkey, hv, hx⟩
    · rintro ⟨i, f, v, hfound, hkey, hv, hx⟩
      exact ⟨i, f, v, Schema.getElem?_of_lookup? hfound, hv, hkey, hx⟩
  rw [Entries.mem_toList_iff_get?_eq_some]
  refine ⟨fun h => hwritten.1 (Entries.mem_of_get?_ofList h), fun h => ?_⟩
  refine Entries.get?_ofList_of_mem (hwritten.2 h) fun x hx => ?_
  -- A key leads to one field only, and so to one value.
  obtain ⟨i, f, v, hfound, -, hv, rfl⟩ := h
  obtain ⟨j, g, u, hfound', -, hu, rfl⟩ := hwritten.1 hx
  cases hfound.symm.trans hfound'
  cases hv.symm.trans hu
  rfl

/-- A record whose values are all read back is read back, where a type takes records of its
    schema. -/
theorem convert_reread_record {t : FieldType} {s : Schema} {values : List Value} {pointer : Bool}
    (htarget : t.target reg = some (s, pointer)) (hs : s.Rebuildable)
    (hlength : values.length = s.fields.length)
    (hvalues : ∀ (i : Nat) (f : Field) (v : Value), s.fields[i]? = some f → values[i]? = some v →
      f.type.convert reg v.reread = .ok v) :
    t.convert reg (record s values).reread =
      .ok (if pointer then ref (record s values) else record s values) := by
  have hconverted : ∀ key w, (key, w) ∈ (readMembers s values).toList →
      ∃ i f x, s.lookup? key = some (i, f) ∧ f.type.convert reg w = .ok x := by
    intro key w hmem
    obtain ⟨i, f, v, hfound, -, hv, rfl⟩ := (mem_readMembers_iff hs).1 hmem
    exact ⟨i, f, v, hfound, hvalues i f v (Schema.getElem?_of_lookup? hfound) hv⟩
  obtain ⟨assigned, hmembers, hassigned⟩ := FieldType.convertMembers_eq_ok hconverted
  -- What is assigned to the fields is what they held, so the record is filled with its own values.
  have hfill : s.fill assigned = values := by
    refine Schema.fill_eq hlength fun i w => (hassigned i w).trans ⟨?_, fun hw => ?_⟩
    · rintro ⟨key, x, f, hmem, hfound, hx⟩
      obtain ⟨j, g, v, hfound', -, hv, rfl⟩ := (mem_readMembers_iff hs).1 hmem
      cases hfound.symm.trans hfound'
      cases hx.symm.trans (hvalues i f v (Schema.getElem?_of_lookup? hfound) hv)
      exact hv
    -- A value of the record is that of a field, which is found by the key that it is written with.
    · have hi : i < s.fields.length := hlength ▸ (List.getElem?_eq_some_iff.1 hw).1
      have hf : s.fields[i]? = some s.fields[i] := List.getElem?_eq_getElem hi
      obtain ⟨name, hname, hfound⟩ := hs.foundByJson i _ hf
      have hmem := (mem_readMembers_iff hs).2 ⟨i, _, w, hfound, hname, hw, rfl⟩
      exact ⟨name, w.reread, _, hmem, hfound, hvalues i _ w hf hw⟩
  rw [reread_record, FieldType.convert_object_of_members htarget hmembers, hfill]

mutual

/-- A value of a type is read back as one of the type. -/
theorem convert_reread : ∀ (v : Value) {t : FieldType}, v.HasType reg t → v.PointersPlaced t →
    t.Rebuildable reg → t.convert reg v.reread = .ok v
  | .null, _, _, _, _ => rfl
  | .bool _, _, h, _, ht => by
    rcases h with rfl | rfl
    · cases ht.holdsAny
    · rfl
  | .number n, _, h, _, ht => by
    rcases h with rfl | rfl | ⟨rfl, hn⟩
    · cases ht.holdsAny
    · rfl
    -- An integer number is converted through its integer, which is the number again.
    · show (match n.toInteger? with
        | some i => Except.ok (number i)
        | none => _) = Except.ok (number n)
      rw [hn]
  | .string _, _, h, _, ht => by
    rcases h with rfl | rfl
    · cases ht.holdsAny
    · rfl
  | .array items, t, h, hplaced, ht => by
    obtain ⟨u, hu, hitems⟩ := h
    -- The items are converted back one by one, and the type of the array is not `any`.
    have hback := convertItems_reread items 0 hitems (hplaced u hu) (ht.items hu)
    cases t with
    | any => cases ht.holdsAny
    | array items =>
      cases hu
      rw [reread_array, FieldType.convert, hback]
      rfl
    | _ => cases hu
  | .object entries, t, h, hplaced, ht => by
    obtain ⟨u, hu, hentries⟩ := h
    have hback := convertEntries_reread entries hentries (hplaced u hu) (ht.values hu)
    cases t with
    | any => cases ht.holdsAny
    | map values =>
      cases hu
      rw [reread_object, FieldType.convert, hback]
      rfl
    | _ => cases hu
  | .record s values, t, h, hplaced, ht => by
    obtain ⟨htakes, hfields⟩ := h
    obtain ⟨rfl, htarget⟩ | ⟨⟨name, rfl⟩, -⟩ := ht.target_of_takesRecord htakes
    -- Written in place, the record is taken in place again: a named type would have made a pointer.
    · have hs : s.Rebuildable := ht.records s rfl s .refl
      have hback := convert_reread_field values hfields hplaced.2 fun f hf => ht.field rfl hf
      exact convert_reread_record htarget hs (fieldsHaveTypes_iff.1 hfields).1 hback
    · exact absurd rfl (hplaced.1 name)
  | .ref (.record s values), t, h, hplaced, ht => by
    obtain ⟨htakes, hfields⟩ := h
    -- Behind a pointer, the record is taken by name, which makes a pointer again.
    obtain ⟨rfl, -⟩ | ⟨-, htarget⟩ := ht.target_of_takesRecord htakes
    · obtain ⟨name, hname⟩ := hplaced.1
      cases hname
    · have hrecord := FieldType.recordOf_eq_some_of_target htarget
      have hs : s.Rebuildable := ht.records s hrecord s .refl
      have hback := convert_reread_field values hfields hplaced.2 fun f hf => ht.field hrecord hf
      exact convert_reread_record htarget hs (fieldsHaveTypes_iff.1 hfields).1 hback
  | .ref .null, _, _, hplaced, _ => hplaced.elim
  | .ref (.bool _), _, _, hplaced, _ => hplaced.elim
  | .ref (.number _), _, _, hplaced, _ => hplaced.elim
  | .ref (.string _), _, _, hplaced, _ => hplaced.elim
  | .ref (.array _), _, _, hplaced, _ => hplaced.elim
  | .ref (.object _), _, _, hplaced, _ => hplaced.elim
  | .ref (.ref _), _, _, hplaced, _ => hplaced.elim
termination_by structural v => v

/-- Items are read back as items of the type. -/
theorem convertItems_reread : ∀ (items : List Value) (index : Nat) {t : FieldType},
    ItemsHaveType reg items t → ItemsPointersPlaced items t → t.Rebuildable reg →
      FieldType.convertItems reg t index (items.map reread) = .ok items
  | [], _, _, _, _, _ => rfl
  | v :: rest, index, t, h, hplaced, ht => by
    have hv := convert_reread v h.1 hplaced.1 ht
    have hrest := convertItems_reread rest (index + 1) h.2 hplaced.2 ht
    rw [List.map_cons, FieldType.convertItems, hv, hrest]
    rfl
termination_by structural items => items

/-- Values of a map are read back as values of the type. -/
theorem convertEntries_reread {bound : Option String} :
    ∀ (entries : Entries String Value bound) {t : FieldType}, EntriesHaveType reg entries t →
      EntriesPointersPlaced entries t → t.Rebuildable reg →
        FieldType.convertEntries reg t (entries.mapValues reread) = .ok entries
  | .nil, _, _, _, _ => rfl
  | .cons key v above rest, t, h, hplaced, ht => by
    have hv := convert_reread v h.1 hplaced.1 ht
    have hrest := convertEntries_reread rest h.2 hplaced.2 ht
    rw [Entries.mapValues, FieldType.convertEntries, hv, hrest]
    rfl
termination_by structural entries => entries

/-- The value of each field is read back as one of the type of the field. -/
theorem convert_reread_field : ∀ (values : List Value) {fields : List Field},
    FieldsHaveTypes reg values fields → FieldsPointersPlaced values fields →
      (∀ f ∈ fields, f.type.Rebuildable reg) → ∀ (i : Nat) (f : Field) (v : Value),
        fields[i]? = some f → values[i]? = some v → f.type.convert reg v.reread = .ok v
  | [], _, _, _, _, _, _, _, _, hv => by cases hv
  | _ :: _, [], h, _, _, _, _, _, _, _ => h.elim
  | w :: rest, g :: fields, h, hplaced, hfields, 0, f, v, hf, hv => by
    cases hf
    cases hv
    exact convert_reread w h.1 hplaced.1 (hfields g List.mem_cons_self)
  | w :: rest, g :: fields, h, hplaced, hfields, i + 1, f, v, hf, hv =>
    convert_reread_field rest h.2 hplaced.2 (fun f hf => hfields f (List.mem_cons_of_mem g hf))
      i f v hf hv
termination_by structural values => values

end

end Value

/-- Conversion undoes serialization: a well-typed record whose pointers are in their places is what
    its JSON tree is converted to, if it can be rebuilt at any depth. -/
theorem Record.convert_toJson {r : Record} (hr : r.WellTyped reg)
    (hplaced : Value.FieldsPointersPlaced r.values r.schema.fields)
    (hrecords : ∀ s, Schema.HasBelow reg r.schema s → s.Rebuildable) :
    (FieldType.record r.schema).convert reg (Value.ofJson r.toValue.toJson) = .ok r.toValue := by
  have htype : r.toValue.HasType reg (.record r.schema) :=
    ⟨.inr ⟨false, rfl⟩, wellTyped_iff_fieldsHaveTypes.1 hr⟩
  have hrebuild : (FieldType.record r.schema).Rebuildable reg := by
    refine ⟨rfl, fun s hs => ?_⟩
    cases hs
    exact hrecords
  have hpointers : r.toValue.PointersPlaced (.record r.schema) := by
    refine ⟨fun name hname => ?_, hplaced⟩
    cases hname
  exact Value.convert_reread r.toValue htype hpointers hrebuild

/-! ### A folder in a folder on a drive -/

/-- The fields of a folder are all written, and found by the names they are written with. -/
theorem Schema.rebuildable_folder : folder.Rebuildable where
  foundByJson := foundByJson_folder
  omitEmpty := by decide
  holdsAny := by decide

/-- So are those of a drive. -/
theorem Schema.rebuildable_drive : drive.Rebuildable where
  foundByJson := foundByJson_drive
  omitEmpty := by decide
  holdsAny := by decide

/-- A folder on its own. -/
def Value.topFolder : Value := record Schema.folder [string "", null, number .zero]

/-- A drive with a folder, which is within another one. -/
def Record.driveOfFolders : Record where
  schema := Schema.drive
  values := [.ref (.record Schema.folder [.string "home", .ref Value.topFolder, .number .zero]),
    .string "disk"]

/-- Each of its values is one of the type of its field. -/
theorem Record.wellTyped_driveOfFolders : driveOfFolders.WellTyped Registry.ofFolder := by
  have htakes : (FieldType.ref "Folder").TakesRecord Registry.ofFolder Schema.folder :=
    .inr ⟨true, rfl⟩
  have htop : Value.topFolder.HasType Registry.ofFolder (.ref "Folder") :=
    ⟨htakes, .inr rfl, trivial, .inr (.inr ⟨rfl, rfl⟩), rfl⟩
  have hroot : (Value.record Schema.folder [.string "home", .ref Value.topFolder,
      .number .zero]).HasType Registry.ofFolder (.ref "Folder") :=
    ⟨htakes, .inr rfl, htop, .inr (.inr ⟨rfl, rfl⟩), rfl⟩
  exact wellTyped_iff_fieldsHaveTypes.2 ⟨hroot, .inr rfl, rfl⟩

/-- It is converted back from its JSON tree. -/
theorem Record.convert_toJson_driveOfFolders :
    (FieldType.record Schema.drive).convert Registry.ofFolder
      (Value.ofJson driveOfFolders.toValue.toJson) = .ok driveOfFolders.toValue := by
  have htop : (Value.ref Value.topFolder).PointersPlaced (.ref "Folder") :=
    ⟨⟨"Folder", rfl⟩, trivial, trivial, trivial, trivial⟩
  have hroot : (Value.ref (.record Schema.folder [.string "home", .ref Value.topFolder,
      .number .zero])).PointersPlaced (.ref "Folder") :=
    ⟨⟨"Folder", rfl⟩, trivial, htop, trivial, trivial⟩
  exact convert_toJson (r := driveOfFolders) wellTyped_driveOfFolders ⟨hroot, trivial, trivial⟩
    fun s hs => Schema.of_hasBelow_drive Schema.rebuildable_folder Schema.rebuildable_drive hs

end FieldMask
