import FieldMask.Proofs.DataOrder
import FieldMask.Proofs.ProjectionTotal
import FieldMask.Proofs.RecordTyping
import FieldMask.Proofs.SelectionOperations

/-!
# Emitted fields

What an object that is projected of a record has in it. A defined selection emits the serialized
names of the fields that it names, whatever the values are; one that is left open emits some of the
default fields. An entry is `null`, or there is something to show in it.

This holds of all records that are projected within an object, each by the selection that it is
projected by: that of its field, or in data of any type the one that is left open. Whether there is
something to show is asked of the value of a field, and once more of what is projected of it, so
that nothing is emitted because of a part that the selection does not select.

## Key results

- `projectFields_entry`: where the entries of an object come from
- `emits_of_projectFields`: what the object of a record has in it
- `shows_of_projectAs`: what is within projected data
- `project_emits`: the two together
-/

namespace FieldMask

variable {reg : Registry}

/-- What a selection emits: the entries of the object that a record is projected to. -/
structure RecordSelection.Emits (s : RecordSelection) (o : OrderedMap String Value) : Prop where
  /-- A defined selection emits exactly the fields that it names, of those that are serialized. -/
  named : s.isUndefined = false → ∀ name, (o.get? name).isSome = true ↔
    ∃ i f child, s.explicit? i = some child ∧ s.record.fields[i]? = some f ∧ f.json = some name
  /-- A selection that is left open emits default fields, where there is something to show. -/
  leftOpen : s.isUndefined = true → ∀ name w, o.get? name = some w →
    w.isHollow = false ∧ ∃ i f, (i, f) ∈ s.record.defaultFields ∧ f.json = some name
  /-- In an entry that is not `null` there is something to show. -/
  proper : ∀ name w, o.get? name = some w → w = .null ∨ w.isHollow = false

namespace Value

/-- A value of a record is that of a selected field with a serialized name. -/
structure Serializes (s : RecordSelection) (values : List Value) (name : String) (i : Nat)
    (f : Field) (v : Value) : Prop where
  field : s.record.fields[i]? = some f
  value : values[i]? = some v
  selected : s.hasIndex i = true
  json : f.json = some name

mutual

/-- Data shows a value: it has the same arrays and maps, and for each record an object with what is
    emitted of the record. Without a selection records are shown by their default fields. -/
inductive Shows (reg : Registry) : Option RecordSelection → Value → Value → Prop where
  | null {selection : Option RecordSelection} : Shows reg selection null null
  | bool (b : Bool) : Shows reg none (bool b) (bool b)
  | number (n : Number) : Shows reg none (number n) (number n)
  | string (s : String) : Shows reg none (string s) (string s)
  | ref {selection : Option RecordSelection} {target w : Value} (h : Shows reg selection target w) :
    Shows reg selection (ref target) w
  | array {selection : Option RecordSelection} {items ws : List Value}
    (lengths : items.length = ws.length)
    (each : ∀ p ∈ items.zip ws, Shows reg selection p.1 p.2) :
    Shows reg selection (array items) (array ws)
  | object {selection : Option RecordSelection} {entries ws : OrderedMap String Value}
    (keys : entries.keys = ws.keys)
    (each : ∀ p ∈ entries.values.zip ws.values, Shows reg selection p.1 p.2) :
    Shows reg selection (object entries) (object ws)
  | record {selection : Option RecordSelection} {s : RecordSelection} {values : List Value}
    {o : OrderedMap String Value} (shown_by : selection.getD (.undefined s.record) = s)
    (emits : s.Emits o)
    (each : ∀ name w, o.get? name = some w → w ≠ .null → FieldShows reg s values name w) :
    Shows reg selection (record s.record values) (object o)

/-- Data that is emitted under a serialized name shows the value of a field: as it is if there are
    no records in it, in full if it is of any type, else by the selection of the field. -/
inductive FieldShows (reg : Registry) : RecordSelection → List Value → String → Value → Prop where
  | plain {s : RecordSelection} {values : List Value} {name : String} {i : Nat} {f : Field}
    {v : Value} (from_field : Serializes s values name i f v) (noRecord : v.recordIn? = none) :
    FieldShows reg s values name v.plain
  | any {s : RecordSelection} {values : List Value} {name : String} {i : Nat} {f : Field}
    {v w : Value} (from_field : Serializes s values name i f v) (holdsAny : f.type.holdsAny = true)
    (projected : v.projectAny reg = .ok w) (shows : Shows reg none v w) :
    FieldShows reg s values name w
  | nested {s c : RecordSelection} {values : List Value} {name : String} {i : Nat} {f : Field}
    {v w : Value} (from_field : Serializes s values name i f v)
    (child : s.selectionOf reg i f = some c) (projected : v.project reg c = .ok w)
    (shows : Shows reg (some c) v w) : FieldShows reg s values name w

end

/-! ## Entries -/

/-- What is left of the part that is shown of a field: `null` if there is nothing to show, and not
    even that if the selection is left open. -/
def Leaves (s : RecordSelection) (part w : Value) : Prop :=
  (part.isHollow = true ∧ s.isUndefined = false ∧ w = null) ∨ (part.isHollow = false ∧ w = part)

/-- What is found in an object after a field has been added: what was there, or what is left of the
    part that is shown of the field. -/
theorem leaves_of_get?_addProjected {s : RecordSelection} {name key : String} {part w : Value}
    {before : OrderedMap String Value}
    (h : (addProjected (!s.isUndefined) name part before).get? key = some w) :
    before.get? key = some w ∨ (name = key ∧ Leaves s part w) := by
  rw [get?_addProjected] at h
  by_cases hkey : name = key
  · rw [if_pos hkey] at h
    cases hhollow : part.isHollow with
    -- The part has something to show, so it is what is found.
    | false =>
      rw [hhollow] at h
      cases h
      exact .inr ⟨hkey, .inr ⟨hhollow, rfl⟩⟩
    | true =>
      rw [hhollow, if_pos rfl] at h
      -- There is nothing to show: `null` is added if the selection is defined, else nothing.
      cases hopen : s.isUndefined with
      | true =>
        rw [hopen] at h
        exact .inl h
      | false =>
        rw [hopen] at h
        cases h
        exact .inr ⟨hkey, .inl ⟨hhollow, hopen, rfl⟩⟩
  · rw [if_neg hkey] at h
    exact .inl h

/-- Where the entries of an object come from: each is what is left of a field that is shown. -/
theorem projectFields_entry {s : RecordSelection} {fields : List (Field × Nat)}
    {values : List Value} {before o : OrderedMap String Value}
    (h : projectFields reg s before fields values = .ok o) {name : String} {w : Value}
    (hget : o.get? name = some w) :
    before.get? name = some w ∨ ∃ f i v part, ((f, i), v) ∈ fields.zip values ∧
      shownName? s i f = some name ∧ shown reg s i f v = .ok part ∧ Leaves s part w := by
  -- By induction on the values, together with the fields, and with what has been added before.
  induction values generalizing fields before with
  | nil =>
    cases h
    exact .inl hget
  | cons v values ih =>
    cases fields with
    | nil =>
      cases h
      exact .inl hget
    | cons first fields =>
      obtain ⟨f, i⟩ := first
      rw [projectFields_cons] at h
      obtain ⟨m, hm, hrest⟩ := bind_eq_ok_iff.1 h
      rcases ih hrest with hbefore | ⟨g, j, u, part, hmem, hname⟩
      · rcases addShown_eq_ok hm with ⟨-, rfl⟩ | ⟨name', part, hname, hpart, rfl⟩
        · exact .inl hbefore
        · -- The entry was there before, or it has just been added.
          rcases leaves_of_get?_addProjected hbefore with hbefore | ⟨rfl, hleaves⟩
          · exact .inl hbefore
          · exact .inr ⟨f, i, v, part, List.mem_cons_self, hname, hpart, hleaves⟩
      · exact .inr ⟨g, j, u, part, List.mem_cons_of_mem _ hmem, hname⟩

/-- Entries stay as fields are added. -/
theorem isSome_get?_addProjected {named : Bool} {name key : String} {part : Value}
    {before : OrderedMap String Value} (h : (before.get? key).isSome = true) :
    ((addProjected named name part before).get? key).isSome = true := by
  rw [get?_addProjected]
  -- Where the name is the same, the entry is replaced or stays; else it stays.
  split
  · split
    · split
      · rfl
      · exact h
    · rfl
  · exact h

/-- So they stay until all fields have been added. -/
theorem isSome_get?_of_projectFields {s : RecordSelection} {fields : List (Field × Nat)}
    {values : List Value} {before o : OrderedMap String Value}
    (h : projectFields reg s before fields values = .ok o) {name : String}
    (hbefore : (before.get? name).isSome = true) : (o.get? name).isSome = true := by
  induction values generalizing fields before with
  | nil =>
    cases h
    exact hbefore
  | cons v values ih =>
    cases fields with
    | nil =>
      cases h
      exact hbefore
    | cons first fields =>
      obtain ⟨f, i⟩ := first
      rw [projectFields_cons] at h
      obtain ⟨m, hm, hrest⟩ := bind_eq_ok_iff.1 h
      -- What the first field adds keeps all entries, and so does what the others add.
      refine ih hrest ?_
      rcases addShown_eq_ok hm with ⟨-, rfl⟩ | ⟨name', part, -, -, rfl⟩
      · exact hbefore
      · exact isSome_get?_addProjected hbefore

/-- A defined selection emits each field that it selects, if the field is serialized. -/
theorem projectFields_emits {s : RecordSelection} (hdefined : s.isUndefined = false)
    {fields : List (Field × Nat)} {values : List Value} {before o : OrderedMap String Value}
    (h : projectFields reg s before fields values = .ok o) {f : Field} {i : Nat} {v : Value}
    (hmem : ((f, i), v) ∈ fields.zip values) {name : String}
    (hname : shownName? s i f = some name) : (o.get? name).isSome = true := by
  -- By induction on the values, up to the one of the field.
  induction values generalizing fields before with
  | nil =>
    rw [List.zip_nil_right] at hmem
    cases hmem
  | cons u values ih =>
    cases fields with
    | nil => cases hmem
    | cons first fields =>
      obtain ⟨g, j⟩ := first
      rw [projectFields_cons] at h
      obtain ⟨m, hm, hrest⟩ := bind_eq_ok_iff.1 h
      rcases List.mem_cons.1 hmem with heq | hmem
      -- Here the field is added, and its entry stays to the end.
      · cases heq
        rcases addShown_eq_ok hm with ⟨hnone, -⟩ | ⟨name', part, hname', -, rfl⟩
        · cases hname.symm.trans hnone
        · cases hname.symm.trans hname'
          refine isSome_get?_of_projectFields hrest ?_
          rw [get?_addProjected, if_pos rfl, hdefined]
          cases part.isHollow <;> rfl
      · exact ih hrest hmem

/-! ## Records -/

/-- Fields and values go together by index. -/
theorem mem_zip_zipIdx_iff {fields : List Field} {values : List Value} {f : Field} {i : Nat}
    {v : Value} :
    ((f, i), v) ∈ fields.zipIdx.zip values ↔ fields[i]? = some f ∧ values[i]? = some v := by
  -- Being a member of both lists is standing at some index of both.
  rw [List.mem_iff_getElem?]
  simp only [List.getElem?_zip_eq_some, List.getElem?_zipIdx, Option.map_eq_some_iff,
    Prod.mk.injEq, Nat.zero_add]
  constructor
  · rintro ⟨j, ⟨g, hg, rfl, rfl⟩, hv⟩
    exact ⟨hg, hv⟩
  · rintro ⟨hf, hv⟩
    exact ⟨i, ⟨f, hf, rfl, rfl⟩, hv⟩

/-- The entries of the object of a record: what is left of the fields that are serialized. -/
theorem serializes_of_projectFields {s : RecordSelection} {values : List Value}
    {o : OrderedMap String Value}
    (h : projectFields reg s .nil s.record.fields.zipIdx values = .ok o) {name : String} {w : Value}
    (hget : o.get? name = some w) :
    ∃ f i v part, Serializes s values name i f v ∧ shown reg s i f v = .ok part ∧
      Leaves s part w := by
  rcases projectFields_entry h hget with hnil | ⟨f, i, v, part, hmem, hname, hpart, hleaves⟩
  · cases hnil
  · obtain ⟨hf, hv⟩ := mem_zip_zipIdx_iff.1 hmem
    obtain ⟨hi, hjson⟩ := shownName?_eq_some_iff.1 hname
    exact ⟨f, i, v, part, ⟨hf, hv, hi, hjson⟩, hpart, hleaves⟩

/-- What the object of a record with a value for each field has in it. -/
theorem emits_of_projectFields {s : RecordSelection} {values : List Value}
    {o : OrderedMap String Value} (hlength : values.length = s.record.fields.length)
    (h : projectFields reg s .nil s.record.fields.zipIdx values = .ok o) : s.Emits o where
  named hdefined name := by
    constructor
    -- What is emitted comes from a selected field, which a defined selection names.
    · intro hsome
      obtain ⟨w, hw⟩ := Option.isSome_iff_exists.1 hsome
      obtain ⟨f, i, v, part, hfrom, -, -⟩ := serializes_of_projectFields h hw
      have hi := hfrom.selected
      rw [RecordSelection.hasIndex_of_isUndefined_eq_false hdefined hfrom.field] at hi
      obtain ⟨child, hchild⟩ := Option.isSome_iff_exists.1 hi
      exact ⟨i, f, child, hchild, hfrom.field, hfrom.json⟩
    -- The value of a named field is there, as there is one for each field.
    · rintro ⟨i, f, child, hchild, hf, hjson⟩
      have hlt : i < values.length := hlength ▸ (List.getElem?_eq_some_iff.1 hf).1
      have hmem := mem_zip_zipIdx_iff.2 ⟨hf, List.getElem?_eq_getElem hlt⟩
      refine projectFields_emits hdefined h hmem (shownName?_eq_some_iff.2 ⟨?_, hjson⟩)
      rw [RecordSelection.hasIndex_of_isUndefined_eq_false hdefined hf, hchild]
      rfl
  leftOpen hopen name w hw := by
    obtain ⟨f, i, v, part, hfrom, -, ⟨-, hdefined, -⟩ | ⟨hpart, rfl⟩⟩ :=
      serializes_of_projectFields h hw
    -- `null` is left of a field only if the selection is defined.
    · cases hopen.symm.trans hdefined
    · refine ⟨hpart, i, f, ?_, hfrom.json⟩
      cases s with
      | defined record fields => cases hopen
      | undefined record =>
        have hf : record.fields[i]? = some f := hfrom.field
        have hi : (RecordSelection.undefined record).hasIndex i = true := hfrom.selected
        rw [RecordSelection.hasIndex_undefined hf] at hi
        exact Schema.mem_defaultFields_iff.2 ⟨hf, hi⟩
  proper name w hw := by
    obtain ⟨f, i, v, part, -, -, ⟨-, -, hnull⟩ | ⟨hpart, rfl⟩⟩ := serializes_of_projectFields h hw
    · exact .inl hnull
    · exact .inr hpart

/-! ## Data within data -/

/-- The part of a value that is shown by a selection; without one, the value in full. -/
def projectAs (reg : Registry) (selection : Option RecordSelection) (v : Value) :
    Except Error Value :=
  selection.elim (v.projectAny reg) (project reg · v)

/-- The parts of items that are shown by a selection; without one, the items in full. The index of
    the first one is for errors only. -/
def projectItemsAs (reg : Registry) (selection : Option RecordSelection) (index : Nat)
    (items : List Value) : Except Error (List Value) :=
  selection.elim (projectAnyItems reg items) (projectItems reg · index items)

/-- The parts of the values of a map that are shown by a selection; without one, all in full. -/
def projectEntriesAs {bound : Option String} (reg : Registry) (selection : Option RecordSelection)
    (entries : Entries String Value bound) : Except Error (Entries String Value bound) :=
  selection.elim (projectAnyEntries reg entries) (projectEntries reg · entries)

variable {selection : Option RecordSelection}

/-- The first item is projected by itself, and so are the others. -/
theorem projectItemsAs_cons_eq_ok {index : Nat} {v : Value} {rest ws : List Value}
    (h : projectItemsAs reg selection index (v :: rest) = .ok ws) :
    ∃ w ws', v.projectAs reg selection = .ok w ∧
      projectItemsAs reg selection (index + 1) rest = .ok ws' ∧ ws = w :: ws' := by
  cases selection with
  | none =>
    obtain ⟨w, hw, hws⟩ := bind_eq_ok_iff.1 h
    obtain ⟨ws', hrest, hws⟩ := bind_eq_ok_iff.1 hws
    cases hws
    exact ⟨w, ws', hw, hrest, rfl⟩
  | some s =>
    obtain ⟨w, hw, hws⟩ := bind_eq_ok_iff.1 h
    obtain ⟨ws', hrest, hws⟩ := bind_eq_ok_iff.1 hws
    cases hws
    exact ⟨w, ws', within_eq_ok_iff.1 hw, hrest, rfl⟩

/-- The value of the first key is projected by itself, and so are the others. -/
theorem projectEntriesAs_cons_eq_ok {bound : Option String} {key : String} {v : Value}
    {above : ∀ b ∈ bound, b < key} {rest : Entries String Value (some key)}
    {ws : Entries String Value bound}
    (h : projectEntriesAs reg selection (.cons key v above rest) = .ok ws) :
    ∃ w ws', v.projectAs reg selection = .ok w ∧
      projectEntriesAs reg selection rest = .ok ws' ∧ ws = .cons key w above ws' := by
  cases selection with
  | none =>
    obtain ⟨w, hw, hws⟩ := bind_eq_ok_iff.1 h
    obtain ⟨ws', hrest, hws⟩ := bind_eq_ok_iff.1 hws
    cases hws
    exact ⟨w, ws', hw, hrest, rfl⟩
  | some s =>
    obtain ⟨w, hw, hws⟩ := bind_eq_ok_iff.1 h
    obtain ⟨ws', hrest, hws⟩ := bind_eq_ok_iff.1 hws
    cases hws
    exact ⟨w, ws', within_eq_ok_iff.1 hw, hrest, rfl⟩

/-- Each item is projected by itself. -/
theorem forall₂_of_projectItemsAs {index : Nat} {items ws : List Value}
    (h : projectItemsAs reg selection index items = .ok ws) :
    List.Forall₂ (fun v w => v.projectAs reg selection = .ok w) items ws := by
  induction items generalizing index ws with
  | nil =>
    cases selection <;> cases h <;> exact .nil
  | cons v rest ih =>
    obtain ⟨w, ws', hw, hrest, rfl⟩ := projectItemsAs_cons_eq_ok h
    exact .cons hw (ih hrest)

/-- The value of each key is projected by itself. -/
theorem forall₂_of_projectEntriesAs {bound : Option String}
    {entries ws : Entries String Value bound}
    (h : projectEntriesAs reg selection entries = .ok ws) :
    entries.keys = ws.keys ∧
      List.Forall₂ (fun v w => v.projectAs reg selection = .ok w) entries.values ws.values := by
  induction entries with
  | nil =>
    cases selection <;> cases h <;> exact ⟨rfl, .nil⟩
  | cons key v above rest ih =>
    obtain ⟨w, ws', hw, hrest, rfl⟩ := projectEntriesAs_cons_eq_ok h
    obtain ⟨hkeys, hvalues⟩ := ih hrest
    exact ⟨congrArg (key :: ·) hkeys, .cons hw hvalues⟩

/-- An array is projected item by item. -/
theorem projectAs_array_eq_ok {items : List Value} {w : Value}
    (h : (array items).projectAs reg selection = .ok w) :
    ∃ ws, w = array ws ∧
      List.Forall₂ (fun v w => v.projectAs reg selection = .ok w) items ws := by
  have hitems : ∃ ws, projectItemsAs reg selection 0 items = .ok ws ∧ w = array ws := by
    cases selection <;>
    · obtain ⟨ws, hws, hw⟩ := bind_eq_ok_iff.1 h
      cases hw
      exact ⟨ws, hws, rfl⟩
  obtain ⟨ws, hws, rfl⟩ := hitems
  exact ⟨ws, rfl, forall₂_of_projectItemsAs hws⟩

/-- A map keeps its keys, and is projected value by value. -/
theorem projectAs_object_eq_ok {entries : OrderedMap String Value} {w : Value}
    (h : (object entries).projectAs reg selection = .ok w) :
    ∃ ws : OrderedMap String Value, w = object ws ∧ entries.keys = ws.keys ∧
      List.Forall₂ (fun v w => v.projectAs reg selection = .ok w) entries.values ws.values := by
  have hentries : ∃ ws, projectEntriesAs reg selection entries = .ok ws ∧ w = object ws := by
    cases selection <;>
    · obtain ⟨ws, hws, hw⟩ := bind_eq_ok_iff.1 h
      cases hw
      exact ⟨ws, hws, rfl⟩
  obtain ⟨ws, hws, rfl⟩ := hentries
  exact ⟨ws, rfl, forall₂_of_projectEntriesAs hws⟩

/-- A record is projected field by field, by the selection or the one of it that is left open. -/
theorem projectAs_record_eq_ok {schema : Schema} {values : List Value} {w : Value}
    (h : (record schema values).projectAs reg selection = .ok w) :
    ∃ (s : RecordSelection) (o : OrderedMap String Value), w = object o ∧ s.record = schema ∧
      selection.getD (.undefined schema) = s ∧
      projectFields reg s .nil schema.fields.zipIdx values = .ok o := by
  cases selection with
  | none =>
    obtain ⟨o, ho, hw⟩ := bind_eq_ok_iff.1 h
    cases hw
    exact ⟨.undefined schema, o, rfl, rfl, rfl, ho⟩
  | some s =>
    have h : project reg s (record schema values) = .ok w := h
    rw [project] at h
    split at h
    · rename_i hrecord
      obtain ⟨o, ho, hw⟩ := bind_eq_ok_iff.1 h
      cases hw
      exact ⟨s, o, rfl, hrecord.symm, rfl, ho⟩
    · cases h

/-- What is emitted of a field and has something to show shows the value of the field, if what is
    projected of the value does. -/
theorem fieldShows_of_shown {s : RecordSelection} (hs : s.WellFormed reg) {values : List Value}
    {name : String} {i : Nat} {f : Field} {v part : Value}
    (hfrom : Serializes s values name i f v) (hv : v.HasType reg f.type)
    (hpart : shown reg s i f v = .ok part) (hproper : part.isHollow = false)
    (ih : ∀ selection : Option RecordSelection, (∀ c ∈ selection, c.WellFormed reg) → ∀ w,
      v.projectAs reg selection = .ok w → Shows reg selection v w) :
    FieldShows reg s values name part := by
  rw [shown] at hpart
  -- The cases of what is shown: nothing, data of any type, a value without records, a nested
  -- record.
  split at hpart
  · cases hpart
    cases hproper
  · split at hpart
    · rename_i hany
      exact .any hfrom hany hpart (ih none (by simp) part hpart)
    · rename_i hany
      obtain ⟨hbound, hchild⟩ := hs.selectionOf hfrom.field
      cases hr : f.record reg with
      | none =>
        rw [hr] at hpart
        cases hpart
        exact .plain hfrom (hv.recordIn?_eq_none (Bool.eq_false_iff.2 hany) hr)
      | some r =>
        rw [hr] at hbound
        obtain ⟨c, hc, -⟩ := Option.map_eq_some_iff.1 hbound
        -- A field with a nested record always has a selection of it.
        simp only [hr, hc, Option.getD_some] at hpart
        refine .nested hfrom hc hpart (ih (some c) ?_ part hpart)
        intro d hd
        cases hd
        exact hchild c hc

/-- What is projected shows the value. -/
theorem shows_of_projectAs {v : Value} (hv : v.HasType reg .any)
    (hs : ∀ s ∈ selection, s.WellFormed reg) {w : Value}
    (h : v.projectAs reg selection = .ok w) : Shows reg selection v w := by
  -- By induction on the value, for every selection: what is below is shown by the same one, or by
  -- that of a field.
  induction v using Value.induction generalizing selection w with
  | null =>
    cases selection <;> cases h <;> exact .null
  | bool b =>
    cases selection <;> cases h
    exact .bool b
  | number n =>
    cases selection <;> cases h
    exact .number n
  | string s =>
    cases selection <;> cases h
    exact .string s
  | ref target ih =>
    refine .ref (ih hv hs ?_)
    cases selection <;> exact h
  | array items ih =>
    obtain ⟨ws, rfl, hws⟩ := projectAs_array_eq_ok h
    refine .array hws.length_eq ?_
    rintro ⟨x, y⟩ hmem
    -- Each pair stands at one index, so the item is projected to what stands beside it.
    have hx := (List.of_mem_zip hmem).1
    exact ih x hx (itemsHaveType_iff.1 hv.items x hx) hs ((List.forall₂_iff_zip.1 hws).2 hmem)
  | object entries ih =>
    obtain ⟨ws, rfl, hkeys, hws⟩ := projectAs_object_eq_ok h
    refine .object hkeys ?_
    rintro ⟨x, y⟩ hmem
    obtain ⟨p, hp, rfl⟩ := List.mem_map.1 (List.of_mem_zip hmem).1
    exact ih p hp (entriesHaveType_iff.1 hv.entries p hp) hs ((List.forall₂_iff_zip.1 hws).2 hmem)
  | record schema values ih =>
    obtain ⟨s, o, rfl, rfl, hby, ho⟩ := projectAs_record_eq_ok h
    obtain ⟨hlength, htypes⟩ := fieldsHaveTypes_iff.1 hv.2
    -- The record is projected by the selection it is given, or by the open one, which is
    -- well-formed.
    have hwf : s.WellFormed reg := by
      cases selection with
      | none =>
        have hopen : .undefined s.record = s := hby
        rw [← hopen]
        trivial
      | some t =>
        have heq : t = s := hby
        exact heq ▸ hs t rfl
    refine .record hby (emits_of_projectFields hlength ho) fun name w hw hne => ?_
    obtain ⟨f, i, v, part, hfrom, hpart, ⟨-, -, hnull⟩ | ⟨hproper, rfl⟩⟩ :=
      serializes_of_projectFields ho hw
    · exact absurd hnull hne
    -- What is left of a field that is not `null` is all of the part that is shown.
    · have htype := htypes i v f hfrom.value hfrom.field
      refine fieldShows_of_shown hwf hfrom htype hpart hproper fun selection hselection w hw => ?_
      exact ih v (List.mem_of_getElem? hfrom.value) htype.any hselection hw

/-- A record is projected to an object of what the selection emits. Each entry that is not `null`
    shows the value of a field, with the same of all records within it. -/
theorem project_emits {s : RecordSelection} (hs : s.WellFormed reg) {values : List Value}
    (hv : (record s.record values).HasType reg .any) :
    ∃ o : OrderedMap String Value, (record s.record values).project reg s = .ok (object o) ∧
      s.Emits o ∧
      ∀ name w, o.get? name = some w → w ≠ null → FieldShows reg s values name w := by
  obtain ⟨w, hw, -⟩ := project_total _ hv s hs rfl
  have hselection : ∀ t ∈ some s, t.WellFormed reg := by
    intro t ht
    cases ht
    exact hs
  have hshows : Shows reg (some s) (record s.record values) w := shows_of_projectAs hv hselection hw
  -- That the value is a record leaves one way to show it.
  generalize hrecord : record s.record values = v at hshows
  cases hshows with
  | record hby hemits heach =>
    have hby : s = _ := hby
    subst hby
    cases hrecord
    exact ⟨_, hw, hemits, heach⟩
  | _ => cases hrecord

/-- The children of a node are emitted even if no field of them is selected. -/
theorem project_emits_inner :
    ∃ o : OrderedMap String Value,
      inner.project Registry.ofNode RecordSelection.sampleOfNode = .ok (object o) ∧
      RecordSelection.sampleOfNode.Emits o ∧ (o.get? "children").isSome = true := by
  obtain ⟨o, ho, hemits, -⟩ :=
    project_emits RecordSelection.wellFormed_sampleOfNode hasType_inner
  exact ⟨o, ho, hemits, (hemits.named rfl "children").2 ⟨3, _, _, rfl, rfl, rfl⟩⟩

end Value

end FieldMask
