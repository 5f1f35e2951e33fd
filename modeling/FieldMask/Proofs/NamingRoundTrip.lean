import FieldMask.Proofs.NamingInclusion
import FieldMask.Proofs.RecordRoundTrip

/-!
# Selections by serialized names and back

A selection of a record, turned into one by serialized names and bound to its record again, selects
the same paths. On the way what is left open below the root is spelt out where its record has marked
fields, so the selection need not come back as it was. But spelling out only says what was selected
anyway, and where it stops, at a record that is being spelt out further out, the selection stays
open and selects the same as well. That is why cycles do no harm.

Binding undoes the naming, if each serialized name leads back to the field that it is the name of.

## Key results

- `ofNames_byJsonName`: bound to its record, the selection by serialized names is the selection
- `includes_expandNested`: spelling out changes no path that is selected
- `expandNested_eq_self`: where there is nothing to spell out
- `ofNames_toNames`: the round trip
-/

namespace FieldMask

variable {reg : Registry}

/-- Each field has a serialized name and is the one that is found by it. -/
def Schema.FoundByJson (s : Schema) : Prop :=
  ∀ i f, s.fields[i]? = some f → ∃ name, f.json = some name ∧ s.lookup? name = some (i, f)

namespace RecordSelection

/-! ## Binding serialized names -/

mutual

/-- Bound to its record, the selection by serialized names is the selection. -/
theorem ofNames_byJsonName : ∀ s : RecordSelection,
    (∀ r, Schema.HasBelow reg s.record r → r.FoundByJson) → s.WellFormed reg →
      ofNames reg s.record s.byJsonName = .ok s
  | undefined _, _, _ => rfl
  | defined record fields, hrecord, hs => by
    have hbinds := forall₂_binds_byJsonName record hrecord fields hs
    -- Different fields are bound, so their names differ and there is nothing to merge.
    have hnames := nodup_names hbinds (Entries.nodup_keys fields)
    rw [byJsonName, mergeByName_eq_ofList hnames]
    exact ofNames_ofList hbinds
termination_by structural s => s

/-- Entries by serialized names are bound to the fields that they are the names of. -/
theorem forall₂_binds_byJsonName (record : Schema)
    (hrecord : ∀ r, Schema.HasBelow reg record r → r.FoundByJson) {bound : Option Nat} :
    ∀ es : Entries Nat (Option RecordSelection) bound, WellFormedEach reg record es →
      List.Forall₂ (Binds reg record) (eachByJsonName record es) es.toList
  | .nil, _ => .nil
  | .cons i none above rest, h => by
    obtain ⟨⟨f, hf, hmap⟩, -, hrest⟩ := h
    obtain ⟨name, hname, hfound⟩ := hrecord record .refl i f hf
    have hmore := forall₂_binds_byJsonName record hrecord rest hrest
    simp only [eachByJsonName, hf, Option.bind_eq_bind, Option.bind_some, hname]
    exact .cons (.leaf hfound hmap.symm) hmore
  | .cons i (some c) above rest, h => by
    -- The selection of the field is bound to its nested record, where names are found as well.
    obtain ⟨⟨f, hf, hmap⟩, hchild, hrest⟩ := h
    obtain ⟨name, hname, hfound⟩ := hrecord record .refl i f hf
    have hnests : Schema.Nests reg record c.record := .of_field hf hmap.symm
    have hbind := ofNames_byJsonName c (fun r hr => hrecord r (.head hnests hr)) hchild
    have hmore := forall₂_binds_byJsonName record hrecord rest hrest
    simp only [eachByJsonName, hf, Option.bind_eq_bind, Option.bind_some, hname]
    exact .cons (.nested hfound hmap.symm hbind) hmore
termination_by structural es => es

end

/-! ## Spelling out selects nothing else -/

/-- A selection whose record is being spelt out further out stays open. -/
theorem expanded_of_mem {s : RecordSelection} (hopen : s.isUndefined = true) {outer : List Schema}
    (houter : s.record ∈ outer) : expanded reg outer s = s := by
  cases s with
  | undefined record =>
    have hmem : record ∈ outer := houter
    rw [expanded_undefined, expandedChild, if_neg fun h => h.2 hmem]
  | defined record fields => cases hopen

/-- A selection that is spelt out selects the same fields, with what was selected of them spelt
    out. -/
theorem hasIndex_expanded {s : RecordSelection} {outer : List Schema}
    (hs : ¬ s.StaysOpen) (hnew : s.isUndefined = true → s.record ∉ outer) {i : Nat} {f : Field}
    (hf : s.record.fields[i]? = some f) :
    (expanded reg outer s).hasIndex i = s.hasIndex i ∧ (s.hasIndex i = true →
      (expanded reg outer s).fieldSelection reg i =
        .ok ((s.selectionOf reg i f).map (expanded reg (s.record :: outer)))) := by
  obtain ⟨hdefined, hrecord, hexplicit⟩ := @explicit?_expanded reg s hs outer hnew
  have hf' : (expanded reg outer s).record.fields[i]? = some f := hrecord ▸ hf
  have hget := hexplicit i f hf
  -- What is spelt out names exactly the fields that are selected.
  refine ⟨?_, fun hi => ?_⟩
  · rw [hasIndex_of_isUndefined_eq_false hdefined hf', hget]
    cases s.hasIndex i <;> rfl
  · rw [fieldSelection_eq hf', selectionOf, hget, if_pos hi, Option.getD_some]

/-- A selection and what it is spelt out as select the same paths. -/
theorem includes_expanded (s : RecordSelection) (outer : List Schema) (path : List Nat) :
    (expanded reg outer s).Includes reg path ↔ s.Includes reg path := by
  -- Along the path, each record is added to those that are being spelt out.
  induction path generalizing s outer with
  | nil => exact Iff.rfl
  | cons i rest ih =>
    -- A selection that is not spelt out is itself; otherwise it selects the same field, then `ih`
    -- goes on.
    by_cases hopen : s.StaysOpen
    · rw [expanded_of_staysOpen hopen]
    by_cases hcycle : s.isUndefined = true ∧ s.record ∈ outer
    · rw [expanded_of_mem hcycle.1 hcycle.2]
    have hnew : s.isUndefined = true → s.record ∉ outer := not_and.1 hcycle
    have hrecord : (expanded reg outer s).record = s.record := (explicit?_expanded hopen hnew).2.1
    cases hf : s.record.fields[i]? with
    | none =>
      -- Neither selects an index that is not of a field.
      have hnone : ∀ {t : RecordSelection}, t.record = s.record → ¬ t.Includes reg (i :: rest) := by
        rintro t ht ⟨hi, -⟩
        obtain ⟨f, hfield⟩ := exists_field_of_hasIndex hi
        rw [ht, hf] at hfield
        cases hfield
      exact iff_of_false (hnone hrecord) (hnone rfl)
    | some f =>
      obtain ⟨hindex, hchild⟩ := @hasIndex_expanded reg s outer hopen hnew i f hf
      rw [Includes, Includes, hindex]
      refine and_congr_right fun hi => or_congr_right ?_
      rw [hchild hi, fieldSelection_eq hf]
      cases s.selectionOf reg i f with
      | none => simp
      | some c => simp [ih c (s.record :: outer)]

/-- What is left open below the root is spelt out without changing what is selected. -/
theorem includes_expandNested (s : RecordSelection) (path : List Nat) :
    (s.expandNested reg []).Includes reg path ↔ s.Includes reg path := by
  cases s with
  | undefined record => exact Iff.rfl
  | defined record fields => exact includes_expanded (defined record fields) [] path

/-! ## Where there is nothing to spell out -/

/-- A selection names a field with another selection. -/
def Holds (s c : RecordSelection) : Prop := ∃ i, s.explicit? i = some (some c)

/-- A selection is below another one, at any depth. -/
def IsBelow (c s : RecordSelection) : Prop := Relation.TransGen Holds s c

/-- Below a selection, only what has no marked fields is left open. -/
def SpeltOut (s : RecordSelection) : Prop :=
  ∀ c : RecordSelection, c.IsBelow s → c.isUndefined = true → c.record.hasMarkers = false

/-- What is below a spelt-out selection is spelt out. -/
theorem SpeltOut.of_holds {s c : RecordSelection} (h : s.SpeltOut) (hc : s.Holds c) : c.SpeltOut :=
  fun d hd => h d (.head hc hd)

mutual

/-- A selection that is spelt out already remains as it is. -/
theorem expandNested_eq_self (reg : Registry) : ∀ (s : RecordSelection) (outer : List Schema),
    s.SpeltOut → s.expandNested reg outer = s
  | undefined _, _, _ => rfl
  | defined record fields, outer, hs => by
    have hfields : ∀ i c, (i, some c) ∈ fields.toList →
        (c.isUndefined = true → c.record.hasMarkers = false) ∧ c.SpeltOut := by
      intro i c hmem
      have hget : fields.get? i = some (some c) := Entries.mem_toList_iff_get?_eq_some.1 hmem
      have hholds : (defined record fields).Holds c := ⟨i, hget⟩
      exact ⟨hs c (.single hholds), hs.of_holds hholds⟩
    rw [expandNested, expandEach_eq_self reg fields (record :: outer) hfields]
termination_by structural s => s

/-- Entries that are spelt out already remain as they are. -/
theorem expandEach_eq_self (reg : Registry) {bound : Option Nat} :
    ∀ (fields : Entries Nat (Option RecordSelection) bound) (outer : List Schema),
      (∀ i c, (i, some c) ∈ fields.toList →
        (c.isUndefined = true → c.record.hasMarkers = false) ∧ c.SpeltOut) →
      expandEach reg outer fields = fields
  | .nil, _, _ => rfl
  | .cons i none above rest, outer, h => by
    have hrest := expandEach_eq_self reg rest outer fun j c hc => h j c (List.mem_cons_of_mem _ hc)
    rw [expandEach, hrest]
  | .cons i (some child) above rest, outer, h => by
    obtain ⟨hopen, hbelow⟩ := h i child List.mem_cons_self
    have hchild := expandNested_eq_self reg child outer hbelow
    have hrest := expandEach_eq_self reg rest outer fun j c hc => h j c (List.mem_cons_of_mem _ hc)
    rw [expandEach, hrest, hchild]
    -- Where a selection is open its record has no marked fields, so it is not expanded.
    cases hundefined : child.isUndefined with
    | false => rfl
    | true =>
      rw [hopen hundefined]
      rfl
termination_by structural fields => fields

end

/-! ## The round trip -/

/-- A well-formed selection, turned into one by serialized names and bound to its record again,
    selects the same paths. If below its root only records without marked fields are left open, it
    is the same selection. -/
theorem ofNames_toNames {t : RecordSelection} (ht : t.WellFormed reg)
    (hrecord : ∀ r, Schema.HasBelow reg t.record r → r.FoundByJson) :
    ∃ t', ofNames reg t.record (t.toNames reg) = .ok t' ∧
      (∀ path, t'.Includes reg path ↔ t.Includes reg path) ∧ (t.SpeltOut → t' = t) := by
  -- The expanded selection is what the names are bound to again.
  obtain ⟨hsame, hwell⟩ := expandNested_isOf t [] ht
  refine ⟨t.expandNested reg [], ?_, includes_expandNested t, expandNested_eq_self reg t []⟩
  have hbind := ofNames_byJsonName (t.expandNested reg []) (by rwa [hsame]) hwell
  rwa [hsame] at hbind

end RecordSelection

/-! ### A record with marked fields that refers to itself -/

namespace Schema

/-- A folder, of which the name and the parent are selected by default. -/
def folder : Schema where
  stamp := 1
  name := "Folder"
  fields := [(Field.of "name" .string).marked, (Field.of "parent" (.ref "Folder")).marked,
    .of "size" .integer]

/-- A drive with a folder. -/
def drive : Schema where
  stamp := 2
  name := "Drive"
  fields := [.of "root" (.ref "Folder"), .of "label" .string]

/-- Every field of a folder is found by its serialized name. -/
theorem foundByJson_folder : folder.FoundByJson := by
  rintro (_ | _ | _ | i) f hf <;> cases hf
  · exact ⟨"name", rfl, rfl⟩
  · exact ⟨"parent", rfl, rfl⟩
  · exact ⟨"size", rfl, rfl⟩

/-- So is every field of a drive. -/
theorem foundByJson_drive : drive.FoundByJson := by
  rintro (_ | _ | i) f hf <;> cases hf
  · exact ⟨"root", rfl, rfl⟩
  · exact ⟨"label", rfl, rfl⟩

end Schema

/-- The registry of folders. -/
def Registry.ofFolder : Registry := ⟨Entries.nil.insert "Folder" Schema.folder⟩

/-- What holds of a folder and of a drive holds of all records below a drive. -/
theorem Schema.of_hasBelow_drive {P : Schema → Prop} (hfolder : P folder) (hdrive : P drive)
    {r : Schema} (h : Schema.HasBelow Registry.ofFolder drive r) : P r := by
  -- Only folders are registered, and all that is below a drive is one of the two.
  have hreg : Registry.ofFolder.Everywhere P := by
    intro name s hs
    rw [Registry.get?, Registry.ofFolder, Entries.get?_insert] at hs
    split at hs
    · cases hs
      exact ⟨hfolder, trivial, trivial, trivial, trivial⟩
    · cases hs
  exact Schema.Everywhere.of_hasBelow (s := drive) hreg ⟨hdrive, trivial, trivial, trivial⟩ h

/-- So it is with every record below a drive. -/
theorem Schema.foundByJson_of_hasBelow_drive {r : Schema}
    (h : Schema.HasBelow Registry.ofFolder Schema.drive r) : r.FoundByJson :=
  Schema.of_hasBelow_drive Schema.foundByJson_folder Schema.foundByJson_drive h

namespace RecordSelection

/-- The root of a drive, left open. -/
def rootOfDrive : RecordSelection := (empty Schema.drive).put 0 (some (undefined Schema.folder))

/-- The selection of the root fits its field. -/
theorem wellFormed_rootOfDrive : rootOfDrive.WellFormed Registry.ofFolder :=
  ⟨⟨_, rfl, rfl⟩, trivial, trivial⟩

/-- The parent of the parent of the root is selected with its name, but the size of the root is
    not, and so it is after the root has been spelt out by names. -/
theorem ofNames_toNames_rootOfDrive :
    ∃ t', ofNames Registry.ofFolder Schema.drive (rootOfDrive.toNames Registry.ofFolder) = .ok t' ∧
      t'.Includes Registry.ofFolder [0, 1, 1, 0] ∧ ¬ t'.Includes Registry.ofFolder [0, 2] := by
  obtain ⟨t', hbind, hincludes, -⟩ := ofNames_toNames wellFormed_rootOfDrive
    fun _ hr => Schema.foundByJson_of_hasBelow_drive hr
  refine ⟨t', hbind, (hincludes _).2 ?_, fun h => ?_⟩
  · exact ⟨rfl, .inr ⟨_, rfl, rfl, .inr ⟨_, rfl, rfl, .inr ⟨_, rfl, rfl, .inl rfl⟩⟩⟩⟩
  · obtain ⟨-, hnil | ⟨root, hroot, hsize, -⟩⟩ := (hincludes _).1 h
    · cases hnil
    · cases hroot
      cases hsize

end RecordSelection

end FieldMask
