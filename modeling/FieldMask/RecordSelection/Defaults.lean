import FieldMask.RecordSelection.Basic

/-!
# Expanding defaults

Selections that are left open are spelt out, field by field. A nested record without marked
fields stays open, since that already means all of its fields. A record that is being expanded
further out stays open as well, which is where records that contain themselves come to an end.

* `RecordSelection.expandWithin` expands a record, given those that are being expanded. It ends
  because a nested record is registered, of which there are finitely many, or is declared in
  place and so smaller than the record.
* `RecordSelection.expandDefaults` expands a record on its own.
* `RecordSelection.expandNested`: what is left open below the root of a selection.
-/

namespace FieldMask

/-- The registered records that are not on a list. -/
def Registry.recordsOutside (reg : Registry) (list : List Schema) : List Schema :=
  reg.records.values.filter (· ∉ list)

/-- The records outside of a longer list are those outside of the list, less the new one. -/
theorem Registry.recordsOutside_cons (reg : Registry) (record : Schema) (list : List Schema) :
    reg.recordsOutside (record :: list) = (reg.recordsOutside list).filter (· ≠ record) := by
  simp [recordsOutside, List.filter_filter]

/-- A longer list leaves no more records outside. -/
theorem Registry.length_recordsOutside_cons_le (reg : Registry) (record : Schema)
    (list : List Schema) :
    (reg.recordsOutside (record :: list)).length ≤ (reg.recordsOutside list).length := by
  rw [recordsOutside_cons]
  exact List.length_filter_le ..

/-- A registered record that is new to the list leaves one record fewer outside. -/
theorem Registry.length_recordsOutside_cons_lt {reg : Registry} {record : Schema}
    {list : List Schema} (registered : record ∈ reg.records.values) (new : record ∉ list) :
    (reg.recordsOutside (record :: list)).length < (reg.recordsOutside list).length := by
  rw [recordsOutside_cons]
  exact List.length_filter_lt_length_iff_exists.2
    ⟨record, by simp [recordsOutside, registered, new], by simp⟩

namespace RecordSelection

/-- The default fields of a record, named one by one, and in turn those of nested records with
    marked fields. Records on the list are being expanded already and stay open; the record itself
    is taken to be one of them. -/
def expandWithin (reg : Registry) (expanding : List Schema) (record : Schema) : RecordSelection :=
  defined record (Entries.ofList (record.defaultFields.attach.map fun ⟨(i, f), hf⟩ =>
    (i, match hn : f.record reg with
      | none => none
      | some nested =>
        have := Field.mem_values_or_sizeOf_lt (Schema.mem_fields_of_mem_defaultFields hf) hn
        if nested.hasMarkers ∧ nested ∉ expanding then
          some (expandWithin reg (nested :: expanding) nested)
        else some (undefined nested))))
-- Expanding a registered record leaves fewer of them, and any other nested record is smaller.
termination_by ((reg.recordsOutside expanding).length, sizeOf record)
decreasing_by
  rename_i new
  rcases this with registered | lt
  · exact .left _ _ (Registry.length_recordsOutside_cons_lt registered new.2)
  · exact .right' _ (reg.length_recordsOutside_cons_le nested expanding) lt

/-- One level of `expandWithin`. -/
theorem expandWithin_eq (reg : Registry) (expanding : List Schema) (record : Schema) :
    expandWithin reg expanding record =
      defined record (Entries.ofList (record.defaultFields.map fun (i, f) =>
        (i, (f.record reg).map fun nested =>
          if nested.hasMarkers ∧ nested ∉ expanding then
            expandWithin reg (nested :: expanding) nested
          else undefined nested))) := by
  rw [expandWithin]
  refine congrArg (fun fields => defined record (Entries.ofList fields))
    (Eq.trans (List.map_congr_left fun ⟨(i, f), hf⟩ _ => ?_) List.attach_map_val)
  simp only [Prod.mk.injEq, true_and]
  split <;> rename_i h <;> simp only [h, Option.map_none, Option.map_some]
  split <;> rfl

/-- The default fields of a record and of the nested records with marked fields, inside some
    records that are being expanded. -/
def expandInside (reg : Registry) (outer : List Schema) (record : Schema) : RecordSelection :=
  if record ∈ outer then undefined record else expandWithin reg (record :: outer) record

/-- The default fields of a record and of the nested records with marked fields. -/
def expandDefaults (reg : Registry) (record : Schema) : RecordSelection :=
  expandInside reg [] record

mutual

/-- The selection with what is left open below its root expanded, if the nested record has marked
    fields. -/
def expandNested (reg : Registry) (outer : List Schema) : RecordSelection → RecordSelection
  | undefined record => undefined record
  | defined record fields => defined record (expandEach reg (record :: outer) fields)
termination_by structural s => s

/-- The fields with what is left open in their selections expanded. -/
def expandEach {bound : Option Nat} (reg : Registry) (outer : List Schema) :
    Entries Nat (Option RecordSelection) bound → Entries Nat (Option RecordSelection) bound
  | .nil => .nil
  | .cons i none above rest => .cons i none above (expandEach reg outer rest)
  | .cons i (some child) above rest =>
    let expanded :=
      if child.isUndefined then
        if child.record.hasMarkers then expandInside reg outer child.record else child
      else child.expandNested reg outer
    .cons i (some expanded) above (expandEach reg outer rest)
termination_by structural es => es

end

end RecordSelection

end FieldMask
