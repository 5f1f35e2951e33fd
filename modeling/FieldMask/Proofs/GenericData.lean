import FieldMask.Projection
import FieldMask.Proofs.MapOfList
import FieldMask.Proofs.ValueTyping

/-!
# Generic data

Generic data has no record and no pointer in it, at any depth: it is what JSON can say. A value
without records becomes generic when its pointers are followed.

## Key results

- `HasType.recordIn?_eq_none`: a value of a type without a nested record has no record in it
- `generic_plain`: without records, the value with its pointers followed is generic
- `isHollow_plain`: it has something to show if the value has
-/

namespace FieldMask.Value

variable {reg : Registry}

mutual

/-- There is no record and no pointer in a value, at any depth. -/
def Generic : Value → Prop
  | null | bool _ | number _ | string _ => True
  | array items => AllGeneric items
  | object entries => EntriesGeneric entries
  | record _ _ | ref _ => False
termination_by structural v => v

/-- There is no record and no pointer in any of the values. -/
def AllGeneric : List Value → Prop
  | [] => True
  | v :: rest => v.Generic ∧ AllGeneric rest
termination_by structural vs => vs

/-- There is no record and no pointer in any value of a map. -/
def EntriesGeneric {bound : Option String} : Entries String Value bound → Prop
  | .nil => True
  | .cons _ v _ rest => v.Generic ∧ EntriesGeneric rest
termination_by structural es => es

end

/-- A map is generic if every value that it has is. -/
theorem entriesGeneric_iff {bound : Option String} {m : Entries String Value bound} :
    EntriesGeneric m ↔ ∀ key v, m.get? key = some v → v.Generic := by
  rw [← Entries.forall_mem_toList_iff (P := fun _ => Generic)]
  induction m with
  | nil => simp [EntriesGeneric]
  | cons key v above rest ih => simp [EntriesGeneric, ih]

/-- One more generic value keeps a map generic. -/
theorem EntriesGeneric.insert {m : OrderedMap String Value} {v : Value} (hm : EntriesGeneric m)
    (hv : v.Generic) (name : String) : EntriesGeneric (m.insert name v) := by
  refine entriesGeneric_iff.2 fun key w hget => ?_
  rw [Entries.get?_insert] at hget
  -- A key finds the new value, or what it found before.
  split at hget
  · cases hget
    exact hv
  · exact entriesGeneric_iff.1 hm key w hget

/-- Adding a projected field keeps an object generic. -/
theorem EntriesGeneric.addProjected {m : OrderedMap String Value} {v : Value}
    (hm : EntriesGeneric m) (hv : v.Generic) (named : Bool) (name : String) :
    EntriesGeneric (addProjected named name v m) := by
  rw [Value.addProjected]
  split
  · split
    · exact hm.insert (v := null) trivial name
    · exact hm
  · exact hm.insert hv name

/-! ## Following pointers -/

mutual

/-- A value of a type without a nested record, and without `any` in it, has no record in it. -/
theorem HasType.recordIn?_eq_none : ∀ {v : Value} {t : FieldType}, v.HasType reg t →
    t.holdsAny = false → t.recordOf reg = none → v.recordIn? = none
  | .null, _, _, _, _ => rfl
  | .bool _, _, _, _, _ => rfl
  | .number _, _, _, _, _ => rfl
  | .string _, _, _, _, _ => rfl
  | .ref target, _, h, hany, hr => HasType.recordIn?_eq_none (v := target) h hany hr
  | .array items, _, h, hany, hr => by
    obtain ⟨u, hu, hitems⟩ := h
    obtain ⟨hrecord, huany⟩ := FieldType.recordOf_items reg hany hu
    exact ItemsHaveType.recordIn?_eq_none (l := items) hitems huany (hrecord.trans hr)
  | .object entries, _, h, hany, hr => by
    obtain ⟨u, hu, hentries⟩ := h
    obtain ⟨hrecord, huany⟩ := FieldType.recordOf_values reg hany hu
    exact EntriesHaveType.recordIn?_eq_none (m := entries) hentries huany (hrecord.trans hr)
  | .record s _, _, h, hany, hr => by
    -- A record has the type `any` or one with a nested record, and both are excluded.
    obtain ⟨rfl | ⟨pointer, htarget⟩, -⟩ := h
    · cases hany
    · rw [FieldType.recordOf_eq_some_of_target htarget] at hr
      cases hr
termination_by structural v => v

/-- Items of a type without a nested record have none in them. -/
theorem ItemsHaveType.recordIn?_eq_none : ∀ {l : List Value} {t : FieldType},
    ItemsHaveType reg l t → t.holdsAny = false → t.recordOf reg = none → recordInItems? l = none
  | [], _, _, _, _ => rfl
  | v :: rest, _, h, hany, hr => by
    rw [recordInItems?, HasType.recordIn?_eq_none (v := v) h.1 hany hr]
    exact ItemsHaveType.recordIn?_eq_none (l := rest) h.2 hany hr
termination_by structural l => l

/-- Values of a type without a nested record have none in them. -/
theorem EntriesHaveType.recordIn?_eq_none {bound : Option String} :
    ∀ {m : Entries String Value bound} {t : FieldType}, EntriesHaveType reg m t →
      t.holdsAny = false → t.recordOf reg = none → recordInEntries? m = none
  | .nil, _, _, _, _ => rfl
  | .cons _ v _ rest, _, h, hany, hr => by
    rw [recordInEntries?, HasType.recordIn?_eq_none (v := v) h.1 hany hr]
    exact EntriesHaveType.recordIn?_eq_none (m := rest) h.2 hany hr
termination_by structural m => m

end

/-- There is no record in items if there is none in the first and none in those behind it. -/
theorem recordInItems?_cons_eq_none {v : Value} {rest : List Value} :
    recordInItems? (v :: rest) = none ↔ v.recordIn? = none ∧ recordInItems? rest = none := by
  simp [recordInItems?]

/-- There is no record in a map if there is none in its first value and none in those behind it. -/
theorem recordInEntries?_cons_eq_none {bound : Option String} {key : String} {v : Value}
    {above : ∀ b ∈ bound, b < key} {rest : Entries String Value (some key)} :
    recordInEntries? (.cons key v above rest) = none ↔
      v.recordIn? = none ∧ recordInEntries? rest = none := by
  simp [recordInEntries?]

mutual

/-- Without records and pointers a value is generic. -/
theorem generic_of_hasRef : ∀ {v : Value}, v.recordIn? = none → v.hasRef = false → v.Generic
  | .null, _, _ => trivial
  | .bool _, _, _ => trivial
  | .number _, _, _ => trivial
  | .string _, _, _ => trivial
  | .ref _, _, h => nomatch h
  | .record _ _, h, _ => nomatch h
  | .array items, hrecord, hr => allGeneric_of_anyHasRef (l := items) hrecord hr
  | .object entries, hrecord, hr => entriesGeneric_of_anyHasRef (m := entries) hrecord hr
termination_by structural v => v

/-- Items without records and pointers are generic. -/
theorem allGeneric_of_anyHasRef : ∀ {l : List Value}, recordInItems? l = none →
    anyHasRef l = false → AllGeneric l
  | [], _, _ => trivial
  | v :: rest, hrecord, hr => by
    obtain ⟨hv, hrest⟩ := recordInItems?_cons_eq_none.1 hrecord
    obtain ⟨hvr, hrestr⟩ := Bool.or_eq_false_iff.1 hr
    exact ⟨generic_of_hasRef hv hvr, allGeneric_of_anyHasRef hrest hrestr⟩
termination_by structural l => l

/-- Values of a map without records and pointers are generic. -/
theorem entriesGeneric_of_anyHasRef {bound : Option String} :
    ∀ {m : Entries String Value bound}, recordInEntries? m = none →
      anyEntryHasRef m = false → EntriesGeneric m
  | .nil, _, _ => trivial
  | .cons _ v _ rest, hrecord, hr => by
    obtain ⟨hv, hrest⟩ := recordInEntries?_cons_eq_none.1 hrecord
    obtain ⟨hvr, hrestr⟩ := Bool.or_eq_false_iff.1 hr
    exact ⟨generic_of_hasRef hv hvr, entriesGeneric_of_anyHasRef hrest hrestr⟩
termination_by structural m => m

end

mutual

/-- A value without records becomes generic when its pointers are followed. -/
theorem generic_plain : ∀ {v : Value}, v.recordIn? = none → v.plain.Generic
  | .null, _ => trivial
  | .bool _, _ => trivial
  | .number _, _ => trivial
  | .string _, _ => trivial
  | .ref target, h => generic_plain (v := target) h
  | .record _ _, h => nomatch h
  | .array items, h => by
    rw [plain]
    split
    · exact allGeneric_plainItems (l := items) h
    · -- The array is taken as it is: there is no pointer in it.
      rename_i hr
      exact allGeneric_of_anyHasRef (l := items) h (Bool.eq_false_iff.2 hr)
  | .object entries, h => by
    rw [plain]
    split
    · exact entriesGeneric_plainEntries (m := entries) h
    -- So is the object.
    · rename_i hr
      exact entriesGeneric_of_anyHasRef (m := entries) h (Bool.eq_false_iff.2 hr)
termination_by structural v => v

/-- Items without records become generic when their pointers are followed. -/
theorem allGeneric_plainItems : ∀ {l : List Value}, recordInItems? l = none →
    AllGeneric (plainItems l)
  | [], _ => trivial
  | v :: rest, h => by
    obtain ⟨hv, hrest⟩ := recordInItems?_cons_eq_none.1 h
    exact ⟨generic_plain hv, allGeneric_plainItems hrest⟩
termination_by structural l => l

/-- Values without records become generic when their pointers are followed. -/
theorem entriesGeneric_plainEntries {bound : Option String} :
    ∀ {m : Entries String Value bound}, recordInEntries? m = none →
      EntriesGeneric (plainEntries m)
  | .nil, _ => trivial
  | .cons _ v _ rest, h => by
    obtain ⟨hv, hrest⟩ := recordInEntries?_cons_eq_none.1 h
    exact ⟨generic_plain hv, entriesGeneric_plainEntries hrest⟩
termination_by structural m => m

end

mutual

/-- Following pointers does not change whether there is something to show. -/
theorem isHollow_plain : ∀ v : Value, v.plain.isHollow = v.isHollow
  | .null => rfl
  | .bool _ => rfl
  | .number _ => rfl
  | .string _ => rfl
  | .record _ _ => rfl
  | .ref target => isHollow_plain target
  | .array items => by
    -- Where there is no pointer, nothing is followed and the array is as before.
    rw [plain]
    split
    · exact allHollow_plainItems items
    · rfl
  | .object entries => by
    rw [plain]
    split
    · exact allHollowEntries_plainEntries entries
    · rfl
termination_by structural v => v

/-- Nor whether there is in any of the items. -/
theorem allHollow_plainItems : ∀ l : List Value, allHollow (plainItems l) = allHollow l
  | [] => rfl
  | v :: rest => by
    rw [plainItems, allHollow, isHollow_plain v, allHollow_plainItems rest, allHollow]
termination_by structural l => l

/-- Nor whether there is in any value of a map. -/
theorem allHollowEntries_plainEntries {bound : Option String} :
    ∀ m : Entries String Value bound, allHollowEntries (plainEntries m) = allHollowEntries m
  | .nil => rfl
  | .cons _ v _ rest => by
    rw [plainEntries, allHollowEntries, isHollow_plain v, allHollowEntries_plainEntries rest,
      allHollowEntries]
termination_by structural m => m

end

end FieldMask.Value
