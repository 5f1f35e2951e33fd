import FieldMask.Proofs.GenericData

/-!
# Plain copies

The value of a field without a nested record is projected to a plain copy. To make one, an array or
object is gone through only if a pointer is seen in it, and is shared otherwise; what looks for
pointers and what follows them are two recursions that stop at different places. Here the copy is
compared with the value in which every pointer is replaced by its target, at any depth, and pointers
are spoken of as values that occur within others. Neither recursion looks into records, so the two
agree on values without records; those are what such a field holds.

## Key results

- `induction_parts` / `holds_iff`: a value by way of the values that it is made of
- `not_holds_pointer_derefAll` / `derefAll_eq_self`: what is left once all pointers are followed
- `hasRef_iff`: without records, a pointer is seen exactly if one occurs
- `plain_exact`: without records, the plain copy is the value with all pointers followed
-/

namespace FieldMask.Value

/-! ## Values within a value -/

/-- The values that a value is made of. -/
def parts : Value → List Value
  | ref target => [target]
  | array items => items
  | object entries => entries.values
  | record _ values => values
  | _ => []

/-- What holds of a value if it holds of its parts holds of every value. -/
theorem induction_parts {motive : Value → Prop}
    (step : ∀ v : Value, (∀ part ∈ v.parts, motive part) → motive v) (v : Value) : motive v := by
  induction v using Value.induction with
  | null => exact step null nofun
  | bool b => exact step (bool b) nofun
  | number n => exact step (number n) nofun
  | string s => exact step (string s) nofun
  | array items ih => exact step (array items) ih
  | record schema values ih => exact step (record schema values) ih
  | object entries ih =>
    refine step (object entries) fun part hpart => ?_
    obtain ⟨p, hp, rfl⟩ := List.mem_map.1 hpart
    exact ih p hp
  | ref target ih =>
    refine step (ref target) fun part hpart => ?_
    cases List.mem_singleton.1 hpart
    exact ih

/-- The value with each of its parts changed. -/
def mapParts (change : Value → Value) : Value → Value
  | ref target => ref (change target)
  | array items => array (items.map change)
  | object entries => object (entries.mapValues change)
  | record schema values => record schema (values.map change)
  | v => v

/-- The parts of a changed value are the changed parts. -/
theorem parts_mapParts (change : Value → Value) (v : Value) :
    (v.mapParts change).parts = v.parts.map change := by
  cases v with
  | object entries => exact Entries.values_mapValues change entries
  | _ => rfl

/-- A value stays as it is if its parts do. -/
theorem mapParts_eq_self {change : Value → Value} {v : Value}
    (h : ∀ part ∈ v.parts, change part = part) : v.mapParts change = v := by
  cases v with
  | ref target => rw [mapParts, h target (List.mem_singleton_self target)]
  | array items => exact congrArg array (map_eq_self_iff.2 h)
  | record schema values => exact congrArg (record schema) (map_eq_self_iff.2 h)
  | object entries =>
    refine congrArg object (Entries.mapValues_eq_self_iff.2 fun p hp => ?_)
    exact h p.2 (List.mem_map_of_mem hp)
  | _ => rfl

/-- What is done to the parts is all that counts. -/
theorem mapParts_congr {change change' : Value → Value} {v : Value}
    (h : ∀ part ∈ v.parts, change part = change' part) :
    v.mapParts change = v.mapParts change' := by
  cases v with
  | ref target => rw [mapParts, mapParts, h target (List.mem_singleton_self target)]
  | array items => exact congrArg array (List.map_congr_left h)
  | record schema values => exact congrArg (record schema) (List.map_congr_left h)
  | object entries =>
    refine congrArg object (Entries.mapValues_congr fun p hp => ?_)
    exact h p.2 (List.mem_map_of_mem hp)
  | _ => rfl

/-- A value is another one, or occurs in a part of it. -/
inductive OccursIn (u : Value) : Value → Prop where
  | self : OccursIn u u
  | part {v w : Value} (mem : w ∈ v.parts) (within : OccursIn u w) : OccursIn u v

/-- The value is a record. -/
def IsRecord (v : Value) : Prop := ∃ schema values, v = record schema values

/-- The value is a pointer. -/
def IsPointer (v : Value) : Prop := ∃ target, v = ref target

/-- A value with a property occurs in a value. -/
def Holds (P : Value → Prop) (v : Value) : Prop := ∃ u, P u ∧ u.OccursIn v

section Holds

variable {P : Value → Prop} {v : Value}

/-- A property occurs in a value if the value has it, or if it occurs in a part. -/
theorem holds_iff : v.Holds P ↔ P v ∨ ∃ part ∈ v.parts, part.Holds P := by
  constructor
  · rintro ⟨u, hu, hin⟩
    cases hin with
    | self => exact .inl hu
    | part mem within => exact .inr ⟨_, mem, u, hu, within⟩
  · rintro (hv | ⟨part, hpart, u, hu, hin⟩)
    · exact ⟨v, hv, .self⟩
    · exact ⟨u, hu, .part hpart hin⟩

/-- What is nowhere in a value is nowhere in its parts. -/
theorem not_holds_part (h : ¬ v.Holds P) {part : Value} (hpart : part ∈ v.parts) :
    ¬ part.Holds P :=
  fun hp => h (holds_iff.2 (.inr ⟨part, hpart, hp⟩))

end Holds

/-- A record occurs in a record. -/
theorem holds_record_record (schema : Schema) (values : List Value) :
    (record schema values).Holds IsRecord :=
  ⟨record schema values, ⟨schema, values, rfl⟩, .self⟩

/-! ## All pointers followed -/

mutual

/-- The value with every pointer in it, at any depth, replaced by its target. -/
def derefAll : Value → Value
  | ref target => target.derefAll
  | array items => array (derefItems items)
  | object entries => object (derefEntries entries)
  | record schema values => record schema (derefItems values)
  | v => v
termination_by structural v => v

/-- The values with every pointer in them replaced by its target. -/
def derefItems : List Value → List Value
  | [] => []
  | v :: rest => v.derefAll :: derefItems rest
termination_by structural vs => vs

/-- The entries with every pointer in their values replaced by its target. -/
def derefEntries {bound : Option String} :
    Entries String Value bound → Entries String Value bound
  | .nil => .nil
  | .cons key v above rest => .cons key v.derefAll above (derefEntries rest)
termination_by structural es => es

end

/-- Pointers are followed in each item. -/
theorem derefItems_eq_map (l : List Value) : derefItems l = l.map derefAll := by
  induction l with
  | nil => rfl
  | cons v rest ih => rw [derefItems, ih, List.map_cons]

/-- Pointers are followed in each value of a map. -/
theorem derefEntries_eq_mapValues {bound : Option String} (m : Entries String Value bound) :
    derefEntries m = m.mapValues derefAll := by
  induction m with
  | nil => rfl
  | cons key v above rest ih => rw [derefEntries, ih, Entries.mapValues]

/-- Where there is no pointer at first, pointers are followed in the parts. -/
theorem derefAll_eq {v : Value} (h : ¬ v.IsPointer) : v.derefAll = v.mapParts derefAll := by
  cases v with
  | ref target => exact absurd ⟨target, rfl⟩ h
  | array items => rw [derefAll, derefItems_eq_map, mapParts]
  | record schema values => rw [derefAll, derefItems_eq_map, mapParts]
  | object entries => rw [derefAll, derefEntries_eq_mapValues, mapParts]
  | _ => rfl

/-- Changing the parts makes no pointer of a value, and of a pointer nothing else. -/
theorem isPointer_mapParts_iff {change : Value → Value} {v : Value} :
    (v.mapParts change).IsPointer ↔ v.IsPointer := by
  cases v <;> simp [mapParts, IsPointer]

/-- There is no pointer left. -/
theorem not_holds_pointer_derefAll (v : Value) : ¬ v.derefAll.Holds IsPointer := by
  induction v using induction_parts with
  | step v ih =>
    by_cases hv : v.IsPointer
    · obtain ⟨target, rfl⟩ := hv
      exact ih target (List.mem_singleton_self target)
    -- The value is of the same kind as before, so a pointer could only be in one of its parts.
    · rw [derefAll_eq hv, holds_iff, isPointer_mapParts_iff, parts_mapParts]
      rintro (hself | ⟨part, hpart, hin⟩)
      · exact hv hself
      · obtain ⟨u, hu, rfl⟩ := List.mem_map.1 hpart
        exact ih u hu hin

/-- A value without pointers stays as it is. -/
theorem derefAll_eq_self {v : Value} (h : ¬ v.Holds IsPointer) : v.derefAll = v := by
  induction v using induction_parts with
  | step v ih =>
    have hv : ¬ v.IsPointer := fun hv => h (holds_iff.2 (.inl hv))
    rw [derefAll_eq hv]
    exact mapParts_eq_self fun part hpart => ih part hpart (not_holds_part h hpart)

/-! ## What is seen of a value without records -/

/-- There is no record in items if there is none in any of them. -/
theorem recordInItems?_eq_none_iff {l : List Value} :
    recordInItems? l = none ↔ ∀ v ∈ l, v.recordIn? = none := by
  induction l with
  | nil => simp [recordInItems?]
  | cons v rest ih => rw [recordInItems?_cons_eq_none, ih, List.forall_mem_cons]

/-- There is no record in a map if there is none in any of its values. -/
theorem recordInEntries?_eq_none_iff {bound : Option String} {m : Entries String Value bound} :
    recordInEntries? m = none ↔ ∀ v ∈ m.values, v.recordIn? = none := by
  induction m with
  | nil => simp [recordInEntries?, Entries.values]
  | cons key v above rest ih =>
    rw [recordInEntries?_cons_eq_none, ih, Entries.values_cons, List.forall_mem_cons]

/-- A record is found in a value exactly if one occurs in it. -/
theorem recordIn?_eq_none_iff {v : Value} : v.recordIn? = none ↔ ¬ v.Holds IsRecord := by
  induction v using induction_parts with
  | step v ih =>
    -- One step of the search, whatever the shape of the value.
    have hstep : v.recordIn? = none ↔ ¬ v.IsRecord ∧ ∀ part ∈ v.parts, part.recordIn? = none := by
      cases v with
      | array items => simp [recordIn?, recordInItems?_eq_none_iff, IsRecord, parts]
      | object entries => simp [recordIn?, recordInEntries?_eq_none_iff, IsRecord, parts]
      | _ => simp [recordIn?, IsRecord, parts]
    rw [hstep, holds_iff, not_or, not_exists]
    refine and_congr_right fun _ => forall_congr' fun part => ?_
    rw [not_and]
    exact forall_congr' fun hpart => ih part hpart

/-- A pointer is seen in items if it is seen in one of them. -/
theorem anyHasRef_iff {l : List Value} : anyHasRef l = true ↔ ∃ v ∈ l, v.hasRef = true := by
  induction l with
  | nil => simp [anyHasRef]
  | cons v rest ih => rw [anyHasRef, Bool.or_eq_true, ih, List.exists_mem_cons_iff]

/-- A pointer is seen in a map if it is seen in one of its values. -/
theorem anyEntryHasRef_iff {bound : Option String} {m : Entries String Value bound} :
    anyEntryHasRef m = true ↔ ∃ v ∈ m.values, v.hasRef = true := by
  induction m with
  | nil => simp [anyEntryHasRef, Entries.values]
  | cons key v above rest ih =>
    rw [anyEntryHasRef, Bool.or_eq_true, ih, Entries.values_cons, List.exists_mem_cons_iff]

/-- Where there is no record, a pointer is seen exactly if one occurs. -/
theorem hasRef_iff {v : Value} (h : ¬ v.Holds IsRecord) :
    v.hasRef = true ↔ v.Holds IsPointer := by
  induction v using induction_parts with
  | step v ih =>
    have hstep : v.hasRef = true ↔ v.IsPointer ∨ ∃ part ∈ v.parts, part.hasRef = true := by
      cases v with
      | array items => simp [hasRef, anyHasRef_iff, IsPointer, parts]
      | object entries => simp [hasRef, anyEntryHasRef_iff, IsPointer, parts]
      -- Pointers within a record would not be seen.
      | record schema values => exact absurd (holds_record_record schema values) h
      | _ => simp [hasRef, IsPointer, parts]
    rw [hstep, holds_iff]
    refine or_congr_right (exists_congr fun part => and_congr_right fun hpart => ?_)
    exact ih part hpart (not_holds_part h hpart)

/-! ## The plain copy -/

/-- Each item is copied. -/
theorem plainItems_eq_map (l : List Value) : plainItems l = l.map plain := by
  induction l with
  | nil => rfl
  | cons v rest ih => rw [plainItems, ih, List.map_cons]

/-- Each value of a map is copied. -/
theorem plainEntries_eq_mapValues {bound : Option String} (m : Entries String Value bound) :
    plainEntries m = m.mapValues plain := by
  induction m with
  | nil => rfl
  | cons key v above rest ih => rw [plainEntries, ih, Entries.mapValues]

/-- A value in which no pointer is seen is taken as it is. -/
theorem plain_eq_self_of_hasRef {v : Value} (h : v.hasRef = false) : v.plain = v := by
  cases v with
  | ref target => cases h
  | array items =>
    rw [hasRef] at h
    rw [plain, if_neg (Bool.eq_false_iff.1 h)]
  | object entries =>
    rw [hasRef] at h
    rw [plain, if_neg (Bool.eq_false_iff.1 h)]
  | _ => rfl

/-- A value that is no pointer, but in which one is seen, is made of plain copies. -/
theorem plain_eq_of_hasRef {v : Value} (hv : ¬ v.IsPointer) (h : v.hasRef = true) :
    v.plain = v.mapParts plain := by
  cases v with
  | ref target => exact absurd ⟨target, rfl⟩ hv
  | array items =>
    rw [hasRef] at h
    rw [plain, if_pos h, plainItems_eq_map, mapParts]
  | object entries =>
    rw [hasRef] at h
    rw [plain, if_pos h, plainEntries_eq_mapValues, mapParts]
  | _ => cases h

/-- Without records, the plain copy is the value with all pointers followed. -/
theorem plain_eq_derefAll {v : Value} (h : ¬ v.Holds IsRecord) : v.plain = v.derefAll := by
  induction v using induction_parts with
  | step v ih =>
    have hparts : ∀ part ∈ v.parts, part.plain = part.derefAll := fun part hpart =>
      ih part hpart (not_holds_part h hpart)
    by_cases hv : v.IsPointer
    · obtain ⟨target, rfl⟩ := hv
      exact hparts target (List.mem_singleton_self target)
    -- A pointer that is seen makes a copy of the parts; otherwise the value is shared.
    · cases hr : v.hasRef with
      | true => rw [plain_eq_of_hasRef hv hr, derefAll_eq hv, mapParts_congr hparts]
      | false =>
        -- What is shared has no pointer in it, so that there is none to follow.
        have hnone : ¬ v.Holds IsPointer := by
          rw [← hasRef_iff h, hr]
          exact Bool.false_ne_true
        rw [plain_eq_self_of_hasRef hr, derefAll_eq_self hnone]

/-- The plain copy of a value without records is the value with every pointer in it replaced by its
    target. No pointer occurs in it, it is the value itself exactly if none occurs there, and it has
    something to show exactly if the value has. -/
theorem plain_exact {v : Value} (h : ¬ v.Holds IsRecord) :
    v.plain = v.derefAll ∧ ¬ v.plain.Holds IsPointer ∧
      (v.plain = v ↔ ¬ v.Holds IsPointer) ∧ v.plain.isHollow = v.isHollow := by
  have hplain := plain_eq_derefAll h
  refine ⟨hplain, ?_, ⟨?_, ?_⟩, isHollow_plain v⟩
  · rw [hplain]
    exact not_holds_pointer_derefAll v
  -- A copy has no pointer in it, so a value that is its own copy has none either.
  · intro hself
    rw [← hself, hplain]
    exact not_holds_pointer_derefAll v
  · intro hnone
    rw [hplain]
    exact derefAll_eq_self hnone

/-- Pointers to pointers, within an object, beside an array without any. -/
def pointedTo : Value :=
  array [ref (object (Entries.nil.insert "a" (ref (ref null)))), array [bool true, string ""]]

/-- Such a value is copied without its pointers. -/
theorem plain_exact_pointedTo :
    (pointedTo.plain =
        array [object (Entries.nil.insert "a" null), array [bool true, string ""]] ∧
      pointedTo.Holds IsPointer) ∧
    pointedTo.plain = pointedTo.derefAll ∧ ¬ pointedTo.plain.Holds IsPointer ∧
      (pointedTo.plain = pointedTo ↔ ¬ pointedTo.Holds IsPointer) ∧
        pointedTo.plain.isHollow = pointedTo.isHollow := by
  have hrecord : ¬ pointedTo.Holds IsRecord := recordIn?_eq_none_iff.1 rfl
  exact ⟨⟨rfl, (hasRef_iff hrecord).1 rfl⟩, plain_exact hrecord⟩

end FieldMask.Value
