import FieldMask.Proofs.BindingPaths
import FieldMask.Proofs.FieldwiseAlgebra
import FieldMask.Proofs.ProjectionMonotone

/-!
# Selected paths, one step at a time

A path of indices is selected if its first field is, and if it goes on in what is selected of that
field. A path that is named goes the same way through what is named. So both are said by one
predicate on what a selection has for a field: nothing, no selection for a field without a nested
record, where a path has to end, or a selection to go on in.

What a selection selects of a field is what it names of it once its default fields are named. With
this a selection that is left open stops being a case of its own.

## Key results

- `selectedAt_eq`: what is selected of a field is what is named of it, default fields included
- `includes_cons_iff` / `namesPath_cons_iff`: the first step of a path
- `NamesPath.includes`: what is named is selected
-/

namespace FieldMask.RecordSelection

variable {reg : Registry} {s : RecordSelection} {i : Nat} {rest path : List Nat}

/-- A path that has come to a field goes on in the selection of the field, with what `P` says about
    the two. It ends at a field without a nested record. -/
def GoesOn (P : RecordSelection → List Nat → Prop) :
    Option (Option RecordSelection) → List Nat → Prop
  | none, _ => False
  | some none, rest => rest = []
  | some (some c), rest => P c rest

/-- A path goes on only from a field that is there. -/
theorem GoesOn.exists_eq_some {P : RecordSelection → List Nat → Prop}
    {found : Option (Option RecordSelection)} (h : GoesOn P found rest) :
    ∃ child, found = some child := by
  cases found with
  | none => exact h.elim
  | some child => exact ⟨child, rfl⟩

/-! ## What is selected of a field -/

/-- What is selected of a field is the selection of the field, where the field is selected. -/
theorem selectedAt_eq_some_iff {child : Option RecordSelection} :
    s.selectedAt reg i = some child ↔
      ∃ f, s.record.fields[i]? = some f ∧ s.hasIndex i = true ∧ s.selectionOf reg i f = child := by
  unfold selectedAt
  by_cases hi : s.hasIndex i = true
  -- An index that is selected is that of a field.
  · obtain ⟨f, hf⟩ := exists_field_of_hasIndex hi
    simp [hi, hf]
  · simp [hi]

/-- An open selection selects its default fields. -/
theorem hasIndex_undefined_iff {record : Schema} :
    (undefined record).hasIndex i = true ↔ ∃ f, (i, f) ∈ record.defaultFields := by
  constructor
  · intro hi
    obtain ⟨f, hf⟩ := exists_field_of_hasIndex hi
    have hindex : (undefined record).hasIndex i = record.isDefault f := hasIndex_undefined hf
    exact ⟨f, Schema.mem_defaultFields_iff.2 ⟨hf, hindex ▸ hi⟩⟩
  · intro h
    obtain ⟨f, hmem⟩ := h
    obtain ⟨hf, hdefault⟩ := Schema.mem_defaultFields_iff.1 hmem
    have hindex : (undefined record).hasIndex i = record.isDefault f := hasIndex_undefined hf
    rw [hindex, hdefault]

/-- An open selection names its default fields in full once they are named, and nothing else. -/
theorem explicit?_ensureDefined_undefined_iff {record : Schema} {child : Option RecordSelection} :
    ((undefined record).ensureDefined reg).explicit? i = some child ↔
      ∃ f, (i, f) ∈ record.defaultFields ∧ fullChild reg f = child := by
  constructor
  · intro h
    -- The entries come from the list of default fields, each of them in full.
    obtain ⟨⟨j, f⟩, hf, heq⟩ := List.mem_map.1 (Entries.mem_of_get?_ofList h)
    cases heq
    exact ⟨f, hf, rfl⟩
  · intro h
    obtain ⟨f, hf, hchild⟩ := h
    exact hchild ▸ explicit?_ensureDefined_undefined hf

/-- What is selected of a field is what is named of it once the default fields are named. -/
theorem selectedAt_eq (hs : s.WellFormed reg) (i : Nat) :
    s.selectedAt reg i = (s.ensureDefined reg).explicit? i := by
  apply Option.ext
  intro child
  rw [selectedAt_eq_some_iff]
  cases s with
  | undefined record =>
    -- Both sides ask for a default field, selected in full.
    rw [explicit?_ensureDefined_undefined_iff]
    apply exists_congr
    intro f
    rw [Schema.mem_defaultFields_iff, and_assoc]
    apply and_congr_right
    intro hf
    have hindex : (undefined record).hasIndex i = record.isDefault f := hasIndex_undefined hf
    rw [hindex]
    rfl
  | defined record fields =>
    show _ ↔ (defined record fields).explicit? i = some child
    constructor
    -- A defined selection selects what it names, so its own entry is what counts.
    · intro h
      obtain ⟨f, hf, hi, hchild⟩ := h
      rw [hasIndex_of_isUndefined_eq_false rfl hf] at hi
      obtain ⟨c, hc⟩ := Option.isSome_iff_exists.1 hi
      rw [← hchild, selectionOf, hc, Option.getD_some]
    · intro hchild
      -- A well-formed selection names no index but those of fields.
      obtain ⟨f, hf, -⟩ := (hs.fits hchild).suits
      refine ⟨f, hf, ?_, by rw [selectionOf, hchild, Option.getD_some]⟩
      rw [hasIndex_of_isUndefined_eq_false rfl hf, hchild]
      rfl

/-- A defined selection selects of a field what it names of it. -/
theorem selectedAt_of_defined (hs : s.WellFormed reg) (hdefined : s.isUndefined = false) (i : Nat) :
    s.selectedAt reg i = s.explicit? i := by
  rw [selectedAt_eq hs]
  cases s with
  | undefined record => cases hdefined
  | defined record fields => rfl

/-- What is selected of a field fits the field. -/
theorem WellFormed.fits_selectedAt (hs : s.WellFormed reg) {child : Option RecordSelection}
    (h : s.selectedAt reg i = some child) : Fits reg s.record i child := by
  rw [selectedAt_eq hs] at h
  have hfits := hs.ensureDefined.fits h
  rwa [record_ensureDefined] at hfits

/-- Of what fits a field, either all are selections of one record, or all are none. -/
theorem Fits.eq_some {record : Schema} {c : RecordSelection} {child : Option RecordSelection}
    (h : Fits reg record i (some c)) (hchild : Fits reg record i child) :
    ∃ d, child = some d ∧ d.record = c.record := by
  -- Both have the record of one field, or both have none.
  obtain ⟨f, hf, hr⟩ := h.suits
  obtain ⟨g, hg, hchild⟩ := hchild.suits
  cases hf.symm.trans hg
  obtain ⟨d, hd, hrecord⟩ := Option.map_eq_some_iff.1 (hchild.trans hr.symm)
  exact ⟨d, hd, hrecord⟩

/-! ## One step of a path -/

/-- A path is selected if its first field is, and if it goes on in what is selected of the field. -/
theorem includes_cons_iff :
    s.Includes reg (i :: rest) ↔ GoesOn (Includes reg) (s.selectedAt reg i) rest := by
  rw [Includes]
  by_cases hi : s.hasIndex i = true
  · obtain ⟨f, hf⟩ := exists_field_of_hasIndex hi
    rw [selectedAt_eq_some_iff.2 ⟨f, hf, hi, rfl⟩, fieldSelection_eq hf]
    cases s.selectionOf reg i f with
    | none => simp [hi, GoesOn]
    -- At the end of the path nothing more is asked of the nested selection.
    | some c => cases rest <;> simp [hi, GoesOn, Includes]
  · simp [hi, selectedAt, GoesOn]

/-- A path is named if its first field is, and if it goes on in what the field is named with. -/
theorem namesPath_cons_iff : s.NamesPath (i :: rest) ↔ GoesOn NamesPath (s.explicit? i) rest := by
  rw [NamesPath]
  rcases s.explicit? i with _ | _ | c
  · simp [GoesOn]
  · simp [GoesOn]
  · cases rest <;> simp [GoesOn, NamesPath]

/-- What is named is selected. -/
theorem NamesPath.includes (hs : s.WellFormed reg) (h : s.NamesPath path) :
    s.Includes reg path := by
  induction path generalizing s with
  | nil => trivial
  | cons i rest ih =>
    rw [namesPath_cons_iff] at h
    -- By induction on the path: the field is named, and so it is selected with the same selection.
    obtain ⟨child, hchild⟩ := h.exists_eq_some
    rw [includes_cons_iff, selectedAt_eq hs, explicit?_ensureDefined_of_explicit? hchild]
    rw [hchild] at h
    cases child with
    | none => exact h
    | some c => exact ih (hs.fits hchild).child h

end FieldMask.RecordSelection
