import FieldMask.Proofs.IncludedPaths
import FieldMask.Proofs.NamingRoundTrip

/-!
# Adding and removing fields

Fields are added and removed one after the other. On the way a selection that is left open may have
to be spelt out: from then on what it selects is what it names, and no longer what is marked. This
is done at the first field that is not selected yet, or at the first that is selected, wherever it
stands, and whether a field is selected does not depend on it.

So the changes are described by what is selected of a field, `selectedAt`, of which only the one at
the index that is changed becomes another one. To change a field again changes nothing more.

## Key results

- `selectedAt_addMissing_one` / `selectedAt_removeOne`: what one change does
- `selectedAt_foldFields`: what a list of changes does, if one change does so
- `foldFields_eq_self`: changes that change nothing
- `addExcluded_remove_exact`: union and difference
-/

namespace FieldMask.RecordSelection

variable {reg : Registry} {s t : RecordSelection} {i j : Nat} {f : Field}

/-! ## What is selected of a field -/

/-- A field is selected if something is selected of it. -/
theorem hasIndex_eq_isSome_selectedAt (reg : Registry) (s : RecordSelection) (i : Nat) :
    s.hasIndex i = (s.selectedAt reg i).isSome := by
  unfold selectedAt
  cases s.hasIndex i <;> rfl

/-- Of a selected field something is selected. -/
theorem exists_selectedAt (reg : Registry) (hi : s.hasIndex i = true) :
    ∃ child, s.selectedAt reg i = some child :=
  ⟨_, if_pos hi⟩

/-- What is selected of a selected field is its selection. -/
theorem fieldSelection_of_selectedAt {child : Option RecordSelection}
    (h : s.selectedAt reg i = some child) : s.fieldSelection reg i = .ok child := by
  obtain ⟨f, hf, -, hchild⟩ := selectedAt_eq_some_iff.1 h
  rw [fieldSelection_eq hf, hchild]

/-! ## One change -/

/-- A field in full is added to what is selected, if nothing is. -/
def orFull (reg : Registry) (f : Field) (found : Option (Option RecordSelection)) :
    Option (Option RecordSelection) :=
  found.or (some (fullChild reg f))

/-- A field that is selected stays as it is. -/
theorem addMissing_one_of_hasIndex (hi : s.hasIndex i = true) : s.addMissing reg [(i, f)] = s := by
  rw [addMissing_cons, if_pos hi]
  rfl

/-- Adding a field changes nothing but the field, and that only if it was not selected. -/
theorem selectedAt_addMissing_one (hs : s.WellFormed reg) (hf : s.record.fields[i]? = some f)
    (j : Nat) : (s.addMissing reg [(i, f)]).selectedAt reg j =
      if i = j then orFull reg f (s.selectedAt reg j) else s.selectedAt reg j := by
  -- A field that is selected already is not added again.
  by_cases hi : s.hasIndex i = true
  · obtain ⟨child, hchild⟩ := exists_selectedAt reg hi
    rw [addMissing_one_of_hasIndex hi]
    split
    · rename_i hij
      rw [← hij, hchild]
      rfl
    · rfl
  · have hnone : s.selectedAt reg i = none := if_neg hi
    have hadded : s.addMissing reg [(i, f)] = (s.ensureDefined reg).put i (fullChild reg f) := by
      rw [addMissing_cons, if_neg hi]
      rfl
    -- From here on what is selected is what is named, which before was so of `ensureDefined` only.
    have hwell := (addMissing_one_isOf s i f hs hf).2
    rw [hadded] at hwell ⊢
    rw [selectedAt_of_defined hwell rfl, explicit?_put, ← selectedAt_eq hs]
    split
    · rename_i hij
      rw [← hij, hnone]
      rfl
    · rfl

/-- Removing a field changes nothing but the field. -/
theorem selectedAt_removeOne (hs : s.WellFormed reg) (hf : s.record.fields[i]? = some f) (j : Nat) :
    (removeOne reg s i f).selectedAt reg j = if i = j then none else s.selectedAt reg j := by
  -- What is left is well-formed in either case, so that it can be read off at each field.
  have hwell := (removeOne_isOf s i f hs hf).2
  rw [removeOne] at hwell ⊢
  by_cases hi : s.hasIndex i = true
  · rw [if_pos hi] at hwell ⊢
    rw [selectedAt_of_defined hwell rfl, explicit?_erase, ← selectedAt_eq hs]
  · rw [if_neg hi]
    split
    · rename_i hij
      rw [← hij]
      exact if_neg hi
    · rfl

/-! ## A list of changes -/

section Changes

variable {change : RecordSelection → Nat → Field → RecordSelection}
  (keeps : ∀ s i f, s.WellFormed reg → s.record.fields[i]? = some f →
    IsOf reg s.record (change s i f))
  (effect : Field → Option (Option RecordSelection) → Option (Option RecordSelection))
  (step : ∀ {s i f}, s.WellFormed reg → s.record.fields[i]? = some f → ∀ j,
    (change s i f).selectedAt reg j =
      if i = j then effect f (s.selectedAt reg j) else s.selectedAt reg j)
  (again : ∀ f found, effect f (effect f found) = effect f found)

/-- The first change is made first. -/
theorem foldFields_cons_eq_ok_iff {indices : List Nat} :
    foldFields change s (i :: indices) = .ok t ↔
      ∃ f, s.record.fields[i]? = some f ∧ foldFields change (change s i f) indices = .ok t := by
  show ((s.record.fieldAt i >>= fun f => pure (change s i f)) >>= fun s' =>
    foldFields change s' indices) = .ok t ↔ _
  rw [bind_eq_ok_iff]
  constructor
  · rintro ⟨s', hs', ht⟩
    obtain ⟨f, hf, heq⟩ := bind_eq_ok_iff.1 hs'
    cases heq
    exact ⟨f, Schema.fieldAt_eq_ok_iff.1 hf, ht⟩
  · rintro ⟨f, hf, ht⟩
    refine ⟨change s i f, ?_, ht⟩
    rw [Schema.fieldAt_eq_ok_iff.2 hf]
    rfl

include keeps step again in
/-- The fields at the indices of a list are changed, each as if it were the only one and once. -/
theorem selectedAt_foldFields {indices : List Nat} (hs : s.WellFormed reg)
    (h : foldFields change s indices = .ok t) (j : Nat) :
    t.selectedAt reg j =
      if j ∈ indices then s.record.fields[j]?.bind fun f => effect f (s.selectedAt reg j)
      else s.selectedAt reg j := by
  -- By induction on the indices, with the selection after the first change.
  induction indices generalizing s with
  | nil =>
    cases h
    rfl
  | cons i rest ih =>
    obtain ⟨f, hf, hrest⟩ := foldFields_cons_eq_ok_iff.1 h
    obtain ⟨hrecord, hwell⟩ := keeps s i f hs hf
    rw [ih hwell hrest, hrecord, step hs hf j]
    by_cases hij : i = j
    · subst hij
      -- Whether the field is changed again or not, it is changed.
      simp only [hf, Option.bind_some, if_true, again, ite_self, List.mem_cons_self]
    · have hmem : j ∈ i :: rest ↔ j ∈ rest := by
        -- The other index is one of the list exactly if it is one of the rest.
        rw [List.mem_cons, or_iff_right (Ne.symm hij)]
      simp only [if_neg hij, hmem]

/-- If none of the changes changes the selection, all of them do not. -/
theorem foldFields_eq_self {indices : List Nat}
    (hsame : ∀ i ∈ indices, ∀ f, s.record.fields[i]? = some f → change s i f = s)
    (h : foldFields change s indices = .ok t) : t = s := by
  -- By induction on the indices: the first change leaves the selection, and so do the others.
  induction indices with
  | nil =>
    cases h
    rfl
  | cons i rest ih =>
    obtain ⟨f, hf, hrest⟩ := foldFields_cons_eq_ok_iff.1 h
    rw [hsame i List.mem_cons_self f hf] at hrest
    exact ih (fun j hj => hsame j (List.mem_cons_of_mem i hj)) hrest

end Changes

/-! ## Union and difference -/

/-- What is selected after fields have been added, field by field. -/
theorem selectedAt_addExcluded {indices : List Nat} (hs : s.WellFormed reg)
    (h : s.addExcluded reg indices = .ok t) (i : Nat) :
    t.selectedAt reg i =
      if i ∈ indices then s.record.fields[i]?.bind fun f => orFull reg f (s.selectedAt reg i)
      else s.selectedAt reg i :=
  selectedAt_foldFields addMissing_one_isOf (orFull reg) selectedAt_addMissing_one
    (fun f found => by cases found <;> rfl) hs h i

/-- What is selected after fields have been removed, field by field. -/
theorem selectedAt_remove {indices : List Nat} (hs : s.WellFormed reg)
    (h : s.remove reg indices = .ok t) (i : Nat) :
    t.selectedAt reg i = if i ∈ indices then none else s.selectedAt reg i := by
  rw [selectedAt_foldFields removeOne_isOf (fun _ _ => none) selectedAt_removeOne
    (fun _ _ => rfl) hs h i, Option.bind_fun_none]

/-- The fields of a list are added to a selection, in full where they were not selected before. -/
structure AddsFields (reg : Registry) (s : RecordSelection) (indices : List Nat)
    (t : RecordSelection) : Prop where
  isOf : IsOf reg s.record t
  selects : ∀ i, t.hasIndex i = true ↔ s.hasIndex i = true ∨ i ∈ indices
  kept : ∀ i, s.hasIndex i = true → t.fieldSelection reg i = s.fieldSelection reg i
  added : ∀ i ∈ indices, s.hasIndex i = false → ∃ f, s.record.fields[i]? = some f ∧
    t.fieldSelection reg i = .ok (fullChild reg f)
  same : (∀ i ∈ indices, s.hasIndex i = true) → t = s

/-- The fields of a list are taken away from a selection. -/
structure RemovesFields (reg : Registry) (s : RecordSelection) (indices : List Nat)
    (t : RecordSelection) : Prop where
  isOf : IsOf reg s.record t
  selects : ∀ i, t.hasIndex i = true ↔ s.hasIndex i = true ∧ i ∉ indices
  kept : ∀ i, t.hasIndex i = true → t.fieldSelection reg i = s.fieldSelection reg i
  same : (∀ i ∈ indices, s.hasIndex i = false) → t = s

/-- Fields that are added to a well-formed selection are added as `AddsFields` says. -/
theorem addsFields_addExcluded {indices : List Nat} (hs : s.WellFormed reg)
    (hindices : ∀ i ∈ indices, i < s.record.fields.length)
    (h : s.addExcluded reg indices = .ok t) : AddsFields reg s indices t := by
  -- The index of a field that is added is that of a field; at other indices nothing changes.
  have hselected : ∀ i ∈ indices, ∃ f, s.record.fields[i]? = some f ∧
      t.selectedAt reg i = orFull reg f (s.selectedAt reg i) := by
    intro i hi
    have hf := List.getElem?_eq_getElem (hindices i hi)
    refine ⟨_, hf, ?_⟩
    rw [selectedAt_addExcluded hs h, if_pos hi, hf, Option.bind_some]
  have hothers : ∀ i, i ∉ indices → t.selectedAt reg i = s.selectedAt reg i := fun i hi => by
    rw [selectedAt_addExcluded hs h, if_neg hi]
  refine ⟨foldFields_keeps addMissing_one_isOf hs h, fun i => ?_, fun i hi => ?_,
    fun i hi hnew => ?_, fun hall => ?_⟩
  · rw [hasIndex_eq_isSome_selectedAt reg, hasIndex_eq_isSome_selectedAt reg]
    by_cases hi : i ∈ indices
    · obtain ⟨f, -, hfound⟩ := hselected i hi
      simp [hi, hfound, orFull]
    · simp [hi, hothers i hi]
  -- A field that was selected has its selection still, whether it is in the list or not.
  · obtain ⟨child, hchild⟩ := exists_selectedAt reg hi
    have hkept : t.selectedAt reg i = some child := by
      by_cases hmem : i ∈ indices
      · obtain ⟨f, -, hfound⟩ := hselected i hmem
        rw [hfound, hchild]
        rfl
      · rw [hothers i hmem, hchild]
    rw [fieldSelection_of_selectedAt hchild, fieldSelection_of_selectedAt hkept]
  · obtain ⟨f, hf, hfound⟩ := hselected i hi
    have hnone : s.selectedAt reg i = none := if_neg (by simp [hnew])
    rw [hnone] at hfound
    exact ⟨f, hf, fieldSelection_of_selectedAt hfound⟩
  · exact foldFields_eq_self (fun i hi f _ => addMissing_one_of_hasIndex (hall i hi)) h

/-- Fields that are removed from a well-formed selection are removed as `RemovesFields` says. -/
theorem removesFields_remove {indices : List Nat} (hs : s.WellFormed reg)
    (h : s.remove reg indices = .ok t) : RemovesFields reg s indices t := by
  have hselected := selectedAt_remove hs h
  refine ⟨foldFields_keeps removeOne_isOf hs h, fun i => ?_, fun i hi => ?_, fun hnone => ?_⟩
  · rw [hasIndex_eq_isSome_selectedAt reg, hasIndex_eq_isSome_selectedAt reg, hselected]
    split <;> simp [*]
  -- What is still selected was not in the list, so it is selected as before.
  · obtain ⟨child, hchild⟩ := exists_selectedAt reg hi
    have hkept := hchild
    rw [hselected] at hkept
    split at hkept
    · cases hkept
    · rw [fieldSelection_of_selectedAt hchild, fieldSelection_of_selectedAt hkept]
  · rw [remove_eq] at h
    refine foldFields_eq_self (fun i hi f _ => ?_) h
    rw [removeOne, if_neg (by simp [hnone i hi])]

/-- Adding fields that are not selected and removing fields are union and difference: just what is
    asked for is selected in the end, and of each field that was selected and still is, the same. -/
theorem addExcluded_remove_exact {indices : List Nat} (hs : s.WellFormed reg)
    (hindices : ∀ i ∈ indices, i < s.record.fields.length) :
    (∃ t, s.addExcluded reg indices = .ok t ∧ AddsFields reg s indices t) ∧
      ∃ t, s.remove reg indices = .ok t ∧ RemovesFields reg s indices t := by
  obtain ⟨t, ht⟩ := foldFields_total addMissing_one_isOf hs hindices
  obtain ⟨u, hu⟩ := foldFields_total removeOne_isOf hs hindices
  exact ⟨⟨t, ht, addsFields_addExcluded hs hindices ht⟩, u, hu, removesFields_remove hs hu⟩

/-- An open selection of a folder selects its name and its parent, which are marked, and not its
    size. With the size added the parent is selected still, and without the name it is so as
    before. -/
theorem addExcluded_remove_exact_folder :
    (∃ t, (undefined Schema.folder).addExcluded Registry.ofFolder [2, 0, 2] = .ok t ∧
      t.hasIndex 1 = true ∧ t.fieldSelection Registry.ofFolder 2 = .ok none) ∧
    ∃ t, (undefined Schema.folder).remove Registry.ofFolder [2, 0, 2] = .ok t ∧
      t.hasIndex 0 = false ∧
      t.fieldSelection Registry.ofFolder 1 = .ok (some (undefined Schema.folder)) := by
  obtain ⟨⟨t, ht, hadds⟩, u, hu, hremoves⟩ :=
    @addExcluded_remove_exact Registry.ofFolder (undefined Schema.folder) [2, 0, 2] trivial
      (by decide)
  refine ⟨⟨t, ht, (hadds.selects 1).2 (.inl rfl), ?_⟩, u, hu, ?_, ?_⟩
  · obtain ⟨f, hf, hsize⟩ := hadds.added 2 (by decide) rfl
    cases hf
    exact hsize
  · exact Bool.eq_false_iff.2 fun h => absurd ((hremoves.selects 0).1 h).2 (by decide)
  · exact hremoves.kept 1 ((hremoves.selects 1).2 ⟨rfl, by decide⟩)

end FieldMask.RecordSelection
