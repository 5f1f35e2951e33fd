import FieldMask.Proofs.Containment
import FieldMask.Proofs.ExcludedLeaves

/-!
# Putting selections by name together

Assigning one selection by name to another names what either of them names. At a field that both
name, a selection that is left open gives way to the other one, so what is put together there does
not select what either selects. This is `merge`: the open selection adds nothing to others, and the
fields of two defined selections are put together one by one. It has the laws of a union, level by
level.

At the root a selection that is left open stays open if nothing is assigned to it. This is the only
difference between assigning and merging, and what is named is the same.

## Key results

- `merge_comm` / `merge_assoc` / `merge_self`: the laws of merging
- `assign_eq_merge`: assigning is merging, unless nothing is assigned to an open selection
- `namesPath_assign`: what is named by either selection
- `assign_union`: the laws of assigning
-/

namespace FieldMask.NameSelection

variable {s o : NameSelection} {fields others : OrderedMap String NameSelection} {name : String}
  {path : List String}

/-! ## Merging -/

@[simp] theorem merge_undefined (s : NameSelection) : s.merge undefined = s := rfl

@[simp] theorem undefined_merge (s : NameSelection) : undefined.merge s = s := by
  cases s <;> rfl

/-- Two defined selections are merged field by field. -/
theorem merge_defined (fields others : OrderedMap String NameSelection) :
    (defined fields).merge (defined others) = defined (assignFields fields others) := rfl

@[simp] theorem assignAt_none_left (other : Option NameSelection) :
    assignAt none other = other := by
  cases other <;> rfl

@[simp] theorem assignAt_none_right (current : Option NameSelection) :
    assignAt current none = current := by
  cases current <;> rfl

/-- The fields of what is merged are those of both. -/
theorem field?_merge (s o : NameSelection) (name : String) :
    (s.merge o).field? name = assignAt (s.field? name) (o.field? name) := by
  have hopen : undefined.field? name = none := rfl
  -- What is left open has no fields, so at each name only one of the two counts.
  cases o with
  | undefined => rw [merge_undefined, hopen, assignAt_none_right]
  | defined others =>
    cases s with
    | undefined => rw [undefined_merge, hopen, assignAt_none_left]
    | defined fields => exact get?_assignFields fields others name

/-- Merging does not depend on the order. -/
theorem merge_comm (s o : NameSelection) : s.merge o = o.merge s := by
  induction s using induction generalizing o with
  | undefined => simp
  | defined fields ih =>
    cases o with
    | undefined => simp
    | defined others =>
      -- Two maps are the same if they give the same under each name.
      rw [merge_defined, merge_defined]
      apply congrArg
      apply Entries.ext_get?
      intro name
      rw [get?_assignFields, get?_assignFields]
      cases hfield : fields.get? name with
      | none => rw [assignAt_none_left, assignAt_none_right]
      | some c =>
        cases others.get? name with
        | none => rfl
        | some d => simp only [assignAt, ih name c hfield d]

/-- Merging does not depend on the grouping. -/
theorem merge_assoc (s o p : NameSelection) : (s.merge o).merge p = s.merge (o.merge p) := by
  induction s using induction generalizing o p with
  | undefined => simp
  | defined fields ih =>
    cases o with
    | undefined => simp
    | defined others =>
      cases p with
      | undefined => simp
      | defined more =>
        -- Once all three are defined, the maps are compared name by name.
        rw [merge_defined, merge_defined, merge_defined, merge_defined]
        apply congrArg
        apply Entries.ext_get?
        intro name
        simp only [get?_assignFields]
        -- Where one of the three does not name the field, only two are merged.
        cases hfield : fields.get? name with
        | none => rw [assignAt_none_left, assignAt_none_left]
        | some c =>
          cases others.get? name with
          | none => rw [assignAt_none_right, assignAt_none_left]
          | some d =>
            cases more.get? name with
            | none => rfl
            | some e => simp only [assignAt, ih name c hfield d e]

/-- Merging a selection with itself gives the selection. -/
theorem merge_self (s : NameSelection) : s.merge s = s := by
  induction s using induction with
  | undefined => rfl
  | defined fields ih =>
    rw [merge_defined]
    apply congrArg
    apply Entries.ext_get?
    intro name
    rw [get?_assignFields]
    cases hfield : fields.get? name with
    | none => rfl
    | some c => simp only [assignAt, ih name c hfield]

/-- What is merged is named by either selection. -/
theorem namesPath_merge : (s.merge o).NamesPath path ↔ s.NamesPath path ∨ o.NamesPath path := by
  -- By induction on the path: a name that both have is looked up below in what is merged there.
  induction path generalizing s o with
  | nil => simp [NamesPath]
  | cons name rest ih =>
    simp only [NamesPath, field?_merge]
    cases s.field? name with
    | none => cases o.field? name <;> simp [assignAt]
    | some c =>
      cases o.field? name with
      | none => simp [assignAt]
      | some d => simpa [assignAt] using ih

/-! ## Assigning -/

/-- Assigning is merging, unless nothing is assigned to a selection that is left open. -/
theorem assign_eq_merge (h : s.isUndefined = false ∨ o.isEmpty = false) :
    s.assign o = s.merge o := by
  cases o with
  | undefined => rw [assign, merge_undefined]
  | defined others =>
    cases s with
    | defined fields => rfl
    | undefined =>
      have hsome : others.isEmpty = false := h.resolve_left (by simp [isUndefined])
      simp [assign, hsome]

/-- A selection that is left open stays open if nothing is assigned to it. -/
theorem undefined_assign_of_isEmpty (ho : o.isEmpty = true) : undefined.assign o = undefined := by
  cases o with
  | undefined => cases ho
  | defined others =>
    have hempty : others.isEmpty = true := ho
    simp [assign, hempty]

/-- Assigning and merging name the same fields. -/
theorem fields_assign (s o : NameSelection) : (s.assign o).fields = (s.merge o).fields := by
  by_cases h : s.isUndefined = false ∨ o.isEmpty = false
  · rw [assign_eq_merge h]
  -- What is left is an open selection to which nothing is assigned: neither names a field.
  · simp only [not_or, Bool.not_eq_false] at h
    obtain ⟨hopen, hempty⟩ := h
    cases s with
    | defined fields => cases hopen
    | undefined =>
      cases o with
      | undefined => cases hempty
      | defined others =>
        rw [undefined_assign_of_isEmpty hempty, undefined_merge]
        exact (Entries.isEmpty_iff.1 hempty).symm

/-- Assigning names what either of the two selections names. -/
theorem namesPath_assign : (s.assign o).NamesPath path ↔ s.NamesPath path ∨ o.NamesPath path := by
  rw [← namesPath_merge]
  cases path with
  | nil => simp only [NamesPath]
  | cons name rest => simp only [NamesPath, field?, fields_assign]

/-- A selection that names a field is not empty. -/
theorem isEmpty_of_field? {child : NameSelection} (h : s.field? name = some child) :
    s.isEmpty = false := by
  cases s with
  | undefined => rfl
  | defined fields =>
    cases fields with
    | nil => cases h
    | cons name child above rest => rfl

/-- A selection that is not empty is not after others have been assigned to it. -/
theorem isEmpty_assign (hs : s.isEmpty = false) : (s.assign o).isEmpty = false := by
  -- An open selection becomes what is assigned, unless that is empty.
  cases s with
  | undefined =>
    cases hempty : o.isEmpty with
    | true => rw [undefined_assign_of_isEmpty hempty, hs]
    | false => rw [assign_eq_merge (.inr hempty), undefined_merge, hempty]
  | defined fields =>
    cases fields with
    | nil => cases hs
    | cons name child above rest =>
      -- The first name stays one of the names.
      have hnamed : ((defined (.cons name child above rest)).assign o).NamesPath [name] :=
        namesPath_assign.2 (.inl ⟨child, Entries.get?_cons_self .., trivial⟩)
      obtain ⟨found, hfound, -⟩ := hnamed
      exact isEmpty_of_field? hfound

/-- Merging with a defined selection gives a defined one. -/
theorem isUndefined_merge (hs : s.isUndefined = false) : (s.merge o).isUndefined = false := by
  cases s with
  | undefined => cases hs
  | defined fields => cases o <;> rfl

/-- The empty selection adds nothing to a defined one. -/
theorem merge_of_isEmpty (hs : s.isUndefined = false) (ho : o.isEmpty = true) : s.merge o = s := by
  cases s with
  | undefined => cases hs
  | defined fields =>
    cases o with
    | undefined => cases ho
    | defined others =>
      have hnil : others = .nil := Entries.isEmpty_iff.1 ho
      rw [hnil]
      rfl

/-- Assigning is associative. An open selection that nothing is assigned to stays open whether the
    other two are put together first or not. -/
theorem assign_assoc (s o p : NameSelection) : (s.assign o).assign p = s.assign (o.assign p) := by
  -- The first selection decides: if it is defined, all assignments are merges.
  cases hs : s.isUndefined with
  | false =>
    rw [assign_eq_merge (.inl hs), assign_eq_merge (.inl (isUndefined_merge hs)),
      assign_eq_merge (.inl hs)]
    by_cases h : o.isUndefined = false ∨ p.isEmpty = false
    · rw [assign_eq_merge h, merge_assoc]
    -- The second one stays open here, since nothing is assigned to it.
    · simp only [not_or, Bool.not_eq_false] at h
      obtain ⟨hopen, hempty⟩ := h
      cases o with
      | defined others => cases hopen
      | undefined =>
        rw [undefined_assign_of_isEmpty hempty, merge_undefined, merge_of_isEmpty hs hempty]
  | true =>
    cases s with
    | defined fields => cases hs
    | undefined =>
      -- Nothing is assigned to an open selection at first, so it stays open, and what follows
      -- depends on the third one.
      cases ho : o.isEmpty with
      | false =>
        rw [assign_eq_merge (.inr ho), assign_eq_merge (.inr (isEmpty_assign ho)), undefined_merge,
          undefined_merge]
      | true =>
        have hdefined : o.isUndefined = false := by
          cases o with
          | undefined => cases ho
          | defined others => rfl
        rw [undefined_assign_of_isEmpty ho]
        cases hp : p.isUndefined with
        | false => rw [assign_eq_merge (.inl hdefined), merge_comm, merge_of_isEmpty hp ho]
        | true =>
          cases p with
          | defined more => cases hp
          | undefined => rw [assign, assign, undefined_assign_of_isEmpty ho]

/-- Assigning a selection to itself gives the selection. -/
theorem assign_self (s : NameSelection) : s.assign s = s := by
  cases s with
  | undefined => rw [assign]
  | defined fields => rw [assign_eq_merge (.inl rfl), merge_self]

/-- Assigning is the deep union of what two selections name. So what is assigned contains both of
    them, assigning is idempotent and associative, and an open selection adds nothing. Defined
    selections are assigned to each other in any order. -/
theorem assign_union :
    (∀ (s o : NameSelection) (path : List String),
      (s.assign o).NamesPath path ↔ s.NamesPath path ∨ o.NamesPath path) ∧
    (∀ s o : NameSelection, (s.assign o).contains s = true ∧ (s.assign o).contains o = true) ∧
    (∀ s : NameSelection, s.assign s = s) ∧
    (∀ s o p : NameSelection, (s.assign o).assign p = s.assign (o.assign p)) ∧
    (∀ s o : NameSelection, s.isUndefined = false → o.isUndefined = false →
      s.assign o = o.assign s) ∧
    ∀ s : NameSelection, s.assign undefined = s := by
  refine ⟨fun _ _ _ => namesPath_assign, ?_, assign_self, assign_assoc, ?_, ?_⟩
  · intro s o
    -- A selection is contained as soon as the paths that it names are.
    constructor
    · rw [contains_iff]
      intro path hpath
      exact (namesPath_assign.2 (.inl hpath)).hasPath
    · rw [contains_iff]
      intro path hpath
      exact (namesPath_assign.2 (.inr hpath)).hasPath
  · intro s o hs ho
    rw [assign_eq_merge (.inl hs), assign_eq_merge (.inl ho), merge_comm]
  · intro s
    rw [assign]

/-- The last name of an author is among what is selected of a book, and may be assigned before the
    rest. -/
theorem assign_union_titleAndAuthor : lastOfAuthor.assign titleAndAuthor = titleAndAuthor := by
  obtain ⟨-, -, -, -, hcomm, -⟩ := assign_union
  rw [hcomm lastOfAuthor titleAndAuthor rfl rfl]
  rfl

end FieldMask.NameSelection
