import FieldMask.Proofs.Containment
import FieldMask.Proofs.NamingRoundTrip
import FieldMask.Proofs.RecordClashes

/-!
# Assigning to a selection of a record

Assigning a defined selection names what either of the two selections names. At a field that both
name, a selection that is left open gives way to the other one. It names no path of its own, so that
no path is lost. At the root a selection that is left open names nothing either, whatever its
default fields are.

A selection that is left open is assigned in another way. It asks for the default fields of the
record, and those that are not named yet are named in full.

Assigning to a single field goes its own way, without a selection of the record around what is
assigned. It comes to the same.

## Key results

- `namesPath_assign`: what is named after a defined selection has been assigned
- `explicit?_assign_undefined_iff`: the fields that an open selection adds
- `assignToField_eq_assign`: assigning to a field is assigning a selection of the field alone
- `assign_exact`: what is assigned is contained, and what was named is kept
-/

namespace FieldMask.RecordSelection

variable {reg : Registry} {s o t : RecordSelection} {i : Nat} {rest path : List Nat}
  {child : Option RecordSelection}

/-- A selection that is open is the open one of its record. -/
theorem eq_undefined_of_isUndefined (h : s.isUndefined = true) : s = undefined s.record := by
  cases s with
  | defined record fields => cases h
  | undefined record => rfl

/-- An open selection names no field. -/
theorem namesPath_of_isUndefined (ho : o.isUndefined = true) : o.NamesPath path ↔ path = [] := by
  rw [eq_undefined_of_isUndefined ho]
  cases path with
  | nil => exact iff_of_true trivial rfl
  | cons i rest =>
    have hnone : (undefined o.record).explicit? i = none := rfl
    simp [NamesPath, hnone]

/-- Every selection names the path without fields. -/
theorem namesPath_of_eq_nil (s : RecordSelection) (h : path = []) : s.NamesPath path := by
  rw [h]
  trivial

/-! ## Assigning a defined selection -/

/-- Two selections of a field, put together, name what either of them names. -/
theorem namesPath_merge {c d u : RecordSelection} (h : c.merge reg d = .ok u)
    (ih : d.isUndefined = false → c.assign reg d = .ok u →
      (u.NamesPath path ↔ c.NamesPath path ∨ d.NamesPath path)) :
    u.NamesPath path ↔ c.NamesPath path ∨ d.NamesPath path := by
  rw [merge] at h
  split at h
  · -- What is left open names nothing, so that the other one stands for both.
    rename_i hopen
    cases h
    rw [namesPath_of_isUndefined hopen]
    exact (or_iff_left_of_imp (namesPath_of_eq_nil c)).symm
  · rename_i hdefined
    -- An open receiver is replaced, and names nothing itself.
    split at h
    · rename_i hopen
      cases h
      rw [namesPath_of_isUndefined hopen]
      exact (or_iff_right_of_imp (namesPath_of_eq_nil d)).symm
    · exact ih (Bool.eq_false_iff.2 hdefined) h

/-- At a field, the paths go on that go on in either selection. -/
theorem goesOn_assignAt_iff {left right found : Option (Option RecordSelection)}
    (h : assignAt reg left right = .ok found)
    (ih : ∀ c d u : RecordSelection, d.isUndefined = false → c.assign reg d = .ok u →
      (u.NamesPath rest ↔ c.NamesPath rest ∨ d.NamesPath rest)) :
    GoesOn NamesPath found rest ↔ GoesOn NamesPath left rest ∨ GoesOn NamesPath right rest := by
  rcases right with _ | _ | d
  -- The other selection does not name the field, so the receiver keeps it.
  · rw [assignAt_none_right] at h
    cases h
    exact (or_iff_left id).symm
  · -- The field is named without a selection, which is a path that ends there.
    rcases left with _ | _ | c <;> cases h
    · exact (or_iff_right id).symm
    · exact or_self_iff.symm
    · exact (or_iff_left_of_imp (namesPath_of_eq_nil c)).symm
  · rcases left with _ | _ | c
    -- The field is named by the other selection only, which then stands for both.
    · cases h
      exact (or_iff_right id).symm
    · cases h
      exact (or_iff_right_of_imp (namesPath_of_eq_nil d)).symm
    · obtain ⟨u, hu, h⟩ := bind_eq_ok_iff.1 h
      cases h
      exact namesPath_merge hu (ih c d u)

/-- Once a defined selection has been assigned, what either of the two selections names is named. -/
theorem namesPath_assign (ho : o.isUndefined = false) (h : s.assign reg o = .ok t) :
    t.NamesPath path ↔ s.NamesPath path ∨ o.NamesPath path := by
  -- By induction on the path: what is merged at its first field is looked up along the rest.
  induction path generalizing s o t with
  | nil => exact iff_of_true trivial (.inl trivial)
  | cons i rest ih =>
    cases o with
    | undefined record => cases ho
    | defined record others =>
      obtain ⟨merged, ht, hmerged⟩ := assign_defined_eq_ok h
      subst ht
      rw [namesPath_cons_iff, namesPath_cons_iff, namesPath_cons_iff]
      apply goesOn_assignAt_iff (hmerged i)
      intro c d u hd hu
      exact ih hd hu

/-- What has been assigned to is defined, if what has been assigned is. -/
theorem isUndefined_assign (ho : o.isUndefined = false) (h : s.assign reg o = .ok t) :
    t.isUndefined = false := by
  cases o with
  | undefined record => cases ho
  | defined record others =>
    obtain ⟨merged, ht, -⟩ := assign_defined_eq_ok h
    rw [ht]
    rfl

/-! ## Assigning an open selection -/

/-- A defined selection stays defined when fields are added to it. -/
theorem isUndefined_addMissing (hs : s.isUndefined = false) (fields : List (Nat × Field)) :
    (s.addMissing reg fields).isUndefined = false := by
  induction fields generalizing s with
  | nil => exact hs
  | cons p rest ih =>
    obtain ⟨j, f⟩ := p
    rw [addMissing_cons]
    -- The first field is added or not; in both cases the selection stays defined.
    apply ih
    split
    · exact hs
    · rfl

/-- Fields that are added to a defined selection are named in full, unless they are named. -/
theorem explicit?_addMissing_iff (hs : s.isUndefined = false) {fields : List (Nat × Field)}
    (hfields : ∀ j f, (j, f) ∈ fields → s.record.fields[j]? = some f) :
    (s.addMissing reg fields).explicit? i = some child ↔ s.explicit? i = some child ∨
      s.explicit? i = none ∧ ∃ f, (i, f) ∈ fields ∧ fullChild reg f = child := by
  -- By induction on the fields that are added, with the selection that has the first one already.
  induction fields generalizing s with
  | nil =>
    show s.explicit? i = some child ↔ _
    simp
  | cons p rest ih =>
    obtain ⟨j, f⟩ := p
    have hf : s.record.fields[j]? = some f := hfields j f List.mem_cons_self
    have hrest : ∀ k g, (k, g) ∈ rest → s.record.fields[k]? = some g := by
      intro k g hg
      exact hfields k g (List.mem_cons_of_mem _ hg)
    have hensured : s.ensureDefined reg = s := by
      cases s with
      | undefined record => cases hs
      | defined record entries => rfl
    rw [addMissing_cons, hasIndex_of_isUndefined_eq_false hs hf, hensured]
    cases hj : s.explicit? j with
    | some found =>
      -- The field is named, so that it is not one of those that are added.
      rw [Option.isSome_some, if_pos rfl, ih hs hrest]
      apply or_congr_right
      apply and_congr_right
      intro hnone
      have hne : i ≠ j := by
        intro hij
        rw [← hij, hnone] at hj
        cases hj
      simp [hne]
    | none =>
      have hput : (s.put j (fullChild reg f)).isUndefined = false := rfl
      rw [Option.isSome_none, if_neg Bool.false_ne_true, ih hput hrest, explicit?_put]
      by_cases hij : j = i
      · subst hij
        simp only [if_pos, hj, Option.some.injEq, reduceCtorEq, false_and, or_false, false_or,
          true_and, List.mem_cons, Prod.mk.injEq]
        constructor
        -- The index is that of the field added now, so no later one with this index adds anything.
        · intro hchild
          exact ⟨f, .inl rfl, hchild⟩
        · intro h
          obtain ⟨g, hg, hchild⟩ := h
          -- There is one field at the index.
          have heq : g = f := by
            rcases hg with hg | hg
            · exact hg
            · exact Option.some.inj ((hrest j g hg).symm.trans hf)
          rw [← heq, hchild]
      · have hne : ¬ i = j := fun h => hij h.symm
        simp [hij, hne]

/-- An open selection adds to a defined one the default fields that are not named, in full. -/
theorem explicit?_assign_undefined_iff (hs : s.isUndefined = false)
    (h : s.assign reg (undefined s.record) = .ok t) :
    t.record = s.record ∧ t.isUndefined = false ∧ ∀ i child, t.explicit? i = some child ↔
      s.explicit? i = some child ∨ s.explicit? i = none ∧
        ∃ f, (i, f) ∈ s.record.defaultFields ∧ fullChild reg f = child := by
  cases s with
  | undefined record => cases hs
  | defined record fields =>
    -- The operands are of one record, so what is left is the fold that adds the default fields.
    obtain ⟨-, -, h⟩ := bind_eq_ok_iff.1 h
    cases h
    refine ⟨record_addMissing _ _, isUndefined_addMissing rfl _, ?_⟩
    intro i child
    apply explicit?_addMissing_iff rfl
    intro j f hf
    exact (Schema.mem_defaultFields_iff.1 hf).1

/-- An open selection that an open one is assigned to stays as it is. -/
theorem assign_undefined_of_isUndefined (hs : s.isUndefined = true)
    (h : s.assign reg (undefined s.record) = .ok t) : t = undefined s.record := by
  rw [eq_undefined_of_isUndefined hs] at h
  obtain ⟨-, -, h⟩ := bind_eq_ok_iff.1 h
  cases h
  rfl

/-! ## Assigning to a field -/

/-- A field that is bound to no selection has no nested record. -/
theorem record_of_bind_none {f : Field} {query : Query} (h : f.bind reg query = .ok none) :
    f.record reg = none := by
  rw [Field.bind, within_eq_ok_iff] at h
  -- A field with a nested record is always bound to a selection, so it has none.
  cases hr : f.record reg with
  | none => rfl
  | some r =>
    simp only [hr] at h
    obtain ⟨c, -, h⟩ := bind_eq_ok_iff.1 h
    cases h

/-- A field that has no nested record is not named with a selection. -/
theorem explicit?_ne_some_some (hs : s.WellFormed reg) {f : Field}
    (hf : s.record.fields[i]? = some f) (hr : f.record reg = none) (c : RecordSelection) :
    s.explicit? i ≠ some (some c) := by
  intro hc
  obtain ⟨g, hg, hrecord⟩ := (hs.fits hc).suits
  rw [hf] at hg
  cases hg
  rw [hr] at hrecord
  cases hrecord

/-- Naming a field with the selection that it has changes nothing. -/
theorem put_explicit? (h : s.explicit? i = some child) :
    s.put i child = defined s.record s.entries := by
  apply congrArg (defined s.record)
  -- Both sides give the same at every index.
  apply Entries.ext_get?
  intro j
  rw [Entries.get?_insert]
  split
  · rename_i hij
    rw [← hij]
    exact h.symm
  · rfl

/-- A selection of a field alone is assigned by adding it to what the field has. -/
theorem assign_put_empty (hchild : child = none → ∀ c, s.explicit? i ≠ some (some c)) :
    s.assign reg ((empty s.record).put i child) = (do
      let merged ← mergeField reg (s.explicit? i) child
      return s.put i merged) := by
  have halone : (empty s.record).put i child =
      defined s.record (.cons i child (by simp) .nil) := rfl
  have hsame : s.sameRecord (defined s.record (.cons i child (by simp) .nil)) = .ok () :=
    sameRecord_eq rfl
  rw [halone, assign, hsame]
  cases child with
  | none =>
    -- Without a selection for the field, merging gives none either, as no selection is there.
    have hmerge : mergeField reg (s.explicit? i) none = .ok none := by
      rcases s.explicit? i with _ | _ | c <;> rfl
    rw [hmerge]
    rcases hget : s.explicit? i with _ | _ | c
    · have hfree : s.entries.get? i = none := hget
      simp only [assignEach, hfree]
      rfl
    · -- The field is named in this way already.
      have hnamed : s.entries.get? i = some none := hget
      simp only [assignEach, hnamed]
      exact congrArg Except.ok (put_explicit? hget).symm
    · exact absurd hget (hchild rfl c)
  | some d =>
    rcases hget : s.explicit? i with _ | _ | c
    · have hfree : s.entries.get? i = none := hget
      simp only [assignEach, hfree]
      rfl
    · have hnamed : s.entries.get? i = some none := hget
      simp only [assignEach, hnamed]
      rfl
    · have hnamed : s.entries.get? i = some (some c) := hget
      -- Both go through the same three cases: either selection may be open, else both are assigned.
      simp only [assignEach, hnamed, mergeField, merge]
      split
      · rfl
      · split
        · rfl
        · cases c.assign reg d <;> rfl

/-- Assigning to a field is assigning a selection of the field alone. -/
theorem assignToField_eq_assign (hs : s.WellFormed reg) {f : Field}
    (hf : s.record.fields[i]? = some f) {query : Query} (h : f.bind reg query = .ok child) :
    s.assignToField reg i query =
      (liftM (s.assign reg ((empty s.record).put i child)) : Except Failure RecordSelection) := by
  have hfield : s.record.fieldAt i = .ok f := Schema.fieldAt_eq_ok_iff.2 hf
  have hchild : child = none → ∀ c, s.explicit? i ≠ some (some c) := by
    intro hnone
    rw [hnone] at h
    exact explicit?_ne_some_some hs hf (record_of_bind_none h)
  -- Unfolding both sides step by step leaves the merge at the field to compare.
  rw [assignToField_eq, hfield, assign_put_empty hchild]
  show (do
    let child ← (liftM (f.bind reg query) : Except Failure (Option RecordSelection))
    let merged ← mergeField reg (s.explicit? i) child
    return s.put i merged : Except Failure RecordSelection) = _
  rw [h]
  show (do
    let merged ← (liftM (mergeField reg (s.explicit? i) child) :
      Except Failure (Option RecordSelection))
    return s.put i merged : Except Failure RecordSelection) = _
  cases mergeField reg (s.explicit? i) child <;> rfl

/-- A query that is bound to a field can be assigned to it. -/
theorem assignToField_total (hs : s.WellFormed reg) {f : Field}
    (hf : s.record.fields[i]? = some f) {query : Query} (hq : query.Sound reg)
    (h : f.bind reg query = .ok child) : ∃ t, s.assignToField reg i query = .ok t := by
  have halone : ((empty s.record).put i child).WellFormed reg :=
    WellFormed.put (s := empty s.record) trivial (fits_of_bind hf hq h)
  obtain ⟨t, ht, -⟩ := assign_total ((empty s.record).put i child) s halone hs rfl
  refine ⟨t, ?_⟩
  rw [assignToField_eq_assign hs hf h, ht]
  rfl

/-! ## What is assigned is contained -/

/-- What is assigned is contained in the result. -/
theorem contains_assign (hs : s.WellFormed reg) (ho : o.WellFormed reg)
    (hrecord : o.record = s.record) (h : s.assign reg o = .ok t) : t.contains reg o = true := by
  obtain ⟨htrecord, ht⟩ := hs.assign ho h
  have hsame : o.record = t.record := hrecord.trans htrecord.symm
  cases hopen : o.isUndefined with
  | false =>
    -- A defined selection is contained as soon as the paths that it names are included.
    rw [contains_defined_iff_includes ht ho hsame hopen]
    intro path hpath
    exact ((namesPath_assign hopen h).2 (.inr hpath)).includes ht
  | true =>
    -- An open one asks for the default fields, each of which has to be selected.
    rw [contains_undefined_iff hsame hopen, htrecord]
    intro i f hf
    rw [eq_undefined_of_isUndefined hopen, hrecord] at h
    cases hs' : s.isUndefined with
    | true =>
      rw [assign_undefined_of_isUndefined hs' h]
      exact hasIndex_undefined_iff.2 ⟨f, hf⟩
    | false =>
      obtain ⟨-, hdefined, hfields⟩ := explicit?_assign_undefined_iff hs' h
      have hi : t.record.fields[i]? = some f := by
        rw [htrecord]
        exact (Schema.mem_defaultFields_iff.1 hf).1
      rw [hasIndex_of_isUndefined_eq_false hdefined hi]
      -- The default field is named already, or it is one of those that are added.
      cases hnamed : s.explicit? i with
      | some child => rw [(hfields i child).2 (.inl hnamed), Option.isSome_some]
      | none => rw [(hfields i _).2 (.inr ⟨hnamed, f, hf, rfl⟩), Option.isSome_some]

/-- What is named stays named when another selection is assigned. -/
theorem NamesPath.assign (hrecord : o.record = s.record) (hpath : s.NamesPath path)
    (h : s.assign reg o = .ok t) : t.NamesPath path := by
  cases hopen : o.isUndefined with
  -- An open selection adds fields, which leaves all that is named as it is.
  | false => exact (namesPath_assign hopen h).2 (.inl hpath)
  | true =>
    rw [eq_undefined_of_isUndefined hopen, hrecord] at h
    cases hs : s.isUndefined with
    | true =>
      rw [assign_undefined_of_isUndefined hs h, ← eq_undefined_of_isUndefined hs]
      exact hpath
    | false =>
      cases path with
      | nil => trivial
      | cons i rest =>
        obtain ⟨-, -, hfields⟩ := explicit?_assign_undefined_iff hs h
        rw [namesPath_cons_iff] at hpath ⊢
        obtain ⟨child, hchild⟩ := hpath.exists_eq_some
        rw [(hfields i child).2 (.inl hchild), ← hchild]
        exact hpath

/-- Two selections of a record can be put together. The result contains what has been assigned, and
    what was named before if the selection was defined. Assigning a defined selection names what
    either of the two names, and nothing else. Assigning an open one adds the default fields that
    were not named, in full, and leaves an open selection as it is. Assigning a query to a field is
    assigning a selection of the field alone. -/
theorem assign_exact (hs : s.WellFormed reg) (ho : o.WellFormed reg)
    (hrecord : o.record = s.record) :
    (∃ t, s.assign reg o = .ok t ∧ t.contains reg o = true ∧
      (s.isUndefined = false → t.contains reg s = true) ∧
      (o.isUndefined = false → t.isUndefined = false ∧
        ∀ path, t.NamesPath path ↔ s.NamesPath path ∨ o.NamesPath path) ∧
      (o.isUndefined = true → s.isUndefined = false → t.isUndefined = false ∧
        ∀ i child, t.explicit? i = some child ↔ s.explicit? i = some child ∨
          s.explicit? i = none ∧ ∃ f, (i, f) ∈ s.record.defaultFields ∧ fullChild reg f = child) ∧
      (o.isUndefined = true → s.isUndefined = true → t = undefined s.record)) ∧
    ∀ i f query child, s.record.fields[i]? = some f → f.bind reg query = .ok child →
      s.assignToField reg i query =
        (liftM (s.assign reg ((empty s.record).put i child)) : Except Failure RecordSelection) ∧
      (query.Sound reg → ∃ t, s.assignToField reg i query = .ok t) := by
  constructor
  · obtain ⟨t, h, htrecord, ht⟩ := assign_total o s ho hs hrecord
    -- Inclusion and the paths come from one characterisation for each kind of operand.
    refine ⟨t, h, contains_assign hs ho hrecord h, ?_, ?_, ?_, ?_⟩
    · intro hdefined
      rw [contains_defined_iff_includes ht hs htrecord.symm hdefined]
      intro path hpath
      exact (hpath.assign hrecord h).includes ht
    · intro hdefined
      exact ⟨isUndefined_assign hdefined h, fun _ => namesPath_assign hdefined h⟩
    · intro hopen hdefined
      rw [eq_undefined_of_isUndefined hopen, hrecord] at h
      exact (explicit?_assign_undefined_iff hdefined h).2
    · intro hopen hs'
      rw [eq_undefined_of_isUndefined hopen, hrecord] at h
      exact assign_undefined_of_isUndefined hs' h
  · intro i f query child hf hbind
    constructor
    · exact assignToField_eq_assign hs hf hbind
    · intro hquery
      exact assignToField_total hs hf hquery hbind

/-- A folder with its size. -/
def sizeOfFolder : RecordSelection := (empty Schema.folder).put 2 none

/-- The size of a folder is a field without a nested record. -/
theorem wellFormed_sizeOfFolder : sizeOfFolder.WellFormed Registry.ofFolder :=
  ⟨⟨_, rfl, rfl⟩, trivial, trivial⟩

/-- The name and the parent are the default fields of a folder. An open selection adds them to the
    size, and the parent is named in full. A query for the name adds the name alone. -/
theorem assign_exact_sizeOfFolder :
    (∃ t, sizeOfFolder.assign Registry.ofFolder (undefined Schema.folder) = .ok t ∧
      t.explicit? 1 = some (some (undefined Schema.folder)) ∧ t.explicit? 2 = some none) ∧
    sizeOfFolder.assignToField Registry.ofFolder 0 .open =
      (liftM (sizeOfFolder.assign Registry.ofFolder ((empty Schema.folder).put 0 none)) :
        Except Failure RecordSelection) := by
  obtain ⟨⟨t, ht, -, -, -, hopen, -⟩, hfield⟩ :=
    assign_exact (o := undefined Schema.folder) wellFormed_sizeOfFolder trivial rfl
  obtain ⟨-, hadded⟩ := hopen rfl rfl
  have hparent : (1, (Field.of "parent" (.ref "Folder")).marked) ∈ Schema.folder.defaultFields :=
    Schema.mem_defaultFields_iff.2 ⟨rfl, rfl⟩
  constructor
  · refine ⟨t, ht, ?_, ?_⟩
    · exact (hadded 1 _).2 (.inr ⟨rfl, _, hparent, rfl⟩)
    · exact (hadded 2 _).2 (.inl rfl)
  · exact (hfield 0 _ .open none rfl rfl).1

end FieldMask.RecordSelection
