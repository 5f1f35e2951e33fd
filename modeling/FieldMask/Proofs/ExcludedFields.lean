import FieldMask.Proofs.PathInvariant
import FieldMask.Proofs.PickedFields

/-!
# Excluding from a selection of a record, leaf by leaf

A leaf of a record is a path of indices that ends at a field without a nested record. A query covers
it if it names it, or a field above it, in full. Excluding drops exactly the leaves that a query
covers. The record says what else there is below a field, so that part of a field that is left open
can be excluded as well: the default fields come first, and then they lose what is excluded.

A field that has nothing left is dropped. This concerns no leaf, because a leaf goes on below a
field with a nested record. A query that names no field covers nothing, also at a field.

## Key results

- `includes_exclude`: the leaves that are left
- `asksFor_iff_covers`: a defined query asks for the leaves that it covers
- `exclude_exact`: what is left, and how it complements what is picked
-/

namespace FieldMask.RecordSelection

variable {reg : Registry} {s q t : RecordSelection} {record : Schema} {i : Nat}
  {rest path : List Nat}

/-! ## What a query covers -/

/-- A path is named, step by step, and its end in full: by a field without a nested record, or by
    one that is left open. -/
def NamesInFull (q : RecordSelection) : List Nat → Prop
  | [] => q.isUndefined = true
  | i :: rest => ∃ child, q.explicit? i = some child ∧
      (child = none ∧ rest = [] ∨ ∃ c, child = some c ∧ c.NamesInFull rest)
termination_by structural path => path

/-- A path is named in full, or one that it goes on from is. -/
def Covers (q : RecordSelection) (path : List Nat) : Prop :=
  ∃ pre, pre ≠ [] ∧ pre <+: path ∧ q.NamesInFull pre

/-- What goes on from a field is covered by what a query has for the field. -/
def CoversAt : Option (Option RecordSelection) → List Nat → Prop
  | none, _ => False
  | some none, _ => True
  | some (some c), rest => c.isUndefined = true ∨ c.Covers rest

/-- A path is named in full if it goes on in full from its first field. -/
theorem namesInFull_cons_iff :
    q.NamesInFull (i :: rest) ↔ GoesOn NamesInFull (q.explicit? i) rest := by
  rw [NamesInFull]
  rcases q.explicit? i with _ | _ | c <;> simp [GoesOn]

/-- A path is covered if its first field is named in full, or if what comes after it is covered by
    what is named below the field. -/
theorem covers_cons_iff : q.Covers (i :: rest) ↔ CoversAt (q.explicit? i) rest := by
  constructor
  -- The part that is named in full begins with the same field.
  · intro h
    obtain ⟨pre, hne, hpre, hfull⟩ := h
    cases pre with
    | nil => exact absurd rfl hne
    | cons j pre =>
      obtain ⟨hij, hprefix⟩ := List.cons_prefix_cons.1 hpre
      subst hij
      rw [namesInFull_cons_iff] at hfull
      rcases hchild : q.explicit? j with _ | _ | c
      · rw [hchild] at hfull
        exact hfull.elim
      · trivial
      · rw [hchild] at hfull
        -- It ends at the field itself, or goes on below it.
        by_cases hend : pre = []
        · rw [hend] at hfull
          exact .inl hfull
        · exact .inr ⟨pre, hend, hprefix, hfull⟩
  · intro h
    -- A path in full, below the first field or at it, is one from the root.
    have hprefix : ∀ pre, pre <+: rest → GoesOn NamesInFull (q.explicit? i) pre →
        q.Covers (i :: rest) := by
      intro pre hpre hfull
      exact ⟨i :: pre, List.cons_ne_nil i pre, List.cons_prefix_cons.2 ⟨rfl, hpre⟩,
        namesInFull_cons_iff.2 hfull⟩
    rcases hchild : q.explicit? i with _ | _ | c
    · rw [hchild] at h
      exact h.elim
    · exact hprefix [] List.nil_prefix (hchild ▸ rfl)
    · rw [hchild] at h
      obtain hopen | hcovers := h
      · exact hprefix [] List.nil_prefix (hchild ▸ hopen)
      · obtain ⟨pre, -, hpre, hfull⟩ := hcovers
        exact hprefix pre hpre (hchild ▸ hfull)

/-- What is left open or empty names no field. -/
theorem explicit?_of_isUndefinedOrEmpty (hq : q.isUndefinedOrEmpty = true) (i : Nat) :
    q.explicit? i = none := by
  cases q with
  | undefined record => rfl
  | defined record fields =>
    have hnil : fields = .nil := Entries.isEmpty_iff.1 hq
    rw [hnil]
    rfl

/-- A query that names no field covers nothing. -/
theorem not_covers_of_isUndefinedOrEmpty (hq : q.isUndefinedOrEmpty = true) : ¬ q.Covers path := by
  cases path with
  | nil =>
    intro h
    obtain ⟨pre, hne, hpre, -⟩ := h
    exact hne (List.prefix_nil.1 hpre)
  | cons i rest =>
    rw [covers_cons_iff, explicit?_of_isUndefinedOrEmpty hq]
    exact id

/-! ## Leaves -/

/-- Below a field with a nested record a leaf goes on. -/
theorem leads_below {c : RecordSelection} (hfits : Fits reg record i (some c))
    (hleaf : Leads reg record (i :: rest) none) : Leads reg c.record rest none := by
  obtain ⟨f, hf, hr⟩ := hfits.suits
  -- A leaf has a first step: it is the last one, or it goes on in a nested record.
  cases hleaf with
  | last found leaf =>
    cases hf.symm.trans found
    rw [leaf] at hr
    cases hr
  | cons found nested more =>
    cases hf.symm.trans found
    rw [nested] at hr
    cases hr
    exact more

/-- A leaf ends at a field without a nested record. -/
theorem eq_nil_of_leads (hfits : Fits reg record i none)
    (hleaf : Leads reg record (i :: rest) none) : rest = [] := by
  obtain ⟨f, hf, hr⟩ := hfits.suits
  cases hleaf with
  | last found leaf => rfl
  | cons found nested more =>
    cases hf.symm.trans found
    rw [nested] at hr
    cases hr

/-- A selection that names no field selects no leaf. -/
theorem not_includes_of_isEmpty (ht : t.WellFormed reg) (hempty : t.isEmpty = true)
    (hleaf : Leads reg record path none) : ¬ t.Includes reg path := by
  cases hleaf with
  -- Either way the path has a first field, and the selection names none.
  | last found leaf | cons found nested more =>
    cases t with
    | undefined record => cases hempty
    | defined record fields =>
      have hnothing : (defined record fields).isUndefinedOrEmpty = true := hempty
      rw [includes_cons_iff, selectedAt_of_defined ht rfl, explicit?_of_isUndefinedOrEmpty hnothing]
      exact id

/-! ## Excluding field by field -/

/-- What is left of a field takes the leaves that the selection takes, except for those that the
    query covers. -/
theorem goesOn_excludeAt_iff {left right found : Option (Option RecordSelection)}
    (hleft : ∀ child, left = some child → Fits reg record i child)
    (hright : ∀ child, right = some child → Fits reg record i child)
    (hleaf : Leads reg record (i :: rest) none) (h : excludeAt reg left right = .ok found)
    (ih : ∀ c d u : RecordSelection, c.WellFormed reg → d.WellFormed reg →
      d.record = c.record → Leads reg c.record rest none → c.exclude reg d = .ok u →
      (u.Includes reg rest ↔ c.Includes reg rest ∧ ¬ d.Covers rest)) :
    GoesOn (Includes reg) found rest ↔
      GoesOn (Includes reg) left rest ∧ ¬ CoversAt right rest := by
  -- What the query has for the field: nothing, the field without a selection, or one below it.
  rcases right with _ | _ | d
  · rw [excludeAt_none_right] at h
    cases h
    exact (and_iff_left id).symm
  · -- The field has no nested record, and nothing is left of it.
    have hnone : found = none := by rcases left with _ | _ | c <;> cases h <;> rfl
    subst hnone
    exact iff_of_false id fun h => h.2 trivial
  · cases left with
    | none =>
      simp only [excludeAt, ite_self] at h
      cases h
      exact iff_of_false id fun h => h.1
    | some child =>
      obtain ⟨c, hc, hrecord⟩ := (hright _ rfl).eq_some (hleft child rfl)
      subst hc
      have hfits := hleft _ rfl
      have hmore := leads_below hfits hleaf
      rw [excludeAt] at h
      split at h
      · -- The query names the field in full.
        rename_i hopen
        cases h
        exact iff_of_false id fun h => h.2 (.inl hopen)
      rename_i hopen
      have hcovers : CoversAt (some (some d)) rest ↔ d.Covers rest := or_iff_right hopen
      rw [hcovers]
      split at h
      · rename_i hempty
        cases h
        have hnothing : d.isUndefinedOrEmpty = true := by
          rw [isUndefinedOrEmpty, hempty, Bool.or_true]
        exact (and_iff_left (not_covers_of_isUndefinedOrEmpty hnothing)).symm
      · obtain ⟨u, hu, h⟩ := bind_eq_ok_iff.1 h
        cases h
        have hbelow := ih c d u hfits.child (hright _ rfl).child hrecord.symm hmore hu
        split
        · -- The field is dropped, and there was no leaf below it to be kept.
          rename_i hempty
          have hu' : u.WellFormed reg := (hfits.child.exclude (hright _ rfl).child hu).2
          have hnone := not_includes_of_isEmpty hu' hempty hmore
          exact iff_of_false id fun hkept => hnone (hbelow.2 hkept)
        · exact hbelow

/-! ## Excluding leaf by leaf -/

/-- What is left selects the leaves that the selection selects and the query does not cover. -/
theorem includes_exclude (hs : s.WellFormed reg) (hq : q.WellFormed reg)
    (hrecord : q.record = s.record) (hleaf : Leads reg s.record path none)
    (h : s.exclude reg q = .ok t) :
    t.Includes reg path ↔ s.Includes reg path ∧ ¬ q.Covers path := by
  -- By induction on the path, with the selection and the query that are found at its first field.
  induction path generalizing s q t with
  | nil => cases hleaf
  | cons i rest ih =>
    -- A query that names nothing leaves all as it is, and covers nothing.
    by_cases hnothing : q.isUndefinedOrEmpty = true
    · rw [exclude_nothing_eq_ok hnothing h]
      exact (and_iff_left (not_covers_of_isUndefinedOrEmpty hnothing)).symm
    cases q with
    | undefined record => exact absurd rfl hnothing
    | defined record query =>
      have ht : t.WellFormed reg := (hs.exclude hq h).2
      obtain ⟨left, rfl, hexcluded⟩ := exclude_defined_eq_ok (Bool.eq_false_iff.2 hnothing) h
      have hsame : record = s.record := hrecord
      subst hsame
      -- The default fields of an open selection are named before anything is taken from them.
      have hi := hexcluded i
      rw [← selectedAt_eq hs] at hi
      rw [includes_cons_iff, includes_cons_iff, covers_cons_iff, selectedAt_of_defined ht rfl]
      apply goesOn_excludeAt_iff (fun _ hchild => hs.fits_selectedAt hchild)
        (fun _ hchild => hq.fits hchild) hleaf hi
      intro c d u hc hd hrecord hmore hu
      exact ih hc hd hrecord hmore hu

/-- A defined query asks for the leaves that it covers. -/
theorem asksFor_iff_covers (hq : q.WellFormed reg) (hdefined : q.isUndefined = false)
    (hleaf : Leads reg q.record path none) : q.AsksFor path ↔ q.Covers path := by
  -- By induction on the path, with the query at its first field.
  induction path generalizing q with
  | nil => cases hleaf
  | cons i rest ih =>
    rw [asksFor_cons_iff hdefined, covers_cons_iff]
    rcases hchild : q.explicit? i with _ | _ | c
    · exact Iff.rfl
    · exact iff_of_true (eq_nil_of_leads (hq.fits hchild) hleaf) trivial
    · have hfits := hq.fits hchild
      show c.isUndefined = true ∨ c.AsksFor rest ↔ c.isUndefined = true ∨ c.Covers rest
      by_cases hopen : c.isUndefined = true
      · exact iff_of_true (.inl hopen) (.inl hopen)
      · rw [ih hfits.child (Bool.eq_false_iff.2 hopen) (leads_below hfits hleaf)]

/-- From two selections of a record can be excluded. What is left selects the leaves that the one
    selects and of which the other names no part in full. So each leaf that is selected is picked by
    a defined query or is left without it, but not both, and no other leaf is. -/
theorem exclude_exact (hs : s.WellFormed reg) (hq : q.WellFormed reg)
    (hrecord : q.record = s.record) :
    ∃ left, s.exclude reg q = .ok left ∧
      (∀ path, Leads reg s.record path none →
        (left.Includes reg path ↔ s.Includes reg path ∧
          ∀ pre, pre ≠ [] → pre <+: path → ¬ q.NamesInFull pre)) ∧
      (q.isUndefined = false → ∃ picked, s.pick reg q = .ok picked ∧
        ∀ path, Leads reg s.record path none →
          (s.Includes reg path ↔ picked.Includes reg path ∨ left.Includes reg path) ∧
            ¬ (picked.Includes reg path ∧ left.Includes reg path)) := by
  obtain ⟨left, hleft, -⟩ := exclude_total q s hq hs hrecord
  refine ⟨left, hleft, ?_, ?_⟩
  · intro path hleaf
    rw [includes_exclude hs hq hrecord hleaf hleft]
    apply and_congr_right
    intro _
    simp [Covers]
  · intro hdefined
    obtain ⟨picked, hpicked, -⟩ := pick_total q s hq hs hrecord
    refine ⟨picked, hpicked, ?_⟩
    intro path hleaf
    -- The query asks for a leaf that is selected, or does not cover it.
    rw [includes_exclude hs hq hrecord hleaf hleft, includes_pick hs hq hrecord hpicked,
      asksFor_iff_covers hq hdefined (hrecord ▸ hleaf), ← and_or_left]
    -- Each leaf that is selected is covered by the query or not.
    constructor
    · exact (and_iff_left (Classical.em _)).symm
    · intro h
      exact h.2.2 h.1.2

/-- Without the name of the parent of the root, that of its own parent is still left. -/
theorem exclude_exact_rootOfDrive :
    ∃ left, rootOfDrive.exclude Registry.ofFolder nameAndSizeOfParent = .ok left ∧
      left.Includes Registry.ofFolder [0, 1, 1, 0] ∧
      ¬ left.Includes Registry.ofFolder [0, 1, 0] := by
  obtain ⟨left, hleft, hincludes, -⟩ :=
    exclude_exact wellFormed_rootOfDrive wellFormed_nameAndSizeOfParent rfl
  -- On the way to the grandparent, the query names only the parent, and not in full.
  have hspared : ¬ nameAndSizeOfParent.Covers [0, 1, 1, 0] := by
    intro h
    obtain hopen | h := covers_cons_iff.1 h
    · cases hopen
    obtain hopen | h := covers_cons_iff.1 h
    · cases hopen
    exact covers_cons_iff.1 h
  refine ⟨left, hleft, ?_, ?_⟩
  · apply (hincludes _ (.cons rfl rfl (.cons rfl rfl (.cons rfl rfl (.last rfl rfl))))).2
    constructor
    · exact ⟨rfl, .inr ⟨_, rfl, rfl, .inr ⟨_, rfl, rfl, .inr ⟨_, rfl, rfl, .inl rfl⟩⟩⟩⟩
    · intro pre hne hpre hfull
      exact hspared ⟨pre, hne, hpre, hfull⟩
  · intro h
    rw [hincludes _ (.cons rfl rfl (.cons rfl rfl (.last rfl rfl)))] at h
    apply h.2 [0, 1, 0] (List.cons_ne_nil _ _) (List.prefix_refl _)
    exact ⟨_, rfl, .inr ⟨_, rfl, _, rfl, .inr ⟨_, rfl, none, rfl, .inl ⟨rfl, rfl⟩⟩⟩⟩

end FieldMask.RecordSelection
