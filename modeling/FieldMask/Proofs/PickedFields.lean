import FieldMask.Proofs.Containment
import FieldMask.Proofs.NamingRoundTrip

/-!
# What is picked from a selection of a record

A query asks for paths of indices. Where it names a field in full, it asks for all that is below,
and what of that is picked is up to the selection that is picked from. Only at its root a query that
is left open asks for the default fields of the record and no others.

What is picked selects a path if the selection does and the query asks for it. This holds also where
the selection is left open: its default fields are named before anything is picked from them, at
each step down, so that no field comes in that was not selected.

## Key results

- `includes_pick`: the paths that what is picked selects
- `pick_exact`: two selections of a record can be picked from, and what then is so
-/

namespace FieldMask.RecordSelection

variable {reg : Registry} {s q t : RecordSelection} {record : Schema} {i : Nat}
  {rest path : List Nat}

/-! ## What a query asks for -/

/-- A path is asked for, step by step. An open query asks for the default fields of its record with
    all that is below them, and a field that is named in full is asked for with all that is below
    it. -/
def AsksFor (q : RecordSelection) : List Nat → Prop
  | [] => True
  | i :: rest =>
    (q.isUndefined = true ∧ ∃ f, (i, f) ∈ q.record.defaultFields) ∨
      ∃ child, q.explicit? i = some child ∧
        (child = none ∧ rest = [] ∨ ∃ c, child = some c ∧ (c.isUndefined = true ∨ c.AsksFor rest))
termination_by structural path => path

/-- What a query asks for below a field that it names. -/
def AsksBelow (q : RecordSelection) (path : List Nat) : Prop :=
  q.isUndefined = true ∨ q.AsksFor path

/-- An open query asks for a path if its first field is a default field. -/
theorem asksFor_undefined_cons_iff :
    (undefined record).AsksFor (i :: rest) ↔ ∃ f, (i, f) ∈ record.defaultFields := by
  have hnone : (undefined record).explicit? i = none := rfl
  simp [AsksFor, hnone, isUndefined, RecordSelection.record]

/-- A defined query asks for a path if it names its first field, and asks for the rest below it. -/
theorem asksFor_cons_iff (hq : q.isUndefined = false) :
    q.AsksFor (i :: rest) ↔ GoesOn AsksBelow (q.explicit? i) rest := by
  rw [AsksFor]
  rcases q.explicit? i with _ | _ | c <;> simp [hq, GoesOn, AsksBelow]

/-! ## Picking field by field -/

/-- An open query picks those of the named fields that are default fields. -/
theorem explicit?_pick_undefined {fields : OrderedMap Nat (Option RecordSelection)}
    (h : (defined record fields).pick reg (undefined record) = .ok t) :
    t.isUndefined = false ∧ ∀ i child, t.explicit? i = some child ↔
      fields.get? i = some child ∧ ∃ f, (i, f) ∈ record.defaultFields := by
  obtain ⟨_, -, h⟩ := bind_eq_ok_iff.1 h
  cases h
  -- The picked entries are some of those that there were, so their indices still differ.
  refine ⟨rfl, fun i child => (Entries.get?_ofList_eq_some_iff ?_).trans ?_⟩
  · exact (Entries.nodup_keys fields).sublist (List.filter_sublist.map Prod.fst)
  · rw [List.mem_filter, Entries.mem_toList_iff_get?_eq_some]
    apply and_congr_right
    intro _
    cases hf : record.fields[i]? <;> simp [hf, Schema.mem_defaultFields_iff]

/-- From an open query, what is picked selects what the default fields select. -/
theorem includes_pick_undefined (hs : s.WellFormed reg)
    (h : s.pick reg (undefined s.record) = .ok t) :
    t.Includes reg (i :: rest) ↔
      s.Includes reg (i :: rest) ∧ ∃ f, (i, f) ∈ s.record.defaultFields := by
  have ht : t.WellFormed reg := (hs.pick (q := undefined s.record) trivial h).2
  cases s with
  | undefined record =>
    -- Nothing but default fields is selected to begin with.
    obtain ⟨_, -, h⟩ := bind_eq_ok_iff.1 h
    cases h
    apply (and_iff_left_of_imp _).symm
    intro hincludes
    exact hasIndex_undefined_iff.1 hincludes.1
  | defined record fields =>
    obtain ⟨hdefined, hpicked⟩ := explicit?_pick_undefined h
    rw [includes_cons_iff, includes_cons_iff, selectedAt_of_defined ht hdefined,
      selectedAt_of_defined hs rfl]
    -- At a default field nothing has changed, and any other one is gone.
    by_cases hdefault : ∃ f, (i, f) ∈ record.defaultFields
    · have hkept : t.explicit? i = (defined record fields).explicit? i := by
        apply Option.ext
        intro child
        rw [hpicked]
        exact and_iff_left hdefault
      rw [hkept]
      exact (and_iff_left hdefault).symm
    · have hdropped : t.explicit? i = none := by
        apply Option.eq_none_iff_forall_ne_some.2
        intro child hchild
        exact hdefault ((hpicked i child).1 hchild).2
      rw [hdropped]
      exact iff_of_false id fun h => hdefault h.2

/-- What is picked at a field takes the paths that the selection takes and the query asks for. -/
theorem goesOn_pickAt_iff {left right found : Option (Option RecordSelection)}
    (hleft : ∀ child, left = some child → Fits reg record i child)
    (hright : ∀ child, right = some child → Fits reg record i child)
    (h : pickAt reg left right = .ok found)
    (ih : ∀ c d u : RecordSelection, right = some (some d) → d.isUndefined = false →
      c.WellFormed reg → d.record = c.record → c.pick reg d = .ok u →
      (u.Includes reg rest ↔ c.Includes reg rest ∧ d.AsksFor rest)) :
    GoesOn (Includes reg) found rest ↔
      GoesOn (Includes reg) left rest ∧ GoesOn AsksBelow right rest := by
  -- By what each of the two has for the field: nothing, no selection, or a selection.
  cases right with
  | none =>
    rw [pickAt_none_right] at h
    cases h
    exact iff_of_false id fun h => h.2
  | some part =>
    cases left with
    | none =>
      cases h
      exact iff_of_false id fun h => h.1
    | some child =>
      have hfits := hleft child rfl
      cases part with
      | none =>
        -- Neither has a selection for the field, which has no nested record.
        cases child with
        | some c =>
          obtain ⟨d, hd, -⟩ := hfits.eq_some (hright none rfl)
          cases hd
        | none =>
          cases h
          exact (and_self_iff).symm
      | some d =>
        obtain ⟨c, hc, hrecord⟩ := (hright _ rfl).eq_some hfits
        subst hc
        rw [pickAt] at h
        split at h
        · -- A field that is named in full is picked as it is.
          rename_i hopen
          cases h
          exact (and_iff_left (.inl hopen)).symm
        · rename_i hopen
          have hdefined : d.isUndefined = false := Bool.eq_false_iff.2 hopen
          -- Only here are both selections gone into, as the hypothesis for the nested record says.
          obtain ⟨u, hu, h⟩ := bind_eq_ok_iff.1 h
          cases h
          have hbelow := ih c d u rfl hdefined hfits.child hrecord.symm hu
          simpa [GoesOn, AsksBelow, hdefined] using hbelow

/-! ## Picking path by path -/

/-- What is picked selects the paths that the selection selects and the query asks for. -/
theorem includes_pick (hs : s.WellFormed reg) (hq : q.WellFormed reg)
    (hrecord : q.record = s.record) (h : s.pick reg q = .ok t) :
    t.Includes reg path ↔ s.Includes reg path ∧ q.AsksFor path := by
  -- By induction on the path, one step into both selections at a time.
  induction path generalizing s q t with
  | nil => simp [Includes, AsksFor]
  | cons i rest ih =>
    cases q with
    | undefined record =>
      have hsame : record = s.record := hrecord
      subst hsame
      rw [asksFor_undefined_cons_iff]
      exact includes_pick_undefined hs h
    | defined record query =>
      have ht : t.WellFormed reg := (hs.pick hq h).2
      obtain ⟨picked, rfl, hpicked⟩ := pick_defined_eq_ok h
      have hsame : record = s.record := hrecord
      subst hsame
      -- The default fields of an open selection are named before anything is picked from it.
      have hi := hpicked i
      rw [← selectedAt_eq hs] at hi
      rw [includes_cons_iff, includes_cons_iff, asksFor_cons_iff rfl, selectedAt_of_defined ht rfl]
      apply goesOn_pickAt_iff (fun _ hchild => hs.fits_selectedAt hchild)
        (fun _ hchild => hq.fits hchild) hi
      intro c d u hd _ hc hrecord hu
      exact ih hc (hq.fits hd).child hrecord hu

/-- Two selections of a record can be picked from. What is picked selects a path if the one selects
    it and the other asks for it. So it is contained in the one, and picking the same again changes
    nothing of what is selected. -/
theorem pick_exact (hs : s.WellFormed reg) (hq : q.WellFormed reg) (hrecord : q.record = s.record) :
    ∃ t, s.pick reg q = .ok t ∧
      (∀ path, t.Includes reg path ↔ s.Includes reg path ∧ q.AsksFor path) ∧
      s.contains reg t = true ∧
      ∃ u, t.pick reg q = .ok u ∧ ∀ path, u.Includes reg path ↔ t.Includes reg path := by
  obtain ⟨t, ht, htrecord, htwell⟩ := pick_total q s hq hs hrecord
  -- What is picked is asked for already, so that picking it again leaves it as it is.
  have hincludes : ∀ path, t.Includes reg path ↔ s.Includes reg path ∧ q.AsksFor path :=
    fun _ => includes_pick hs hq hrecord ht
  have hagain : q.record = t.record := hrecord.trans htrecord.symm
  obtain ⟨u, hu, -⟩ := pick_total q t hq htwell hagain
  refine ⟨t, ht, hincludes, ?_, u, hu, ?_⟩
  · apply contains_of_includes hs htwell htrecord
    intro path hpath
    exact ((hincludes path).1 hpath).1
  · intro path
    rw [includes_pick htwell hq hagain hu]
    apply and_iff_left_of_imp
    intro hpath
    exact ((hincludes path).1 hpath).2

/-- The name and the size of the parent of the root of a drive. -/
def nameAndSizeOfParent : RecordSelection :=
  (empty Schema.drive).put 0
    (some ((empty Schema.folder).put 1
      (some ((empty Schema.folder).put 0 none |>.put 2 none))))

/-- Each selection fits the field that it is of. -/
theorem wellFormed_nameAndSizeOfParent :
    nameAndSizeOfParent.WellFormed Registry.ofFolder :=
  ⟨⟨_, rfl, rfl⟩, ⟨⟨_, rfl, rfl⟩, ⟨⟨_, rfl, rfl⟩, trivial, ⟨_, rfl, rfl⟩, trivial, trivial⟩,
    trivial⟩, trivial⟩

/-- The root of the drive is left open, and the size is no default field of a folder. So the name of
    the parent is picked, and its size is not. -/
theorem pick_exact_rootOfDrive :
    ∃ t, rootOfDrive.pick Registry.ofFolder nameAndSizeOfParent = .ok t ∧
      t.Includes Registry.ofFolder [0, 1, 0] ∧ ¬ t.Includes Registry.ofFolder [0, 1, 2] := by
  obtain ⟨t, ht, hincludes, -⟩ :=
    pick_exact wellFormed_rootOfDrive wellFormed_nameAndSizeOfParent rfl
  refine ⟨t, ht, (hincludes _).2 ⟨?_, ?_⟩, fun h => ?_⟩
  -- The path is selected, and it is asked for step by step.
  · exact ⟨rfl, .inr ⟨_, rfl, rfl, .inr ⟨_, rfl, rfl, .inl rfl⟩⟩⟩
  · exact .inr ⟨_, rfl, .inr ⟨_, rfl, .inr (.inr ⟨_, rfl, .inr ⟨_, rfl, .inr
      (.inr ⟨none, rfl, .inl ⟨rfl, rfl⟩⟩)⟩⟩)⟩⟩
  -- The size is asked for, so the only reason is that it is not selected.
  · obtain ⟨hselected, -⟩ := (hincludes _).1 h
    obtain ⟨-, hnil | ⟨root, hroot, -, hnil | ⟨parent, hparent, hsize, -⟩⟩⟩ := hselected
    · cases hnil
    · cases hnil
    · cases hroot
      cases hparent
      cases hsize

end FieldMask.RecordSelection
