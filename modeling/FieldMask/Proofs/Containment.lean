import FieldMask.Proofs.IncludedPaths
import FieldMask.Proofs.PickedPaths

/-!
# Containment and paths

A selection contains a query if it selects all that the query asks for. Both are gone through at
once, and the way down ends where either of them is left open. What is asked for is said by paths:
those that the query names.

An open query of a record names no path, and asks for the default fields of the record. An open
selection of a record selects its default fields and those of the records below, so that it has
paths without end where a record leads back to itself. The query has ends, and the induction is
along the query.

## Key results

- `NameSelection.contains_iff`: containment of selections by name
- `RecordSelection.contains_defined_iff_includes` / `contains_undefined_iff`: of a record
- `contains_of_includes`: a selection contains those that select no path but its own
- `contains_asked`: the three together, with reflexivity
-/

namespace FieldMask

/-! ## Selections by name -/

namespace NameSelection

variable {s q : NameSelection} {name : String} {rest path : List String}

/-- An open selection names no field. -/
theorem namesPath_undefined_iff : undefined.NamesPath path ↔ path = [] := by
  cases path with
  | nil => simp [NamesPath]
  | cons name rest =>
    have hfield : undefined.field? name = none := rfl
    simp [NamesPath, hfield]

/-- What is named is selected. -/
-- By induction on the path: a selection that is left open has every path.
theorem NamesPath.hasPath (h : s.NamesPath path) : s.hasPath path = true := by
  induction path generalizing s with
  | nil => rfl
  | cons name rest ih =>
    obtain ⟨child, hchild, hrest⟩ := h
    cases s with
    | undefined => rfl
    | defined fields => exact hasPath_defined_cons_iff.2 ⟨child, hchild, ih hrest⟩

/-- A field is selected with all that a query names below it if it is with each path that the query
    goes on with. -/
theorem containsAt_some_iff {current : Option NameSelection}
    (ih : ∀ c : NameSelection,
      c.contains q = true ↔ ∀ rest, q.NamesPath rest → c.hasPath rest = true) :
    containsAt current (some q) = true ↔
      ∀ rest, q.NamesPath rest → ∃ c, current = some c ∧ c.hasPath rest = true := by
  cases current with
  | none =>
    apply iff_of_false
    · simp [containsAt]
    · -- The query asks for the field itself, whatever it names below.
      intro h
      obtain ⟨c, hc, -⟩ := h [] trivial
      cases hc
  | some c => simp [containsAt, ih c]

/-- A selection contains a query if it selects every path that the query names. -/
theorem contains_iff (s q : NameSelection) :
    s.contains q = true ↔ ∀ path, q.NamesPath path → s.hasPath path = true := by
  -- By induction on the query: at each of its fields the statement for the part named there is
  -- used.
  induction q using induction generalizing s with
  | undefined =>
    simp only [contains, namesPath_undefined_iff, true_iff]
    intro path hpath
    rw [hpath]
    rfl
  | defined query ih =>
    cases s with
    | undefined => simp [contains, isUndefined]
    | defined fields =>
      rw [contains_defined_iff]
      constructor
      -- What is contained at the first name of the path has the rest of it below.
      · intro h path hpath
        cases path with
        | nil => rfl
        | cons name rest =>
          obtain ⟨part, hpart, hrest⟩ := hpath
          have hfield := h name
          rw [show query.get? name = some part from hpart, containsAt_some_iff (ih name part hpart)]
            at hfield
          exact hasPath_defined_cons_iff.2 (hfield rest hrest)
      -- Conversely every path of the part, behind its name, is one of the query.
      · intro h name
        cases hpart : query.get? name with
        | none => exact containsAt_none_right _
        | some part =>
          rw [containsAt_some_iff (ih name part hpart)]
          intro rest hrest
          exact hasPath_defined_cons_iff.1 (h (name :: rest) ⟨part, hpart, hrest⟩)

/-- A selection contains itself. -/
theorem contains_self (s : NameSelection) : s.contains s = true :=
  (contains_iff s s).2 fun _ => NamesPath.hasPath

end NameSelection

/-! ## Selections of a record -/

namespace RecordSelection

variable {reg : Registry} {s q : RecordSelection} {path : List Nat}

/-- A field is selected with all that a query names below it if it is with each path that the query
    goes on with. -/
theorem containsAt_iff {record : Schema} {i : Nat} {found : Option (Option RecordSelection)}
    {part : Option RecordSelection} (hpart : Fits reg record i part)
    (hfound : ∀ child, found = some child → Fits reg record i child)
    (ih : ∀ c d : RecordSelection, part = some d → d.isUndefined = false → c.WellFormed reg →
      d.record = c.record →
      (c.contains reg d = true ↔ ∀ rest, d.NamesPath rest → c.Includes reg rest)) :
    containsAt reg found (some part) = true ↔
      ∀ rest, GoesOn NamesPath (some part) rest → GoesOn (Includes reg) found rest := by
  cases part with
  | none =>
    -- The path ends at the field, which has no nested record.
    rcases found with _ | _ | c
    · simp [containsAt, GoesOn]
    · simp [containsAt, GoesOn]
    · simp [containsAt, GoesOn, Includes]
  | some d =>
    -- The query goes on with a selection; the field may or may not be selected.
    cases found with
    | none =>
      have hasked : ¬ ∀ rest, d.NamesPath rest → False := fun h => h [] trivial
      simpa [containsAt, GoesOn] using hasked
    | some child =>
      obtain ⟨c, hc, hrecord⟩ := hpart.eq_some (hfound child rfl)
      subst hc
      simp only [containsAt, GoesOn, Bool.or_eq_true]
      by_cases hopen : d.isUndefined = true
      · -- No path goes on from a field that the query names in full.
        simp only [hopen, true_or, true_iff]
        intro rest hrest
        cases d with
        | defined record fields => cases hopen
        | undefined record =>
          cases rest with
          | nil => trivial
          | cons j more => exact (namesPath_cons_iff.1 hrest).elim
      · have hdefined : d.isUndefined = false := Bool.eq_false_iff.2 hopen
        rw [ih c d rfl hdefined (hfound _ rfl).child hrecord.symm]
        simp [hdefined]

/-- A selection contains a defined query if it selects every path that the query names. -/
theorem contains_defined_iff_includes (hs : s.WellFormed reg) (hq : q.WellFormed reg)
    (hrecord : q.record = s.record) (hdefined : q.isUndefined = false) :
    s.contains reg q = true ↔ ∀ path, q.NamesPath path → s.Includes reg path := by
  -- By induction on the query, with the selection that is selected at each of its fields.
  induction q using induction generalizing s with
  | undefined record => cases hdefined
  | defined record query ih =>
    have hsame : record = s.record := hrecord
    subst hsame
    rw [contains_defined_iff]
    have hfield : ∀ i part, query.get? i = some part →
        (containsAt reg (s.selectedAt reg i) (some part) = true ↔
          -- At a field, containment is about the paths that go on from there.
          ∀ rest, GoesOn NamesPath (some part) rest → s.Includes reg (i :: rest)) := by
      intro i part hpart
      simp only [includes_cons_iff]
      apply containsAt_iff (hq.fits hpart) fun child hchild => hs.fits_selectedAt hchild
      intro c d hd hdefined hc hrecord
      subst hd
      exact ih i d hpart hc (hq.fits hpart).child hrecord hdefined
    constructor
    · intro h path hpath
      cases path with
      | nil => trivial
      | cons i rest =>
        rw [namesPath_cons_iff] at hpath
        obtain ⟨part, hpart⟩ := hpath.exists_eq_some
        have hi := h i
        rw [show query.get? i = some part from hpart, hfield i part hpart] at hi
        exact hi rest (hpart ▸ hpath)
    · intro h i
      cases hpart : query.get? i with
      | none => exact containsAt_none_right _
      | some part =>
        rw [hfield i part hpart]
        intro rest hrest
        apply h
        rw [namesPath_cons_iff]
        exact (show (defined s.record query).explicit? i = some part from hpart) ▸ hrest

/-- A selection contains an open query if it selects the default fields of the record. -/
theorem contains_undefined_iff (hrecord : q.record = s.record) (hopen : q.isUndefined = true) :
    s.contains reg q = true ↔ ∀ i f, (i, f) ∈ s.record.defaultFields → s.hasIndex i = true := by
  cases q with
  | defined record fields => cases hopen
  -- For an open query of the record the definition says just that.
  | undefined record =>
    have hsame : record = s.record := hrecord
    subst hsame
    cases s with
    | undefined record =>
      simp only [contains, RecordSelection.record, isUndefined, decide_true, Bool.true_or,
        Bool.and_self, true_iff]
      intro i f hf
      exact hasIndex_undefined_iff.2 ⟨f, hf⟩
    | defined record fields => simp [contains, isUndefined, RecordSelection.record]

/-- A selection contains those that select no path but its own. -/
theorem contains_of_includes (hs : s.WellFormed reg) (hq : q.WellFormed reg)
    (hrecord : q.record = s.record) (h : ∀ path, q.Includes reg path → s.Includes reg path) :
    s.contains reg q = true := by
  cases hopen : q.isUndefined with
  | true =>
    rw [contains_undefined_iff hrecord hopen]
    intro i f hf
    cases q with
    | defined record fields => cases hopen
    | undefined record =>
      -- The path that ends at the default field is one of the open selection.
      have hsame : record = s.record := hrecord
      subst hsame
      exact (h [i] ⟨hasIndex_undefined_iff.2 ⟨f, hf⟩, .inl rfl⟩).1
  | false =>
    rw [contains_defined_iff_includes hs hq hrecord hopen]
    intro path hpath
    exact h path (hpath.includes hq)

/-- The parent of the parent of a node, with its first field. -/
def idOfGrandparent : RecordSelection :=
  (empty Schema.node).put 2
    (some ((empty Schema.node).put 2 (some ((empty Schema.node).put 0 none))))

/-- It is well-formed: at each step the parent is a node again. -/
theorem wellFormed_idOfGrandparent : idOfGrandparent.WellFormed Registry.ofNode :=
  ⟨⟨_, rfl, rfl⟩, ⟨⟨_, rfl, rfl⟩, ⟨⟨_, rfl, rfl⟩, trivial, trivial⟩, trivial⟩, trivial⟩

end RecordSelection

/-! ## Both kinds of selections -/

open RecordSelection (sampleOfNode wellFormed_sampleOfNode idOfGrandparent
  wellFormed_idOfGrandparent)

/-- A selection contains a query if it selects each path that the query names, by name and by index.
    An open query of a record asks for the default fields of the record. Every selection contains
    itself. -/
theorem contains_asked :
    (∀ s q : NameSelection,
      (s.contains q = true ↔ ∀ path, q.NamesPath path → s.hasPath path = true) ∧
        s.contains s = true) ∧
    ∀ (reg : Registry) (s q : RecordSelection), s.WellFormed reg → q.WellFormed reg →
      q.record = s.record →
      (q.isUndefined = false →
        (s.contains reg q = true ↔ ∀ path, q.NamesPath path → s.Includes reg path)) ∧
      (q.isUndefined = true → (s.contains reg q = true ↔
        ∀ i f, (i, f) ∈ s.record.defaultFields → s.hasIndex i = true)) ∧
      s.contains reg s = true := by
  constructor
  · intro s q
    exact ⟨NameSelection.contains_iff s q, NameSelection.contains_self s⟩
  · intro reg s q hs hq hrecord
    refine ⟨RecordSelection.contains_defined_iff_includes hs hq hrecord,
      RecordSelection.contains_undefined_iff hrecord, ?_⟩
    exact RecordSelection.contains_of_includes hs hs rfl fun _ h => h

/-- The parent is left open in the sample, so that it selects what is asked for further up. It does
    not select all fields of a node, which an open query asks for. -/
theorem contains_asked_sampleOfNode :
    sampleOfNode.Includes Registry.ofNode [2, 2, 0] ∧
      ¬ sampleOfNode.contains Registry.ofNode (.undefined Schema.node) = true := by
  have hasked := contains_asked.2 Registry.ofNode sampleOfNode idOfGrandparent
    wellFormed_sampleOfNode wellFormed_idOfGrandparent rfl
  have hopen := contains_asked.2 Registry.ofNode sampleOfNode (.undefined Schema.node)
    wellFormed_sampleOfNode trivial rfl
  -- The paths that the sample selects contain the one to the grandparent; an open query asks for
  -- more.
  constructor
  · apply (hasked.1 rfl).1 rfl
    exact ⟨_, rfl, .inr ⟨_, rfl, _, rfl, .inr ⟨_, rfl, none, rfl, .inl rfl⟩⟩⟩
  · rw [hopen.2.1 rfl]
    intro h
    have hfirst := h 0 _ (Schema.mem_defaultFields_iff.2 ⟨rfl, rfl⟩)
    cases hfirst

end FieldMask
