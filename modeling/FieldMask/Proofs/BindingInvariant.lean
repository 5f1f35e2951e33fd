import FieldMask.Proofs.SelectionOperations

/-!
# Binding keeps selections well-formed

What is bound to a record is a well-formed selection of it, from whatever query it was bound. A
selection that the query holds is taken as it is, so that one has to be well-formed already. The
operations that bind a query first make no misuse of what they call with it.

## Key results

- `ofNames_isOf` / `ofQuery_isOf` / `fits_of_bind`: what is bound to a record or to a field
- `pickQuery_meets`, `excludeQuery_meets`, `assignQuery_meets`: operations with a query
- `setField_meets` / `assignToField_meets`: operations on the field at an index
- `expandWithin_isOf` / `expandNested_isOf`: expanding defaults
-/

namespace FieldMask

variable {reg : Registry}

/-- A field that is found is one of the schema. -/
theorem Schema.getElem?_of_lookup? {s : Schema} {name : String} {i : Nat} {f : Field}
    (h : s.lookup? name = some (i, f)) : s.fields[i]? = some f := by
  obtain ⟨j, -, h⟩ := Option.bind_eq_some_iff.1 h
  obtain ⟨g, hg, heq⟩ := Option.bind_eq_some_iff.1 h
  cases heq
  exact hg

/-- The index of a name is that of the field that is found under it. -/
theorem Schema.indexOf?_of_lookup? {s : Schema} {name : String} {i : Nat} {f : Field}
    (h : s.lookup? name = some (i, f)) : s.indexOf? name = some i := by
  rw [indexOf?_eq_map_lookup?, h, Option.map_some]

/-- A name that is looked up with an error if it is not declared is found. -/
theorem Schema.lookup?_of_resolveName {s : Schema} {name : String} {i : Nat} {f : Field}
    (h : s.resolveName name = .ok (i, f)) : s.lookup? name = some (i, f) := by
  rw [resolveName] at h
  split at h
  · rename_i hlookup
    cases h
    exact hlookup
  · cases h

/-- A name that is resolved stands for a field of the record. -/
theorem Schema.getElem?_of_resolveName {s : Schema} {name : String} {i : Nat} {f : Field}
    (h : s.resolveName name = .ok (i, f)) : s.fields[i]? = some f :=
  getElem?_of_lookup? (lookup?_of_resolveName h)

mutual

/-- A query holds no selection of a record, at any depth, but a well-formed one. -/
def Query.Sound (reg : Registry) : Query → Prop
  | .map entries => SoundEach reg entries
  | .ofRecord s => s.WellFormed reg
  | _ => True
termination_by structural query => query

/-- So do the queries of a map. -/
def Query.SoundEach {bound : Option String} (reg : Registry) : Entries String Query bound → Prop
  | .nil => True
  | .cons _ query _ rest => query.Sound reg ∧ SoundEach reg rest
termination_by structural entries => entries

end

/-- The queries of a map hold well-formed selections exactly if each of them does. -/
theorem Query.soundEach_iff {bound : Option String} {entries : Entries String Query bound} :
    SoundEach reg entries ↔ ∀ p ∈ entries.toList, p.2.Sound reg := by
  induction entries with
  | nil => simp [SoundEach]
  | cons name query above rest ih => simp [SoundEach, ih]

namespace RecordSelection

/-! ## Binding -/

mutual

/-- What is bound by names is a well-formed selection of the record. -/
theorem ofNames_isOf : ∀ (names : NameSelection) (record : Schema) (s : RecordSelection),
    ofNames reg record names = .ok s → IsOf reg record s
  | .undefined, record, s, h => by
    cases h
    exact ⟨rfl, trivial⟩
  | .defined fields, record, s, h => by
    rw [ofNames] at h
    obtain ⟨⟨bound, unknown⟩, hbound, h⟩ := bind_eq_ok_iff.1 h
    simp only at h
    split at h
    · cases h
      exact ⟨rfl, wellFormed_ofList (ofNamesEach_fits fields record bound unknown hbound)⟩
    · cases h
termination_by structural names => names

/-- What is found for the names of a record fits the fields at its indices. -/
theorem ofNamesEach_fits {bound : Option String} :
    ∀ (fields : Entries String NameSelection bound) (record : Schema)
      (found : List (Nat × Option RecordSelection)) (unknown : List String),
      ofNamesEach reg record fields = .ok (found, unknown) → ∀ p ∈ found, Fits reg record p.1 p.2
  | .nil, record, found, unknown, h, p, hp => by
    cases h
    cases hp
  | .cons name child _ rest, record, found, unknown, h, p, hp => by
    rw [ofNamesEach] at h
    cases hlookup : record.lookup? name with
    -- A name that is not declared is passed over, and adds no field.
    | none =>
      simp only [hlookup] at h
      obtain ⟨⟨found', unknown'⟩, hrest, h⟩ := bind_eq_ok_iff.1 h
      cases h
      exact ofNamesEach_fits rest record found' unknown' hrest p hp
    | some entry =>
      obtain ⟨i, f⟩ := entry
      have hf := Schema.getElem?_of_lookup? hlookup
      simp only [hlookup] at h
      obtain ⟨nested, hnested, h⟩ := bind_eq_ok_iff.1 h
      obtain ⟨⟨found', unknown'⟩, hrest, h⟩ := bind_eq_ok_iff.1 h
      cases h
      rcases List.mem_cons.1 hp with rfl | hp
      -- The field has been found, so what it is bound to fits it, with a nested record or without.
      · rw [within_eq_ok_iff] at hnested
        cases hr : f.record reg with
        | none =>
          simp only [hr] at hnested
          split at hnested
          · cases hnested
            exact fits_none hf hr
          · cases hnested
        | some r =>
          simp only [hr] at hnested
          obtain ⟨c, hc, heq⟩ := bind_eq_ok_iff.1 hnested
          cases heq
          exact fits_some hf hr (ofNames_isOf child r c hc)
      · exact ofNamesEach_fits rest record found' unknown' hrest p hp
termination_by structural fields => fields

end

/-- What is bound by a query is a well-formed selection of the record. -/
theorem ofQuery_isOf {record : Schema} {query : Query} {s : RecordSelection}
    (hq : query.Sound reg) (h : ofQuery reg record query = .ok s) : IsOf reg record s := by
  have hnames : ∀ names : NameSelection, ofNames reg record names = .ok s → IsOf reg record s :=
    fun names => ofNames_isOf names record s
  cases query with
  | ofRecord t =>
    rw [ofQuery] at h
    split at h
    · cases h
      exact ⟨rfl, trivial⟩
    · split at h
      · rename_i hrecord
        cases h
        exact ⟨hrecord, hq⟩
      · cases h
  | _ =>
    -- Any other query is read as a selection by name first.
    obtain ⟨names, -, h⟩ := bind_eq_ok_iff.1 h
    exact hnames names h

/-- What is bound to a field fits it. -/
theorem fits_of_bind {record : Schema} {i : Nat} {f : Field} {query : Query}
    {child : Option RecordSelection} (hf : record.fields[i]? = some f) (hq : query.Sound reg)
    (h : f.bind reg query = .ok child) : Fits reg record i child := by
  rw [Field.bind, within_eq_ok_iff] at h
  -- A field without a nested record takes nothing but an open query.
  cases hr : f.record reg with
  | none =>
    simp only [hr] at h
    obtain ⟨names, -, h⟩ := bind_eq_ok_iff.1 h
    split at h
    · cases h
      exact fits_none hf hr
    · cases h
  | some r =>
    simp only [hr] at h
    obtain ⟨c, hc, heq⟩ := bind_eq_ok_iff.1 h
    cases heq
    exact fits_some hf hr (ofQuery_isOf hq hc)

/-! ## Operations with a query -/

/-- An operation on selections of one record makes no misuse of what is bound by a query. -/
theorem bindQuery_meets {record : Schema} {query : Query} (hq : query.Sound reg)
    {op : RecordSelection → Except Misuse RecordSelection}
    (hop : ∀ q, IsOf reg record q → ∃ t, op q = .ok t ∧ IsOf reg record t) :
    Meets (IsOf reg record) (do
      let q ← ofQuery reg record query
      op q : Except Failure RecordSelection) :=
  (meets_of_error fun _ hbound => ofQuery_isOf hq hbound).bind fun q hof =>
    meets_of_misuse (hop q hof)

/-- A field whose index exists can be looked up. -/
theorem fieldAt_meets {record : Schema} {i : Nat} (hi : i < record.fields.length) :
    Meets (fun f => record.fields[i]? = some f) (liftM (record.fieldAt i)) := by
  have hf := List.getElem?_eq_getElem hi
  exact meets_of_misuse ⟨_, Schema.fieldAt_eq_ok_iff.2 hf, hf⟩

section Queries

variable {s : RecordSelection} {query : Query} (hs : s.WellFormed reg) (hq : query.Sound reg)

include hs hq

/-- What is selected and asked for by a query is no misuse, and a selection of the record. -/
theorem pickQuery_meets : Meets (IsOf reg s.record) (s.pickQuery reg query) :=
  bindQuery_meets hq fun q hof => pick_total q s hof.2 hs hof.1

/-- Neither is what is selected and not named by a query. -/
theorem excludeQuery_meets : Meets (IsOf reg s.record) (s.excludeQuery reg query) :=
  bindQuery_meets hq fun q hof => exclude_total q s hof.2 hs hof.1

/-- Nor is what is selected or asked for by a query. -/
theorem assignQuery_meets : Meets (IsOf reg s.record) (s.assignQuery reg query) :=
  bindQuery_meets hq fun q hof => assign_total q s hof.2 hs hof.1

/-! ### The field at an index -/

/-- The field at an index can be named with what a query asks for. -/
theorem setField_meets {i : Nat} (hi : i < s.record.fields.length) :
    Meets (IsOf reg s.record) (s.setField reg i query) := by
  refine (fieldAt_meets hi).bind fun f hf => ?_
  refine (meets_of_error fun child hchild => fits_of_bind hf hq hchild).bind fun child hfits => ?_
  exact ⟨rfl, hs.put hfits⟩

/-- The field at an index can be named with what a query asks for in addition. -/
theorem assignToField_meets {i : Nat} (hi : i < s.record.fields.length) :
    Meets (IsOf reg s.record) (s.assignToField reg i query) := by
  refine (fieldAt_meets hi).bind fun f hf => ?_
  refine (meets_of_error fun child hchild => fits_of_bind hf hq hchild).bind fun child hfits => ?_
  have hput : ∀ c, Fits reg s.record i c → Meets (IsOf reg s.record)
      (pure (s.put i c) : Except Failure RecordSelection) := fun c hc => ⟨rfl, hs.put hc⟩
  -- Only where both selections name the nested record are they put together.
  cases hget : s.explicit? i with
  | none => exact hput child hfits
  | some current =>
    have hcurrent := hs.fits hget
    cases current with
    | none => exact hput child hfits
    | some current =>
      cases child with
      | none => exact hput none hfits
      | some other =>
        simp only
        split
        · exact hput (some current) hcurrent
        · split
          · exact hput (some other) hfits
          · -- Both are selections of the nested record.
            obtain ⟨both, hboth, hrecord, hof⟩ := assign_total other current hfits.child
              hcurrent.child (hfits.record_eq hcurrent)
            simp only [hboth]
            exact hput (some both) (hcurrent.of_record_eq hrecord hof)

end Queries

/-- An operation that looks a field up gives something only if the field exists. -/
theorem lt_of_fieldAt {record : Schema} {i : Nat} {β : Type} {rest : Field → Except Failure β}
    {b : β} (h : (liftM (record.fieldAt i) >>= rest) = .ok b) : i < record.fields.length := by
  by_contra hi
  rw [Schema.fieldAt, List.getElem?_eq_none (Nat.not_lt.1 hi)] at h
  cases h

/-- The selection of a field is well-formed. -/
theorem WellFormed.fieldSelection {s child : RecordSelection} (hs : s.WellFormed reg) {i : Nat}
    (h : s.fieldSelection reg i = .ok (some child)) : child.WellFormed reg := by
  obtain ⟨f, hf, heq⟩ := bind_eq_ok_iff.1 h
  exact (hs.selectionOf (Schema.fieldAt_eq_ok_iff.1 hf)).2 child (Except.ok.inj heq)

/-- A selection that is bound to another record is a well-formed selection of it. -/
theorem WellFormed.toRecord {s t : RecordSelection} (hs : s.WellFormed reg) {record : Schema}
    (h : s.toRecord reg record = .ok t) : IsOf reg record t := by
  rw [RecordSelection.toRecord] at h
  split at h
  · rename_i hrecord
    cases h
    exact ⟨hrecord, hs⟩
  · split at h
    · cases h
      exact ⟨rfl, trivial⟩
    · exact ofNames_isOf _ record t h

/-! ## Expanding defaults -/

/-- What holds of the expansion of a record if it holds of those of its nested records that are
    expanded holds of every expansion. -/
theorem expandWithin_induction (reg : Registry) {motive : List Schema → Schema → Prop}
    (step : ∀ expanding record,
      (∀ i f nested, (i, f) ∈ record.defaultFields → f.record reg = some nested →
        nested.hasMarkers = true → nested ∉ expanding → motive (nested :: expanding) nested) →
      motive expanding record) (expanding : List Schema) (record : Schema) :
    motive expanding record := by
  -- By well-founded recursion: a nested record is expanded that is registered and is not among
  -- those being expanded, or that is a part of the record itself.
  refine step expanding record fun i f nested hf hn hmarkers hnew => ?_
  have := Field.mem_values_or_sizeOf_lt (Schema.mem_fields_of_mem_defaultFields hf) hn
  exact expandWithin_induction reg step (nested :: expanding) nested
termination_by ((reg.recordsOutside expanding).length, sizeOf record)
decreasing_by
  rcases this with registered | lt
  · exact .left _ _ (Registry.length_recordsOutside_cons_lt registered hnew)
  · exact .right' _ (reg.length_recordsOutside_cons_le nested expanding) lt

/-- The selection of a nested record in the expansion of a record. -/
def expandedChild (reg : Registry) (expanding : List Schema) (nested : Schema) :
    RecordSelection :=
  if nested.hasMarkers ∧ nested ∉ expanding then expandWithin reg (nested :: expanding) nested
  else undefined nested

/-- The expansion of a record, with each nested record expanded or left open. -/
theorem expandWithin_eq_expandedChild (expanding : List Schema) (record : Schema) :
    expandWithin reg expanding record =
      defined record (Entries.ofList (record.defaultFields.map fun (i, f) =>
        (i, (f.record reg).map (expandedChild reg expanding)))) :=
  expandWithin_eq reg expanding record

/-- The expansion of a record is a well-formed selection of it. -/
theorem expandWithin_isOf (expanding : List Schema) (record : Schema) :
    IsOf reg record (expandWithin reg expanding record) := by
  -- The invariant of the expansion is that it is a well-formed selection of its record.
  refine expandWithin_induction reg (motive := fun expanding record =>
    IsOf reg record (expandWithin reg expanding record)) (fun expanding record ih => ?_)
    expanding record
  rw [expandWithin_eq_expandedChild]
  refine ⟨rfl, wellFormed_ofList fun p hp => ?_⟩
  obtain ⟨⟨i, f⟩, hmem, rfl⟩ := List.mem_map.1 hp
  refine fits_map_record (Schema.mem_defaultFields_iff.1 hmem).1 fun nested hn => ?_
  rw [expandedChild]
  split
  · rename_i hmarked
    exact ih i f nested hmem hn hmarked.1 hmarked.2
  · exact ⟨rfl, trivial⟩

/-- So is the expansion inside records that are being expanded, whether it goes on there or not. -/
theorem expandInside_isOf (outer : List Schema) (record : Schema) :
    IsOf reg record (expandInside reg outer record) := by
  rw [expandInside]
  split
  · exact ⟨rfl, trivial⟩
  · exact expandWithin_isOf (record :: outer) record

mutual

/-- Expanding what is left open below the root keeps a selection well-formed. -/
theorem expandNested_isOf : ∀ (s : RecordSelection) (outer : List Schema), s.WellFormed reg →
    IsOf reg s.record (s.expandNested reg outer)
  | undefined _, _, _ => ⟨rfl, trivial⟩
  | defined record fields, outer, hs => ⟨rfl, expandEach_wellFormed fields (record :: outer) hs⟩
termination_by structural s => s

/-- Expanding what is left open in the fields of a record keeps them well-formed. -/
theorem expandEach_wellFormed {record : Schema} {bound : Option Nat} :
    ∀ (fields : Entries Nat (Option RecordSelection) bound) (outer : List Schema),
      WellFormedEach reg record fields → WellFormedEach reg record (expandEach reg outer fields)
  | .nil, _, _ => trivial
  | .cons i none _ rest, outer, h => by
    obtain ⟨hfits, hrest⟩ := wellFormedEach_cons.1 h
    exact wellFormedEach_cons.2 ⟨hfits, expandEach_wellFormed rest outer hrest⟩
  | .cons i (some child) _ rest, outer, h => by
    obtain ⟨hfits, hrest⟩ := wellFormedEach_cons.1 h
    rw [expandEach]
    refine wellFormedEach_cons.2 ⟨?_, expandEach_wellFormed rest outer hrest⟩
    obtain ⟨hrecord, hwell⟩ := expandNested_isOf child outer hfits.child
    obtain ⟨hrecord', hwell'⟩ : IsOf reg child.record (expandInside reg outer child.record) :=
      expandInside_isOf outer child.record
    -- The child is left open and marked, left open and unmarked, or expanded below.
    split
    · split
      · exact hfits.of_record_eq hrecord' hwell'
      · exact hfits
    · exact hfits.of_record_eq hrecord hwell
termination_by structural fields => fields

end

/-- The selection of a field where what is left open is spelt out, inside some records that are
    being spelt out already. -/
def expanded (reg : Registry) (outer : List Schema) (s : RecordSelection) : RecordSelection :=
  if s.isUndefined then
    if s.record.hasMarkers then expandInside reg outer s.record else s
  else s.expandNested reg outer

/-- What is left open is spelt out field by field. -/
theorem get?_expandEach (outer : List Schema) {bound : Option Nat}
    (fields : Entries Nat (Option RecordSelection) bound) (i : Nat) :
    (expandEach reg outer fields).get? i =
      (fields.get? i).map (Option.map (expanded reg outer)) := by
  induction fields with
  | nil => rfl
  | cons j child above rest ih =>
    cases child <;> rw [expandEach, Entries.get?_cons, Entries.get?_cons, ih] <;> split <;> rfl

end RecordSelection

end FieldMask
