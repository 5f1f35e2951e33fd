import FieldMask.Proofs.ExceptLemmas
import FieldMask.Proofs.GenericData
import FieldMask.Proofs.SelectionInvariant

/-!
# Projection of well-typed values

A well-formed selection projects every well-typed value that is made of records of its schema, to
generic data. For any other well-typed value the error tells that the value, or a part of it, is no
record of the schema.

The selection that is handed down with a field is bound to the nested record of the field. That the
value of the field is made of such records is what its type says.

## Key results

- `projectFields_cons`: what is shown of the first field is added, if the field is selected
- `project_total`: values made of records of the schema are projected to generic data
- `project_mismatch`: other values are refused
- `project_of_hasType`: the two together
-/

namespace FieldMask.Value

open RecordSelection (WellFormed)

variable {reg : Registry}

/-! ## Single fields -/

/-- What is shown of a field that is selected and serialized, `null` if that is nothing. -/
def shown (reg : Registry) (s : RecordSelection) (i : Nat) (f : Field) (v : Value) :
    Except Error Value :=
  if f.isHollow v then .ok null
  else if f.type.holdsAny then v.projectAny reg
  else match f.record reg with
    | some r => v.project reg ((s.selectionOf reg i f).getD (.undefined r))
    | none => .ok v.plain

/-- Of a field with a nested record the projection is shown, unless the value is passed over. -/
theorem shown_of_selectionOf {s : RecordSelection} {i : Nat} {f : Field} {r : Schema}
    {c : RecordSelection} (hr : f.record reg = some r) (hc : s.selectionOf reg i f = some c)
    (v : Value) :
    shown reg s i f v = if f.isHollow v then .ok null else v.project reg c := by
  have hany : f.type.holdsAny = false := FieldType.holdsAny_eq_false_of_recordOf hr
  rw [shown, hany, hr, hc]
  rfl

/-- The serialized name of a field that is selected. -/
def shownName? (s : RecordSelection) (i : Nat) (f : Field) : Option String :=
  if s.hasIndex i then f.json else none

/-- Add what is shown of a field, if the field is selected and serialized. -/
def addShown (reg : Registry) (s : RecordSelection) (i : Nat) (f : Field) (v : Value)
    (before : OrderedMap String Value) : Except Error (OrderedMap String Value) :=
  match shownName? s i f with
  | none => .ok before
  | some name => do
    let part ← within f.name (shown reg s i f v)
    return addProjected (!s.isUndefined) name part before

/-- A field is shown under its serialized name if it is selected. -/
theorem shownName?_eq_some_iff {s : RecordSelection} {i : Nat} {f : Field} {name : String} :
    shownName? s i f = some name ↔ s.hasIndex i = true ∧ f.json = some name := by
  rw [shownName?]
  cases s.hasIndex i <;> simp

/-- What is shown of a field is added under its serialized name, if the field is selected. -/
theorem addShown_eq_ok {s : RecordSelection} {i : Nat} {f : Field} {v : Value}
    {before after : OrderedMap String Value} (h : addShown reg s i f v before = .ok after) :
    (shownName? s i f = none ∧ after = before) ∨ ∃ name part, shownName? s i f = some name ∧
      shown reg s i f v = .ok part ∧ after = addProjected (!s.isUndefined) name part before := by
  rw [addShown] at h
  cases hname : shownName? s i f with
  | none =>
    rw [hname] at h
    cases h
    exact .inl ⟨rfl, rfl⟩
  | some name =>
    rw [hname] at h
    obtain ⟨part, hpart, hadd⟩ := bind_eq_ok_iff.1 h
    cases hadd
    exact .inr ⟨name, part, rfl, within_eq_ok_iff.1 hpart, rfl⟩

/-- What is shown of the first field is added before the others. -/
theorem projectFields_cons (s : RecordSelection) (before : OrderedMap String Value) (f : Field)
    (i : Nat) (fields : List (Field × Nat)) (v : Value) (values : List Value) :
    projectFields reg s before ((f, i) :: fields) (v :: values) =
      addShown reg s i f v before >>= fun m => projectFields reg s m fields values := by
  -- The program goes by the same tests in another order: what is passed over is never projected.
  rw [projectFields, addShown, shownName?]
  cases (if s.hasIndex i then f.json else none) with
  | none => rfl
  | some name =>
    simp only [shown, bind_assoc, pure_bind]
    by_cases hhollow : f.isHollow v
    · -- A hollow value is passed over before it is projected, with the effect of `null`.
      simp only [hhollow, if_true]
      rfl
    · by_cases hany : f.type.holdsAny
      · simp only [hhollow, hany, if_true]
        rfl
      · cases hr : f.record reg with
        | some r =>
          simp only [hhollow, hany]
          rfl
        | none =>
          -- A plain value is added as it is; it is not hollow, since the value is not.
          have hplain : v.plain.isHollow = false := by
            rw [Field.isHollow, Bool.or_eq_true, not_or, Bool.not_eq_true] at hhollow
            rw [isHollow_plain, hhollow.1]
          have hadd : addProjected (!s.isUndefined) name v.plain before =
              before.insert name v.plain := by
            rw [addProjected, hplain]
            rfl
          simp only [hhollow, hany]
          rw [← hadd]
          rfl

/-- What is shown of a field is generic data, if projection of its value is total. -/
theorem shown_total {s : RecordSelection} {i : Nat} {f : Field} {v : Value}
    (hs : s.WellFormed reg) (hf : s.record.fields[i]? = some f) (hv : v.HasType reg f.type)
    (hproject : ∀ c : RecordSelection, c.WellFormed reg → v.LeavesIn c.record →
      ∃ w, v.project reg c = .ok w ∧ w.Generic)
    (hprojectAny : ∃ w, v.projectAny reg = .ok w ∧ w.Generic) :
    ∃ w, shown reg s i f v = .ok w ∧ w.Generic := by
  rw [shown]
  split
  · exact ⟨null, rfl, trivial⟩
  · split
    · exact hprojectAny
    · rename_i hany
      have hany : f.type.holdsAny = false := Bool.eq_false_iff.2 hany
      -- The selection of the field and the value of the field agree on the record.
      obtain ⟨hbound, hchild⟩ := hs.selectionOf hf
      -- Without a nested record the value is copied, and with one it is projected by the selection
      -- of it.
      cases hr : f.record reg with
      | none =>
        exact ⟨v.plain, rfl, generic_plain (hv.recordIn?_eq_none hany hr)⟩
      | some r =>
        rw [hr] at hbound
        obtain ⟨c, hc, hcr⟩ := Option.map_eq_some_iff.1 hbound
        have hleaves : v.LeavesIn c.record := hcr ▸ hv.leavesIn hany hr
        simp only [hc, Option.getD_some]
        exact hproject c (hchild c hc) hleaves

/-- Adding what is shown of a field keeps an object generic. -/
theorem addShown_total {s : RecordSelection} {i : Nat} {f : Field} {v : Value}
    {before : OrderedMap String Value} (hbefore : EntriesGeneric before)
    (hshown : ∃ w, shown reg s i f v = .ok w ∧ w.Generic) :
    ∃ m, addShown reg s i f v before = .ok m ∧ EntriesGeneric m := by
  obtain ⟨w, hw, hgeneric⟩ := hshown
  rw [addShown]
  cases shownName? s i f with
  | none => exact ⟨before, rfl, hbefore⟩
  | some name =>
    refine ⟨addProjected (!s.isUndefined) name w before, ?_, hbefore.addProjected hgeneric _ name⟩
    simp only [hw]
    rfl

/-! ## What is projected -/

mutual

/-- A well-typed value that is made of records of the schema is projected to generic data. -/
theorem project_total : ∀ v : Value, v.HasType reg .any → ∀ s : RecordSelection,
    s.WellFormed reg → v.LeavesIn s.record → ∃ w, v.project reg s = .ok w ∧ w.Generic
  | .null, _, _, _, _ => ⟨null, rfl, trivial⟩
  | .ref target, hv, s, hs, hleaves => project_total target hv s hs hleaves
  | .bool _, _, _, _, hleaves => nomatch hleaves
  | .number _, _, _, _, hleaves => nomatch hleaves
  | .string _, _, _, _, hleaves => nomatch hleaves
  | .array items, hv, s, hs, hleaves => by
    obtain ⟨ws, hws, hgeneric⟩ := projectItems_total items hv.items s 0 hs hleaves
    exact ⟨array ws, by rw [project, hws]; rfl, hgeneric⟩
  | .object entries, hv, s, hs, hleaves => by
    obtain ⟨m, hm, hgeneric⟩ := projectEntries_total entries hv.entries s hs hleaves
    exact ⟨object m, by rw [project, hm]; rfl, hgeneric⟩
  | .record schema values, hv, s, hs, hleaves => by
    -- The fields of the value are those that the selection knows by index.
    have hrecord : schema = s.record := hleaves
    have hfields : ∀ p ∈ schema.fields.zipIdx, s.record.fields[p.2]? = some p.1 := fun p hp =>
      hrecord ▸ List.mem_zipIdx_iff_getElem?.1 hp
    obtain ⟨m, hm, hgeneric⟩ :=
      projectFields_total values schema.fields.zipIdx hv.zipIdx s hs hfields .nil trivial
    exact ⟨object m, by rw [project, if_pos hrecord, hm]; rfl, hgeneric⟩
termination_by structural v => v

/-- Items that are made of records of the schema are projected to generic data. -/
theorem projectItems_total : ∀ l : List Value, ItemsHaveType reg l .any →
    ∀ (s : RecordSelection) (index : Nat), s.WellFormed reg → ItemsLeavesIn s.record l →
      ∃ ws, projectItems reg s index l = .ok ws ∧ AllGeneric ws
  | [], _, _, _, _, _ => ⟨[], rfl, trivial⟩
  | v :: rest, hv, s, index, hs, hleaves => by
    obtain ⟨w, hw, hwg⟩ := project_total v hv.1 s hs hleaves.1
    obtain ⟨ws, hws, hwsg⟩ := projectItems_total rest hv.2 s (index + 1) hs hleaves.2
    exact ⟨w :: ws, by rw [projectItems, hw, hws]; rfl, hwg, hwsg⟩
termination_by structural l => l

/-- Values of a map that are made of records of the schema are projected to generic data. -/
theorem projectEntries_total {bound : Option String} :
    ∀ m : Entries String Value bound, EntriesHaveType reg m .any →
      ∀ s : RecordSelection, s.WellFormed reg → EntriesLeavesIn s.record m →
        ∃ ms, projectEntries reg s m = .ok ms ∧ EntriesGeneric ms
  | .nil, _, _, _, _ => ⟨.nil, rfl, trivial⟩
  | .cons key v above rest, hv, s, hs, hleaves => by
    obtain ⟨w, hw, hwg⟩ := project_total v hv.1 s hs hleaves.1
    obtain ⟨ms, hms, hmsg⟩ := projectEntries_total rest hv.2 s hs hleaves.2
    exact ⟨.cons key w above ms, by rw [projectEntries, hw, hms]; rfl, hwg, hmsg⟩
termination_by structural m => m

/-- Fields of a record with values of their types are shown as generic data. -/
theorem projectFields_total : ∀ values : List Value, ∀ fields : List (Field × Nat),
    FieldsHaveTypes reg values (fields.map Prod.fst) → ∀ s : RecordSelection, s.WellFormed reg →
      (∀ p ∈ fields, s.record.fields[p.2]? = some p.1) →
        ∀ before : OrderedMap String Value, EntriesGeneric before →
          ∃ m, projectFields reg s before fields values = .ok m ∧ EntriesGeneric m
  | [], _, _, _, _, _, before, hbefore => ⟨before, rfl, hbefore⟩
  | _ :: _, [], h, _, _, _, _, _ => nomatch h
  | v :: values, (f, i) :: fields, h, s, hs, hfields, before, hbefore => by
    obtain ⟨hf, hmore⟩ := List.forall_mem_cons.1 hfields
    -- The value of the first field is smaller than the record, so it is projected by induction.
    have hshown := shown_total hs hf h.1 (project_total v h.1.any) (projectAny_total v h.1.any)
    obtain ⟨m, hm, hgeneric⟩ := addShown_total hbefore hshown
    rw [projectFields_cons, hm]
    exact projectFields_total values fields h.2 s hs hmore m hgeneric
termination_by structural values => values

/-- A well-typed value of any type is projected in full, to generic data. -/
theorem projectAny_total : ∀ v : Value, v.HasType reg .any →
    ∃ w, v.projectAny reg = .ok w ∧ w.Generic
  | .null, _ => ⟨null, rfl, trivial⟩
  | .bool b, _ => ⟨bool b, rfl, trivial⟩
  | .number n, _ => ⟨number n, rfl, trivial⟩
  | .string s, _ => ⟨string s, rfl, trivial⟩
  | .ref target, hv => projectAny_total target hv
  | .array items, hv => by
    obtain ⟨ws, hws, hgeneric⟩ := projectAnyItems_total items hv.items
    exact ⟨array ws, by rw [projectAny, hws]; rfl, hgeneric⟩
  | .object entries, hv => by
    obtain ⟨m, hm, hgeneric⟩ := projectAnyEntries_total entries hv.entries
    exact ⟨object m, by rw [projectAny, hm]; rfl, hgeneric⟩
  | .record schema values, hv => by
    -- The record brings its own schema, and is selected by its default fields.
    obtain ⟨m, hm, hgeneric⟩ :=
      projectFields_total values schema.fields.zipIdx hv.zipIdx (.undefined schema) trivial
        (fun p hp => List.mem_zipIdx_iff_getElem?.1 hp) .nil trivial
    exact ⟨object m, by rw [projectAny, hm]; rfl, hgeneric⟩
termination_by structural v => v

/-- Items of any type are projected in full, to generic data. -/
theorem projectAnyItems_total : ∀ l : List Value, ItemsHaveType reg l .any →
    ∃ ws, projectAnyItems reg l = .ok ws ∧ AllGeneric ws
  | [], _ => ⟨[], rfl, trivial⟩
  | v :: rest, hv => by
    obtain ⟨w, hw, hwg⟩ := projectAny_total v hv.1
    obtain ⟨ws, hws, hwsg⟩ := projectAnyItems_total rest hv.2
    exact ⟨w :: ws, by rw [projectAnyItems, hw, hws]; rfl, hwg, hwsg⟩
termination_by structural l => l

/-- Values of a map of any type are projected in full, to generic data. -/
theorem projectAnyEntries_total {bound : Option String} :
    ∀ m : Entries String Value bound, EntriesHaveType reg m .any →
      ∃ ms, projectAnyEntries reg m = .ok ms ∧ EntriesGeneric ms
  | .nil, _ => ⟨.nil, rfl, trivial⟩
  | .cons key v above rest, hv => by
    obtain ⟨w, hw, hwg⟩ := projectAny_total v hv.1
    obtain ⟨ms, hms, hmsg⟩ := projectAnyEntries_total rest hv.2
    exact ⟨.cons key w above ms, by rw [projectAnyEntries, hw, hms]; rfl, hwg, hmsg⟩
termination_by structural m => m

end

/-! ## What is refused -/

mutual

/-- Any other well-typed value is refused: a part of it is no record of the schema. -/
theorem project_mismatch : ∀ v : Value, v.HasType reg .any → ∀ s : RecordSelection,
    s.WellFormed reg → ¬ v.LeavesIn s.record →
      ∃ e actual, v.project reg s = .error e ∧ e.cause = .typeMismatch s.record.name actual
  | .null, _, _, _, hleaves => absurd trivial hleaves
  | .ref target, hv, s, hs, hleaves => project_mismatch target hv s hs hleaves
  | .bool _, _, _, _, _ => ⟨_, _, rfl, rfl⟩
  | .number _, _, _, _, _ => ⟨_, _, rfl, rfl⟩
  | .string _, _, _, _, _ => ⟨_, _, rfl, rfl⟩
  | .array items, hv, s, hs, hleaves => by
    obtain ⟨e, actual, he, hcause⟩ := projectItems_mismatch items hv.items s 0 hs hleaves
    exact ⟨e, actual, by rw [project, he]; rfl, hcause⟩
  | .object entries, hv, s, hs, hleaves => by
    obtain ⟨e, actual, he, hcause⟩ := projectEntries_mismatch entries hv.entries s hs hleaves
    exact ⟨e, actual, by rw [project, he]; rfl, hcause⟩
  | .record schema values, _, s, _, hleaves => by
    have hrecord : ¬ schema = s.record := hleaves
    exact ⟨recordMismatch s.record schema.name, schema.name, by rw [project, if_neg hrecord], rfl⟩
termination_by structural v => v

/-- An item that is no record of the schema is refused. -/
theorem projectItems_mismatch : ∀ l : List Value, ItemsHaveType reg l .any →
    ∀ (s : RecordSelection) (index : Nat), s.WellFormed reg → ¬ ItemsLeavesIn s.record l →
      ∃ e actual, projectItems reg s index l = .error e ∧
        e.cause = .typeMismatch s.record.name actual
  | [], _, _, _, _, hleaves => absurd trivial hleaves
  | v :: rest, hv, s, index, hs, hleaves => by
    by_cases hfirst : v.LeavesIn s.record
    · -- The first item is projected, so that one of the others is refused.
      obtain ⟨w, hw, -⟩ := project_total v hv.1 s hs hfirst
      have hrest : ¬ ItemsLeavesIn s.record rest := fun h => hleaves ⟨hfirst, h⟩
      obtain ⟨e, actual, he, hcause⟩ := projectItems_mismatch rest hv.2 s (index + 1) hs hrest
      exact ⟨e, actual, by rw [projectItems, hw, he]; rfl, hcause⟩
    -- The first item is refused, and the error is seen from its index.
    · obtain ⟨e, actual, he, hcause⟩ := project_mismatch v hv.1 s hs hfirst
      exact ⟨e.under (toString index), actual, by rw [projectItems, he]; rfl, hcause⟩
termination_by structural l => l

/-- A value of a map that is no record of the schema is refused. -/
theorem projectEntries_mismatch {bound : Option String} :
    ∀ m : Entries String Value bound, EntriesHaveType reg m .any →
      ∀ s : RecordSelection, s.WellFormed reg → ¬ EntriesLeavesIn s.record m →
        ∃ e actual, projectEntries reg s m = .error e ∧
          e.cause = .typeMismatch s.record.name actual
  | .nil, _, _, _, hleaves => absurd trivial hleaves
  | .cons key v above rest, hv, s, hs, hleaves => by
    by_cases hfirst : v.LeavesIn s.record
    · obtain ⟨w, hw, -⟩ := project_total v hv.1 s hs hfirst
      have hrest : ¬ EntriesLeavesIn s.record rest := fun h => hleaves ⟨hfirst, h⟩
      obtain ⟨e, actual, he, hcause⟩ := projectEntries_mismatch rest hv.2 s hs hrest
      exact ⟨e, actual, by rw [projectEntries, hw, he]; rfl, hcause⟩
    · obtain ⟨e, actual, he, hcause⟩ := project_mismatch v hv.1 s hs hfirst
      exact ⟨e.under key, actual, by rw [projectEntries, he]; rfl, hcause⟩
termination_by structural m => m

end

/-- What is projected is made of records of the schema. -/
theorem leavesIn_of_project {s : RecordSelection} {v w : Value} (hs : s.WellFormed reg)
    (hv : v.HasType reg .any) (h : v.project reg s = .ok w) : v.LeavesIn s.record := by
  by_contra hleaves
  obtain ⟨e, actual, he, -⟩ := project_mismatch v hv s hs hleaves
  rw [h] at he
  cases he

/-- A well-formed selection projects a well-typed value exactly if nothing but `null` and records
    of its schema is reached through pointers, arrays and objects. What it yields is generic
    data, and an error tells that the schema was expected. -/
theorem project_of_hasType {s : RecordSelection} {v : Value} (hs : s.WellFormed reg)
    (hv : v.HasType reg .any) :
    ((∃ w, v.project reg s = .ok w) ↔ v.LeavesIn s.record) ∧
    (∀ w, v.project reg s = .ok w → w.Generic) ∧
    ∀ e, v.project reg s = .error e → ∃ actual, e.cause = .typeMismatch s.record.name actual := by
  refine ⟨⟨?_, ?_⟩, ?_, ?_⟩
  -- Each part follows from the totality on values made of such records and the mismatch on all
  -- others.
  · rintro ⟨w, hw⟩
    exact leavesIn_of_project hs hv hw
  · intro hleaves
    obtain ⟨w, hw, -⟩ := project_total v hv s hs hleaves
    exact ⟨w, hw⟩
  · intro w hw
    obtain ⟨w', hw', hgeneric⟩ := project_total v hv s hs (leavesIn_of_project hs hv hw)
    rw [hw] at hw'
    cases hw'
    exact hgeneric
  · intro e he
    have hleaves : ¬ v.LeavesIn s.record := by
      intro hleaves
      obtain ⟨w, hw, -⟩ := project_total v hv s hs hleaves
      rw [he] at hw
      cases hw
    obtain ⟨e', actual, he', hcause⟩ := project_mismatch v hv s hs hleaves
    rw [he] at he'
    cases he'
    exact ⟨actual, hcause⟩

/-- A list of a node is projected; with a text in the list it is refused. -/
theorem project_of_hasType_inner :
    (∃ w, (array [inner]).project Registry.ofNode RecordSelection.sampleOfNode = .ok w) ∧
    ¬ ∃ w, (array [inner, string "text"]).project Registry.ofNode RecordSelection.sampleOfNode =
      .ok w := by
  have hone : (array [inner]).HasType Registry.ofNode .any := ⟨_, rfl, hasType_inner, trivial⟩
  have hboth : (array [inner, string "text"]).HasType Registry.ofNode .any :=
    ⟨_, rfl, hasType_inner, .inl rfl, trivial⟩
  have hs := RecordSelection.wellFormed_sampleOfNode
  refine ⟨(project_of_hasType hs hone).1.2 ⟨rfl, trivial⟩, fun h => ?_⟩
  exact ((project_of_hasType hs hboth).1.1 h).2.1

end FieldMask.Value
