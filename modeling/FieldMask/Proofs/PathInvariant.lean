import FieldMask.Path.Segments
import FieldMask.Proofs.BindingInvariant

/-!
# Well-formed paths

The indices of a path lead through nested records: each is one of a field of the record reached so
far, and only the last field may have no nested record. A tail is a well-formed selection of the
record at the end. Whatever segments a path is put together from, it is well-formed, and nothing
that is done with it looks up an index that does not exist.

## Key results

- `Leads.walk`: the fields along indices that lead somewhere
- `RecordPath.ofSegments_meets` / `RecordPath.assignTail_meets`: how paths come about
- `RecordPath.toSelection_total`: the selection of the end of a path is well-formed
- `RecordPath.selectionAt_total`: so is the part of a selection that is found there
-/

namespace FieldMask

variable {reg : Registry}

open RecordSelection (IsOf fits_some fits_none)

/-- Indices lead from a record, through the nested records of fields, to the nested record of the
    last field, if it has one. -/
inductive Leads (reg : Registry) : Schema → List Nat → Option Schema → Prop where
  | nil (record : Schema) : Leads reg record [] (some record)
  | last {record : Schema} {i : Nat} {f : Field} (found : record.fields[i]? = some f)
      (leaf : f.record reg = none) : Leads reg record [i] none
  | cons {record next : Schema} {i : Nat} {f : Field} {rest : List Nat} {target : Option Schema}
      (found : record.fields[i]? = some f) (nested : f.record reg = some next)
      (more : Leads reg next rest target) : Leads reg record (i :: rest) target

namespace RecordPath

variable {record next : Schema} {i : Nat} {f : Field}

/-- A walk ends at a field without a nested record. -/
theorem walkFrom_of_leaf (found : record.fields[i]? = some f) (leaf : f.record reg = none)
    (rest : List Nat) : walkFrom reg record (i :: rest) = .ok [(record, i, f)] := by
  -- The walk looks the field up, and without a nested record it goes no further.
  simp only [walkFrom, Schema.fieldAt_eq_ok_iff.2 found, leaf, bind, Except.bind]
  rfl

/-- Behind a field with a nested record a walk goes on. -/
theorem walkFrom_of_nested (found : record.fields[i]? = some f) (nested : f.record reg = some next)
    (rest : List Nat) : walkFrom reg record (i :: rest) =
      do return (record, i, f) :: (← walkFrom reg next rest) := by
  simp only [walkFrom, Schema.fieldAt_eq_ok_iff.2 found, nested, bind, Except.bind]

end RecordPath

namespace Leads

/-- A path goes on to a field of the record at its end. -/
theorem concat {record here : Schema} {indices : List Nat} {i : Nat} {f : Field}
    (h : Leads reg record indices (some here)) (hf : here.fields[i]? = some f) :
    Leads reg record (indices ++ [i]) (f.record reg) := by
  -- By induction on the indices, with the record at their end kept as an equation.
  generalize htarget : some here = target at h
  induction h with
  | nil record =>
    cases htarget
    cases hr : f.record reg with
    | none => exact .last hf hr
    | some next => exact .cons hf hr (.nil next)
  | last found leaf => cases htarget
  | cons found nested more ih => exact .cons found nested (ih htarget)

/-- The fields along indices that lead somewhere can all be looked up. The last of them has the
    nested record that they lead to. -/
theorem walk {record : Schema} {indices : List Nat} {target : Option Schema}
    (h : Leads reg record indices target) :
    ∃ steps, RecordPath.walkFrom reg record indices = .ok steps ∧
      (steps = [] ∧ target = some record ∨
        ∃ step, steps.getLast? = some step ∧ step.2.2.record reg = target) := by
  induction h with
  | nil record => exact ⟨[], rfl, .inl ⟨rfl, rfl⟩⟩
  | @last record i f found leaf =>
    exact ⟨[(record, i, f)], RecordPath.walkFrom_of_leaf found leaf [],
      .inr ⟨(record, i, f), rfl, leaf⟩⟩
  | @cons record next i f rest target found nested more ih =>
    obtain ⟨steps, hsteps, hlast⟩ := ih
    refine ⟨(record, i, f) :: steps, ?_, .inr ?_⟩
    · rw [RecordPath.walkFrom_of_nested found nested, hsteps]
      rfl
    -- The last step is that of the rest, unless there is no rest.
    · obtain ⟨rfl, rfl⟩ | ⟨step, hstep, htarget⟩ := hlast
      · exact ⟨(record, i, f), rfl, nested⟩
      · refine ⟨step, ?_, htarget⟩
        rw [List.getLast?_cons, hstep]
        rfl

end Leads

namespace RecordPath

/-- A tail is a well-formed selection of the record at the end of a path. -/
def TailFits (reg : Registry) (target : Option Schema) (tail : Option RecordSelection) : Prop :=
  ∀ t ∈ tail, ∃ record, target = some record ∧ IsOf reg record t

/-- The indices of a path lead somewhere, and its tail is a selection of what is there. -/
def WellFormed (reg : Registry) (p : RecordPath) : Prop :=
  ∃ target, Leads reg p.record p.indices target ∧ TailFits reg target p.tail

/-! ## What paths are used for -/

/-- The fields along a well-formed path can be looked up. -/
theorem WellFormed.walk {p : RecordPath} (hp : p.WellFormed reg) :
    ∃ steps, p.walk reg = .ok steps := by
  obtain ⟨target, hleads, -⟩ := hp
  obtain ⟨steps, hsteps, -⟩ := hleads.walk
  exact ⟨steps, hsteps⟩

/-- So can their names. -/
theorem names_total {p : RecordPath} (hp : p.WellFormed reg) :
    ∃ names, p.names reg = .ok names := by
  obtain ⟨steps, hsteps⟩ := hp.walk
  exact ⟨steps.map fun step => step.2.2.name, by rw [names, hsteps]; rfl⟩

/-- The record at the end of a path. -/
theorem tailRecord_eq {p : RecordPath} {target : Option Schema}
    (h : Leads reg p.record p.indices target) : p.tailRecord reg = .ok target := by
  obtain ⟨steps, hsteps, hlast⟩ := h.walk
  rw [tailRecord, RecordPath.walk, hsteps]
  obtain ⟨rfl, rfl⟩ | ⟨⟨r, i, f⟩, hstep, rfl⟩ := hlast
  · rfl
  · simp only [bind, Except.bind, hstep]
    rfl

/-- What is selected of the last field on a path fits the field. -/
theorem fits_end {record : Schema} {i : Nat} {f : Field} {tail : Option RecordSelection}
    (hf : record.fields[i]? = some f) (htail : TailFits reg (f.record reg) tail) :
    RecordSelection.Fits reg record i (tail <|> RecordSelection.fullChild reg f) := by
  cases tail with
  | none => exact RecordSelection.fits_fullChild hf
  | some t =>
    obtain ⟨next, hnext, hof⟩ := htail t rfl
    exact fits_some hf hnext hof

/-- The selection of the end of fields that lead somewhere, with a tail that fits. There is none
    only without any field. -/
theorem selectionOf?_isOf {record : Schema} {indices : List Nat} {target : Option Schema}
    {tail : Option RecordSelection} (h : Leads reg record indices target)
    (htail : TailFits reg target tail) :
    ∃ steps, walkFrom reg record indices = .ok steps ∧
      (steps = [] ∧ target = some record ∨
        ∃ s, selectionOf? reg tail steps = some s ∧ IsOf reg record s) := by
  induction h with
  | nil record => exact ⟨[], rfl, .inl ⟨rfl, rfl⟩⟩
  | @last record i f found leaf =>
    -- Without a nested record, the last field cannot have been given a tail.
    have hfits := fits_end found (leaf.symm ▸ htail)
    refine ⟨[(record, i, f)], walkFrom_of_leaf found leaf [], .inr ⟨_, rfl, rfl, ?_⟩⟩
    exact RecordSelection.WellFormed.put (s := RecordSelection.empty record) trivial hfits
  | @cons record next i f rest target found nested more ih =>
    obtain ⟨steps, hsteps, hsel⟩ := ih htail
    refine ⟨(record, i, f) :: steps, ?_, .inr ?_⟩
    · rw [walkFrom_of_nested found nested, hsteps]
      rfl
    -- A single field that fits makes a selection of the record around it.
    · have hput : ∀ child, RecordSelection.Fits reg record i child →
          IsOf reg record ((RecordSelection.empty record).put i child) := fun child hfits =>
        ⟨rfl, RecordSelection.WellFormed.put (s := RecordSelection.empty record) trivial hfits⟩
      -- The field is the last one if nothing is behind it, and then it takes the tail.
      cases steps with
      | nil =>
        obtain ⟨-, rfl⟩ | ⟨s, hs, -⟩ := hsel
        · exact ⟨_, rfl, hput _ (fits_end found (nested.symm ▸ htail))⟩
        · cases hs
      | cons step more =>
        obtain ⟨hnil, -⟩ | ⟨s, hs, hof⟩ := hsel
        · cases hnil
        · refine ⟨_, rfl, hput _ ?_⟩
          rw [hs]
          exact fits_some found nested hof

/-- The selection of the end of a path is a well-formed selection of its record. -/
theorem toSelection_total {p : RecordPath} (hp : p.WellFormed reg) :
    ∃ s, p.toSelection reg = .ok s ∧ IsOf reg p.record s := by
  obtain ⟨target, hleads, htail⟩ := hp
  obtain ⟨steps, hsteps, hsel⟩ := selectionOf?_isOf hleads htail
  rw [toSelection, RecordPath.walk, hsteps]
  refine ⟨_, rfl, ?_⟩
  -- Without any field nothing is selected, and that fits every record.
  cases hs : selectionOf? reg p.tail steps with
  | none => exact ⟨rfl, trivial⟩
  | some s =>
    obtain ⟨rfl, -⟩ | ⟨s', hs', hof⟩ := hsel
    · cases hs
    · cases hs.symm.trans hs'
      exact hof

/-- The part of a selection along indices that lead somewhere is a well-formed selection of the
    record that they lead to. -/
theorem selectionAlong_total {record : Schema} {indices : List Nat} {target : Option Schema}
    (h : Leads reg record indices target) {s : RecordSelection} (hs : IsOf reg record s) :
    ∃ part, selectionAlong reg s indices = .ok part ∧ TailFits reg target part := by
  induction h generalizing s with
  | nil record =>
    refine ⟨some s, rfl, fun t ht => ?_⟩
    cases ht
    exact ⟨record, rfl, hs⟩
  | @last record i f found leaf =>
    have hf : s.record.fields[i]? = some f := hs.1 ▸ found
    obtain ⟨hrecord, -⟩ := hs.2.selectionOf hf
    -- A leaf has no selection, so there is none at the end.
    rw [leaf, Option.map_eq_none_iff] at hrecord
    refine ⟨none, ?_, nofun⟩
    rw [selectionAlong, RecordSelection.fieldSelection_eq hf, hrecord]
    rfl
  | @cons record next i f rest target found nested more ih =>
    have hf : s.record.fields[i]? = some f := hs.1 ▸ found
    obtain ⟨hrecord, hwell⟩ := hs.2.selectionOf hf
    rw [nested] at hrecord
    obtain ⟨child, hchild, hnext⟩ := Option.map_eq_some_iff.1 hrecord
    -- The selection of the field is one of the nested record, so the hypothesis applies to it.
    obtain ⟨part, hpart, hfits⟩ := ih ⟨hnext, hwell child hchild⟩
    refine ⟨part, ?_, hfits⟩
    rw [selectionAlong, RecordSelection.fieldSelection_eq hf, hchild]
    exact hpart

/-- What is found in a selection along a well-formed path is well-formed. -/
theorem selectionAt_total {p : RecordPath} (hp : p.WellFormed reg) {s : RecordSelection}
    (hs : s.WellFormed reg) :
    ∃ part, p.selectionAt reg s = .ok part ∧ ∀ t ∈ part, t.WellFormed reg := by
  obtain ⟨target, hleads, -⟩ := hp
  rw [selectionAt]
  -- In a selection of another record, nothing is found.
  split
  · rename_i hrecord
    obtain ⟨part, hpart, hfits⟩ := selectionAlong_total hleads ⟨hrecord, hs⟩
    refine ⟨part, hpart, fun t ht => ?_⟩
    obtain ⟨record, -, hof⟩ := hfits t ht
    exact hof.2
  · exact ⟨none, rfl, nofun⟩

/-! ### The selections that are found -/

/-- The tail of a well-formed path is well-formed. -/
theorem WellFormed.tail {p : RecordPath} (hp : p.WellFormed reg) {t : RecordSelection}
    (h : p.tail = some t) : t.WellFormed reg := by
  obtain ⟨target, -, hfits⟩ := hp
  obtain ⟨record, -, hof⟩ := hfits t h
  exact hof.2

/-- So is the selection of its end. -/
theorem WellFormed.toSelection {p : RecordPath} (hp : p.WellFormed reg) {s : RecordSelection}
    (h : p.toSelection reg = .ok s) : s.WellFormed reg := by
  exact (of_exists_eq_ok (toSelection_total hp) h).2

/-- So is what is found at its end in a well-formed selection. -/
theorem WellFormed.selectionAt {p : RecordPath} (hp : p.WellFormed reg) {s t : RecordSelection}
    (hs : s.WellFormed reg) (h : p.selectionAt reg s = .ok (some t)) : t.WellFormed reg := by
  exact of_exists_eq_ok (selectionAt_total hp hs) h t rfl

/-! ## How paths come about -/

/-- Adding to the tail keeps a path well-formed. -/
theorem assignTail_meets {p : RecordPath} (hp : p.WellFormed reg) {query : Query}
    (hq : query.Sound reg) : Meets (WellFormed reg) (p.assignTail reg query) := by
  obtain ⟨target, hleads, htail⟩ := hp
  refine (meets_of_misuse ⟨target, tailRecord_eq hleads, rfl⟩).bind fun _ heq => ?_
  subst heq
  cases target with
  | some record =>
    -- A tail that is not there yet is added to the selection of no field.
    have hcurrent : IsOf reg record (p.tail.getD (.empty record)) := by
      cases htail' : p.tail with
      | none => exact ⟨rfl, trivial⟩
      | some t =>
        obtain ⟨record', heq, hof⟩ := htail t htail'
        cases heq
        exact hof
    refine (RecordSelection.assignQuery_meets hcurrent.2 hq).bind fun t ht => ?_
    refine ⟨some record, hleads, fun t' ht' => ⟨record, rfl, ?_⟩⟩
    cases ht'
    exact ⟨ht.1.trans hcurrent.1, ht.2⟩
  | none =>
    -- Behind a scalar, only an open tail is accepted, and it changes nothing.
    refine (meets_of_error (P := fun _ => True) fun _ _ => trivial).bind fun names _ => ?_
    split
    · exact ⟨none, hleads, htail⟩
    · -- The name of the last field is looked up for the error.
      refine (meets_of_misuse (P := fun _ => True) ?_).bind fun _ _ => trivial
      obtain ⟨fields, hfields⟩ := names_total ⟨none, hleads, htail⟩
      exact ⟨fields, hfields, trivial⟩

/-! ### Segments -/

namespace Draft

/-- A path that is being put together leads to the record that it has reached. -/
structure WellFormed (reg : Registry) (d : Draft) : Prop where
  leads : Leads reg d.path.record d.path.indices d.reached
  tail : TailFits reg d.reached d.path.tail

/-- A path goes on only from a record, and not behind a tail. -/
theorem here_eq_ok {d : Draft} {next : String} {record : Schema}
    (h : d.here next = .ok record) : d.path.tail = none ∧ d.reached = some record := by
  rw [here] at h
  split at h
  · cases h
  · rename_i htail
    split at h
    · rename_i hreached
      cases h
      exact ⟨by simpa using htail, hreached⟩
    · cases h

/-- Pushing a field of the record reached so far keeps a path well-formed. -/
theorem WellFormed.push {d : Draft} (hd : d.WellFormed reg) {record : Schema} {next : String}
    (hhere : d.here next = .ok record) {i : Nat} {f : Field} (hf : record.fields[i]? = some f) :
    (d.push reg i f).WellFormed reg := by
  obtain ⟨htail, hreached⟩ := here_eq_ok hhere
  refine ⟨?_, fun t ht => ?_⟩
  · exact (hreached ▸ hd.leads).concat hf
  -- The field is behind no tail, since the path went on from a record.
  · rw [show (d.push reg i f).path.tail = none from htail] at ht
    cases ht

/-- Going on along a name keeps a path well-formed. -/
theorem WellFormed.addName {d d' : Draft} (hd : d.WellFormed reg) {name : String}
    (h : d.addName reg name = .ok d') : d'.WellFormed reg := by
  obtain ⟨record, hhere, h⟩ := bind_eq_ok_iff.1 h
  obtain ⟨⟨i, f⟩, hfound, h⟩ := bind_eq_ok_iff.1 h
  cases h
  exact hd.push hhere (Schema.getElem?_of_resolveName hfound)

/-- Going on along an index keeps a path well-formed. -/
theorem WellFormed.addIndex {d d' : Draft} (hd : d.WellFormed reg) {index : Nat}
    (h : d.addIndex reg index = .ok d') : d'.WellFormed reg := by
  obtain ⟨record, hhere, h⟩ := bind_eq_ok_iff.1 h
  obtain ⟨⟨i, f⟩, hfound, h⟩ := bind_eq_ok_iff.1 h
  cases h
  rw [Schema.resolveIndex] at hfound
  split at hfound
  · rename_i hf
    cases hfound
    exact hd.push hhere hf
  -- An index beyond the fields is refused.
  · cases hfound

/-- Setting a tail keeps a path well-formed. -/
theorem WellFormed.setTail {d d' : Draft} (hd : d.WellFormed reg) {query : Query}
    (hq : query.Sound reg) (h : d.setTail reg query = .ok d') : d'.WellFormed reg := by
  have hleads := hd.leads
  rw [Draft.setTail] at h
  cases hreached : d.reached with
  | some record =>
    simp only [hreached] at h hleads
    obtain ⟨tail, htail, h⟩ := bind_eq_ok_iff.1 h
    cases h
    refine ⟨hleads, fun t ht => ⟨record, rfl, ?_⟩⟩
    -- An open tail is none, and any other one is bound to the record reached.
    simp only at ht
    split at ht
    · cases ht
    · cases ht
      exact RecordSelection.ofQuery_isOf hq htail
  | none =>
    simp only [hreached] at h hleads
    obtain ⟨names, -, h⟩ := bind_eq_ok_iff.1 h
    split at h
    · cases h
      exact ⟨hleads, nofun⟩
    · cases h

/-- Going on along several names or indices. -/
theorem WellFormed.foldlM {α : Type} {step : Draft → α → Except Error Draft}
    (hstep : ∀ d a d', d.WellFormed reg → step d a = .ok d' → d'.WellFormed reg) {l : List α}
    {d d' : Draft} (hd : d.WellFormed reg) (h : l.foldlM step d = .ok d') : d'.WellFormed reg :=
  foldlM_ok_induction (fun d a d' _ hd ha => hstep d a d' hd ha) hd h

end Draft

end RecordPath

/-- A segment holds no path and no selection but a well-formed one. -/
def Segment.Sound (reg : Registry) : Segment → Prop
  | .ofRecord p => p.WellFormed reg
  | .tail query => query.Sound reg
  | _ => True

namespace RecordPath

open Draft (addName addIndex)

/-- Going on with a segment keeps a path well-formed. -/
theorem Draft.addSegment_meets {d : Draft} (hd : d.WellFormed reg) {segment : Segment}
    (h : segment.Sound reg) : Meets (Draft.WellFormed reg) (d.addSegment reg segment) := by
  have haddName : ∀ (d : Draft) name d', d.WellFormed reg → d.addName reg name = .ok d' →
      d'.WellFormed reg := fun d name d' hd h => hd.addName h
  have haddIndex : ∀ (d : Draft) index d', d.WellFormed reg → d.addIndex reg index = .ok d' →
      d'.WellFormed reg := fun d index d' hd h => hd.addIndex h
  -- By the kinds of segments: names and indices are pushed, tails are set, and paths do both.
  cases segment with
  | names dotted => exact meets_of_error fun d' hd' => hd.foldlM haddName hd'
  | index i => exact meets_of_error fun d' hd' => hd.addIndex hd'
  | tail query => exact meets_of_error fun d' hd' => hd.setTail h hd'
  | byName p =>
    refine (meets_of_error fun d' hd' => hd.foldlM haddName hd').bind fun d' hd' => ?_
    cases p.tail with
    | none => exact hd'
    | some tail =>
      have hsound : Query.Sound reg (.byName tail) := trivial
      exact meets_of_error fun d'' hd'' => hd'.setTail hsound hd''
  | ofRecord p =>
    -- The expression of the path is only needed for errors, but it has to be found for them.
    have hexpr : ∃ expr, p.expr reg = .ok expr := by
      obtain ⟨names, hnames⟩ := names_total h
      exact ⟨_, by rw [RecordPath.expr, hnames]; rfl⟩
    refine (meets_of_misuse (P := fun _ => True) (hexpr.imp fun _ he => ⟨he, trivial⟩)).bind
      fun next _ => ?_
    refine (meets_of_error (P := fun _ => True) fun _ _ => trivial).bind fun record _ => ?_
    simp only
    split
    · trivial
    · refine (meets_of_error fun d' hd' => hd.foldlM haddIndex hd').bind fun d' hd' => ?_
      -- The tail is well-formed, as it is that of a well-formed path.
      cases htail : p.tail with
      | none => exact hd'
      | some tail =>
        obtain ⟨target, -, hfits⟩ := h
        obtain ⟨record', -, hof⟩ := hfits tail htail
        have hsound : Query.Sound reg (.ofRecord tail) := hof.2
        exact meets_of_error fun d'' hd'' => hd'.setTail hsound hd''

/-- A path that is put together from segments is well-formed. -/
theorem ofSegments_meets {record : Schema} {segments : List Segment}
    (h : ∀ segment ∈ segments, segment.Sound reg) :
    Meets (WellFormed reg) (ofSegments reg record segments) := by
  have hstart : Draft.WellFormed reg ⟨⟨record, [], none⟩, some record, ""⟩ :=
    ⟨.nil record, nofun⟩
  have hall := meets_foldlM hstart fun d segment hmem hd =>
    Draft.addSegment_meets hd (h segment hmem)
  exact hall.bind fun d hd => ⟨d.reached, hd.leads, hd.tail⟩

end RecordPath

end FieldMask
