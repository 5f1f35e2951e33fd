import FieldMask.Proofs.PathInvariant
import FieldMask.Proofs.RecordClashes

/-!
# Selections that outlive a registry

A selection stays as it is while names are given to other records, so that a selection of a field
may be of a record that was the nested record of the field once, and is not now. Still every index
that a selection names is that of a field of its record, and whatever else holds of all records that
selections of a field have been made of goes on to hold. Each operation keeps it, under whatever
registry it is used.

## Key results

- `BoundBy`: selections of a field are of records that suit it in some sense
- `Descends.boundBy`: what two selections are combined to
- `ofQuery_boundBy` / `belongs_of_bind`: what is bound by a query
- `BoundBy.not_clashes`: where selections do not clash
- `RecordPath.toSelection_boundBy` / `RecordPath.ofSegments_boundBy`: paths
-/

namespace FieldMask

variable {P : Field → Schema → Prop} {reg : Registry}

/-- The nested records of fields under a registry suit the fields. -/
def Registry.Within (P : Field → Schema → Prop) (reg : Registry) : Prop :=
  ∀ f r, f.record reg = some r → P f r

namespace RecordSelection

/-! ## What is known of a selection -/

/-- All that a selection names are fields of its record. A selection of a field is of a record that
    suits the field, and the same holds of it. -/
inductive BoundBy (P : Field → Schema → Prop) : RecordSelection → Prop
  | intro {s : RecordSelection}
      (fields : ∀ i child, s.explicit? i = some child →
        ∃ f, s.record.fields[i]? = some f ∧ ∀ c ∈ child, P f c.record)
      (below : ∀ i c, s.explicit? i = some (some c) → BoundBy P c) : BoundBy P s

/-- What a selection of a record may have for the field at an index. -/
structure Belongs (P : Field → Schema → Prop) (record : Schema) (index : Nat)
    (child : Option RecordSelection) : Prop where
  field : ∃ f, record.fields[index]? = some f ∧ ∀ c ∈ child, P f c.record
  below : ∀ c ∈ child, c.BoundBy P

/-- Field by field. -/
theorem boundBy_iff {s : RecordSelection} :
    s.BoundBy P ↔ ∀ i child, s.explicit? i = some child → Belongs P s.record i child := by
  constructor
  · rintro ⟨fields, below⟩ i child h
    refine ⟨fields i child h, fun c hc => ?_⟩
    cases hc
    exact below i c h
  · intro h
    exact .intro (fun i child hi => (h i child hi).field) fun i c hi => (h i _ hi).below c rfl

/-- What a bound selection names at an index belongs there. -/
theorem BoundBy.belongs {s : RecordSelection} (hs : s.BoundBy P) {i : Nat}
    {child : Option RecordSelection} (h : s.explicit? i = some child) :
    Belongs P s.record i child :=
  boundBy_iff.1 hs i child h

/-- A selection that was left open names nothing. -/
theorem boundBy_undefined (record : Schema) : (undefined record).BoundBy P :=
  boundBy_iff.2 nofun

/-- Neither does an empty one. -/
theorem boundBy_empty (record : Schema) : (empty record).BoundBy P :=
  boundBy_iff.2 nofun

/-- A selection that is well-formed under a registry. -/
theorem WellFormed.boundBy (hreg : reg.Within P) {s : RecordSelection} (hs : s.WellFormed reg) :
    s.BoundBy P := by
  induction s using RecordSelection.induction with
  | undefined record => exact boundBy_undefined record
  | defined record fields ih =>
    -- All that is left of well-formedness under `reg` is what `Within` says of nested records.
    refine .intro (fun i child hi => ?_) fun i c hi => ih i c hi (hs.fits hi).child
    obtain ⟨f, hf, hrecord⟩ := (hs.fits hi).suits
    refine ⟨f, hf, fun c hc => hreg f c.record ?_⟩
    cases hc
    exact hrecord.symm

/-- What fits at an index under a registry belongs there. -/
theorem Fits.belongs (hreg : reg.Within P) {record : Schema} {i : Nat}
    {child : Option RecordSelection} (h : Fits reg record i child) : Belongs P record i child := by
  obtain ⟨f, hf, hrecord⟩ := h.suits
  refine ⟨⟨f, hf, fun c hc => hreg f c.record ?_⟩, fun c hc => (h.wellFormed c hc).boundBy hreg⟩
  cases hc
  exact hrecord.symm

/-- A field may be named without a selection of its own. -/
theorem belongs_none {record : Schema} {i : Nat} {f : Field} (hf : record.fields[i]? = some f) :
    Belongs P record i none :=
  ⟨⟨f, hf, nofun⟩, nofun⟩

/-- Another selection of the same record belongs there as well. -/
theorem Belongs.of_record_eq {record : Schema} {i : Nat} {a b : RecordSelection}
    (ha : Belongs P record i (some a)) (hrecord : b.record = a.record) (hb : b.BoundBy P) :
    Belongs P record i (some b) := by
  obtain ⟨f, hf, hsuits⟩ := ha.field
  refine ⟨⟨f, hf, fun c hc => ?_⟩, fun c hc => ?_⟩
  · cases hc
    exact hrecord ▸ hsuits a rfl
  · cases hc
    exact hb

/-! ## Operations on one selection -/

/-- Naming a field with what belongs there. -/
theorem BoundBy.put {s : RecordSelection} (hs : s.BoundBy P) {i : Nat}
    {child : Option RecordSelection} (hc : Belongs P s.record i child) :
    (s.put i child).BoundBy P := by
  refine boundBy_iff.2 fun j c hj => ?_
  rw [explicit?_put] at hj
  split at hj
  · rename_i hij
    cases hj
    exact hij ▸ hc
  · exact hs.belongs hj

/-- Dropping a field. -/
theorem BoundBy.erase {s : RecordSelection} (hs : s.BoundBy P) (i : Nat) :
    (s.erase i).BoundBy P := by
  refine boundBy_iff.2 fun j c hj => ?_
  rw [explicit?_erase] at hj
  split at hj
  · cases hj
  · exact hs.belongs hj

/-- A selection that is spelt out names the records its fields hold under the registry. -/
theorem BoundBy.ensureDefined (hreg : reg.Within P) {s : RecordSelection} (hs : s.BoundBy P) :
    (s.ensureDefined reg).BoundBy P := by
  cases s with
  | undefined record =>
    -- What an open selection stands for is made under `reg`, so it is well-formed there.
    have hwell : (undefined record).WellFormed reg := trivial
    exact hwell.ensureDefined.boundBy hreg
  | defined record fields => exact hs

/-- Naming the fields among some that are not named yet. -/
theorem BoundBy.addMissing (hreg : reg.Within P) {s : RecordSelection} (hs : s.BoundBy P)
    {fields : List (Nat × Field)} (h : ∀ i f, (i, f) ∈ fields → s.record.fields[i]? = some f) :
    (s.addMissing reg fields).BoundBy P := by
  refine boundBy_iff.2 fun i child hi => ?_
  rw [record_addMissing]
  -- An entry was there before, or it is the full child of a field under this registry.
  obtain hs' | ⟨f, hf, rfl⟩ := explicit?_addMissing hi
  · have hbelongs := (hs.ensureDefined hreg).belongs hs'
    rwa [record_ensureDefined] at hbelongs
  · exact (fits_fullChild (h i f hf)).belongs hreg

/-- What each change keeps, all of them keep. -/
theorem BoundBy.foldFields {change : RecordSelection → Nat → Field → RecordSelection}
    (keeps : ∀ t i f, t.BoundBy P → t.record.fields[i]? = some f → (change t i f).BoundBy P)
    {s t : RecordSelection} {indices : List Nat} (hs : s.BoundBy P)
    (h : RecordSelection.foldFields change s indices = .ok t) : t.BoundBy P := by
  refine foldlM_ok_induction (motive := BoundBy P) (fun a i b _ ha hb => ?_) hs h
  obtain ⟨f, hf, heq⟩ := bind_eq_ok_iff.1 hb
  cases heq
  exact keeps a i f ha (Schema.fieldAt_eq_ok_iff.1 hf)

/-- Adding fields names each of them in full. -/
theorem BoundBy.add (hreg : reg.Within P) {s t : RecordSelection} {indices : List Nat}
    (hs : s.BoundBy P) (h : s.add reg indices = .ok t) : t.BoundBy P := by
  refine hs.foldFields (fun t i f ht hf => ?_) ((add_eq _ _).symm.trans h)
  rw [addOne]
  split
  · exact ht
  · exact ht.put ((fits_fullChild hf).belongs hreg)

/-- Fields that are no longer excluded are named in full where they were not. -/
theorem BoundBy.addExcluded (hreg : reg.Within P) {s t : RecordSelection} {indices : List Nat}
    (hs : s.BoundBy P) (h : s.addExcluded reg indices = .ok t) : t.BoundBy P := by
  refine hs.foldFields (fun t i f ht hf => ?_) ((addExcluded_eq _ _).symm.trans h)
  refine ht.addMissing hreg fun j g hg => ?_
  cases List.mem_singleton.1 hg
  exact hf

/-- Removing fields spells the selection out at most, and drops them. -/
theorem BoundBy.remove (hreg : reg.Within P) {s t : RecordSelection} {indices : List Nat}
    (hs : s.BoundBy P) (h : s.remove reg indices = .ok t) : t.BoundBy P := by
  refine hs.foldFields (fun t i f ht _ => ?_) ((remove_eq _ _).symm.trans h)
  rw [removeOne]
  split
  · exact (ht.ensureDefined hreg).erase i
  · exact ht

/-- The selection of a field is the one that is named, or an open one of the field's record. -/
theorem BoundBy.selectionOf {s : RecordSelection} (hs : s.BoundBy P) {i : Nat}
    {f : Field} {c : RecordSelection} (h : s.selectionOf reg i f = some c) : c.BoundBy P := by
  rw [RecordSelection.selectionOf] at h
  cases hget : s.explicit? i with
  | none =>
    rw [hget, Option.getD_none] at h
    obtain ⟨r, -, rfl⟩ := Option.map_eq_some_iff.1 h
    exact boundBy_undefined r
  | some child =>
    rw [hget, Option.getD_some] at h
    exact (hs.belongs hget).below c h

/-- The selection of a field that is looked up by its index. -/
theorem BoundBy.fieldSelection {s t : RecordSelection} (hs : s.BoundBy P) {i : Nat}
    (h : s.fieldSelection reg i = .ok (some t)) : t.BoundBy P := by
  obtain ⟨f, -, heq⟩ := bind_eq_ok_iff.1 h
  exact hs.selectionOf (Except.ok.inj heq)

/-! ## Operations on two selections -/

section Descends

variable {shown : RecordSelection → RecordSelection}
  {meets : RecordSelection → RecordSelection → Bool}
  {op : RecordSelection → RecordSelection → Except Misuse RecordSelection}

/-- Two selections are combined to one that is bound as they are, if those of each field are. -/
theorem Descends.boundBy_of_below (hop : Descends reg shown meets op) (hreg : reg.Within P)
    {s q t : RecordSelection} (hs : s.BoundBy P) (hq : q.BoundBy P)
    (hbelow : ∀ i c d u, c.BoundBy P → q.explicit? i = some (some d) → op c d = .ok u →
      u.record = c.record ∧ u.BoundBy P) (h : op s q = .ok t) :
    t.record = s.record ∧ t.BoundBy P := by
  -- Selections of different records are refused, so here they are of one record.
  have hsame : s.record = q.record := by
    by_contra differ
    rw [hop.otherRecord differ] at h
    cases h
  obtain ⟨hrecord, hresult⟩ := hop.result h
  refine ⟨hrecord, boundBy_iff.2 fun i child hi => ?_⟩
  rw [hrecord]
  -- The result may name what a selection that was left open stands for under this registry.
  have hleft : ∀ {c}, (s.ensureDefined reg).explicit? i = some c → Belongs P s.record i c :=
    fun hc => by
      have hbelongs := (hs.ensureDefined hreg).belongs hc
      rwa [record_ensureDefined] at hbelongs
  -- What the result names is from the left, from both, from the right, or from the right spelt out.
  obtain (hc | hd | ⟨c, d, u, hc, hd, hu, rfl⟩) | hd := hresult i child hi
  · exact hleft hc
  · exact hsame ▸ hq.belongs hd
  · obtain ⟨hrecord, hbound⟩ := hbelow i c d u ((hleft hc).below c rfl) hd hu
    exact (hleft hc).of_record_eq hrecord hbound
  · have hbelongs := (hq.ensureDefined hreg).belongs hd
    rwa [record_ensureDefined, ← hsame] at hbelongs

/-- What two selections are combined to is bound as they are. -/
theorem Descends.boundBy (hop : Descends reg shown meets op) (hreg : reg.Within P)
    {s q t : RecordSelection} (hs : s.BoundBy P) (hq : q.BoundBy P) (h : op s q = .ok t) :
    t.record = s.record ∧ t.BoundBy P := by
  -- The operation goes down along the second selection.
  induction q using RecordSelection.induction generalizing s t with
  | undefined record => exact hop.boundBy_of_below hreg hs hq (fun _ _ _ _ _ hd => nomatch hd) h
  | defined record fields ih =>
    refine hop.boundBy_of_below hreg hs hq (fun i c d u hc hd hu => ?_) h
    exact ih i d hd hc ((hq.belongs hd).below d rfl) hu

/-- If each field is suited by one record only, selections that are bound by that do not clash. -/
theorem BoundBy.not_clashes (hP : ∀ f r r', P f r → P f r' → r = r')
    (hshown : ∀ s : RecordSelection, s.BoundBy P →
      (shown s).BoundBy P ∧ (shown s).record = s.record)
    {s q : RecordSelection} (hs : s.BoundBy P) (hq : q.BoundBy P) (same : s.record = q.record) :
    ¬ Clashes shown meets s q := by
  intro h
  induction h with
  | here differ => exact differ same
  | @deeper s q c d i left right meet clash ih =>
    obtain ⟨hbound, hrecord⟩ := hshown s hs
    have hleft := hbound.belongs left
    have hright := hq.belongs right
    obtain ⟨f, hf, hc⟩ := hleft.field
    obtain ⟨g, hg, hd⟩ := hright.field
    -- Both are selections of the field at this index.
    have hfg : f = g := by
      rw [hrecord, same, hg] at hf
      exact (Option.some.inj hf).symm
    subst hfg
    exact ih (hleft.below c rfl) (hright.below d rfl)
      (hP f c.record d.record (hc c rfl) (hd d rfl))

end Descends

/-! ## Queries -/

/-- What is bound to a record by a query is bound as the selection that the query may be. -/
theorem ofQuery_boundBy (hreg : reg.Within P) {record : Schema} {query : Query}
    {t : RecordSelection} (hq : ∀ s, query = .ofRecord s → s.BoundBy P)
    (h : ofQuery reg record query = .ok t) : t.record = record ∧ t.BoundBy P := by
  have hnames : ∀ names, ofNames reg record names = .ok t → t.record = record ∧ t.BoundBy P :=
    fun names hbind => (ofNames_isOf names record t hbind).imp_right fun hwell =>
      hwell.boundBy hreg
  cases query with
  | ofRecord s =>
    rw [ofQuery] at h
    split at h
    · cases h
      exact ⟨rfl, boundBy_undefined record⟩
    -- Only a selection of this very record is taken as it is; it is bound by assumption.
    · split at h
      · rename_i hrecord
        cases h
        exact ⟨hrecord, hq _ rfl⟩
      · cases h
  -- All other queries go through names, which give a selection that is well-formed under `reg`.
  | _ =>
    obtain ⟨names, -, h⟩ := bind_eq_ok_iff.1 h
    exact hnames names h

/-- What is bound to a field belongs there. -/
theorem belongs_of_bind (hreg : reg.Within P) {record : Schema} {i : Nat} {f : Field}
    {query : Query} {child : Option RecordSelection} (hf : record.fields[i]? = some f)
    (hq : ∀ s, query = .ofRecord s → s.BoundBy P) (h : f.bind reg query = .ok child) :
    Belongs P record i child := by
  rw [Field.bind, within_eq_ok_iff] at h
  -- A field without a record takes no selection; otherwise the query is bound to its record.
  cases hr : f.record reg with
  | none =>
    simp only [hr] at h
    obtain ⟨names, -, h⟩ := bind_eq_ok_iff.1 h
    split at h
    · cases h
      exact belongs_none hf
    · cases h
  | some r =>
    simp only [hr] at h
    obtain ⟨c, hc, heq⟩ := bind_eq_ok_iff.1 h
    cases heq
    obtain ⟨hrecord, hbound⟩ := ofQuery_boundBy hreg hq hc
    refine ⟨⟨f, hf, fun d hd => ?_⟩, fun d hd => ?_⟩
    · cases hd
      exact hrecord ▸ hreg f r hr
    · cases hd
      exact hbound

section Queries

variable {s t : RecordSelection} {query : Query}

/-- What a selection is combined to with what is bound by a query. -/
theorem boundBy_of_bindQuery {shown : RecordSelection → RecordSelection}
    {meets : RecordSelection → RecordSelection → Bool}
    {op : RecordSelection → RecordSelection → Except Misuse RecordSelection}
    (hop : Descends reg shown meets op) (hreg : reg.Within P) (hs : s.BoundBy P)
    (hq : ∀ u, query = .ofRecord u → u.BoundBy P)
    (h : (do
      let q ← ofQuery reg s.record query
      op s q : Except Failure RecordSelection) = .ok t) : t.record = s.record ∧ t.BoundBy P := by
  obtain ⟨q, hbind, h⟩ := bind_eq_ok_iff.1 h
  obtain ⟨-, hbound⟩ := ofQuery_boundBy hreg hq (mapError_eq_ok_iff.1 hbind)
  exact hop.boundBy hreg hs hbound (mapError_eq_ok_iff.1 h)

/-- Setting a field to what is bound by a query. -/
theorem BoundBy.setField (hreg : reg.Within P) (hs : s.BoundBy P)
    (hq : ∀ u, query = .ofRecord u → u.BoundBy P) {i : Nat}
    (h : s.setField reg i query = .ok t) : t.BoundBy P := by
  obtain ⟨f, hf, h⟩ := bind_eq_ok_iff.1 h
  obtain ⟨child, hchild, h⟩ := bind_eq_ok_iff.1 h
  cases h
  have hfield := Schema.fieldAt_eq_ok_iff.1 (mapError_eq_ok_iff.1 hf)
  exact hs.put (belongs_of_bind hreg hfield hq (mapError_eq_ok_iff.1 hchild))

/-- A field that is added to is named with what belongs there. -/
theorem Belongs.mergeField (hreg : reg.Within P) {record : Schema} {i : Nat}
    {left : Option (Option RecordSelection)} {child merged : Option RecordSelection}
    (hleft : ∀ c, left = some c → Belongs P record i c) (hchild : Belongs P record i child)
    (h : RecordSelection.mergeField reg left child = .ok merged) : Belongs P record i merged := by
  -- Nothing was there, the field was named without a selection, or there are two to be merged.
  rcases left with _ | _ | current
  · cases h
    exact hchild
  · cases h
    exact hchild
  · cases child with
    | none =>
      cases h
      exact hchild
    | some other =>
      obtain ⟨both, hboth, h⟩ := bind_eq_ok_iff.1 h
      cases h
      rw [merge] at hboth
      split at hboth
      · cases hboth
        exact hleft _ rfl
      · split at hboth
        · cases hboth
          exact hchild
        · have hcurrent := hleft _ rfl
          obtain ⟨hrecord, hbound⟩ := assign_descends.boundBy hreg (hcurrent.below current rfl)
            (hchild.below other rfl) hboth
          exact hcurrent.of_record_eq hrecord hbound

/-- Adding to a field what is bound by a query. -/
theorem BoundBy.assignToField (hreg : reg.Within P) (hs : s.BoundBy P)
    (hq : ∀ u, query = .ofRecord u → u.BoundBy P) {i : Nat}
    (h : s.assignToField reg i query = .ok t) : t.BoundBy P := by
  rw [assignToField_eq] at h
  obtain ⟨f, hf, h⟩ := bind_eq_ok_iff.1 h
  obtain ⟨child, hchild, h⟩ := bind_eq_ok_iff.1 h
  obtain ⟨merged, hmerged, h⟩ := bind_eq_ok_iff.1 h
  cases h
  have hfield := Schema.fieldAt_eq_ok_iff.1 (mapError_eq_ok_iff.1 hf)
  have hbelongs := belongs_of_bind hreg hfield hq (mapError_eq_ok_iff.1 hchild)
  exact hs.put (hbelongs.mergeField hreg (fun c hc => hs.belongs hc)
    (mapError_eq_ok_iff.1 hmerged))

/-- A selection that is carried over to a record goes through names, unless it is of that record. -/
theorem BoundBy.toRecord (hreg : reg.Within P) (hs : s.BoundBy P) {record : Schema}
    (h : s.toRecord reg record = .ok t) : t.BoundBy P := by
  rw [RecordSelection.toRecord] at h
  split at h
  · cases h
    exact hs
  · split at h
    · cases h
      exact boundBy_undefined record
    · exact (ofNames_isOf _ record t h).2.boundBy hreg

end Queries

end RecordSelection

/-! ## Paths -/

namespace RecordPath

open RecordSelection (Belongs BoundBy boundBy_empty boundBy_undefined ofQuery_boundBy)

/-- The tail of a path is bound in the sense of a selection. -/
def TailBoundBy (P : Field → Schema → Prop) (p : RecordPath) : Prop := ∀ t ∈ p.tail, t.BoundBy P

/-- The tail of a path is a selection of the record that its indices lead to. -/
def Anchored (reg : Registry) (p : RecordPath) : Prop :=
  ∀ t ∈ p.tail, Leads reg p.record p.indices (some t.record)

/-! ### What paths are used for -/

/-- The part of a selection along indices. -/
theorem selectionAlong_boundBy {s t : RecordSelection} {indices : List Nat} (hs : s.BoundBy P)
    (h : selectionAlong reg s indices = .ok (some t)) : t.BoundBy P := by
  -- Each step goes down to the selection of a field, which is bound as the whole is.
  induction indices generalizing s with
  | nil =>
    cases h
    exact hs
  | cons i rest ih =>
    obtain ⟨child, hchild, h⟩ := bind_eq_ok_iff.1 h
    cases child with
    | none => cases h
    | some c => exact ih (hs.fieldSelection hchild) h

/-- The part of a selection that a path leads to. -/
theorem selectionAt_boundBy {p : RecordPath} {s t : RecordSelection} (hs : s.BoundBy P)
    (h : p.selectionAt reg s = .ok (some t)) : t.BoundBy P := by
  rw [selectionAt] at h
  split at h
  · exact selectionAlong_boundBy hs h
  · cases h

/-- What the last field of a path is named with, with a tail that suits it. -/
theorem belongs_end (hreg : reg.Within P) {tail : Option RecordSelection}
    (htail : ∀ t ∈ tail, t.BoundBy P) {record : Schema} {i : Nat} {f : Field}
    (hf : record.fields[i]? = some f) (hsuits : ∀ t ∈ tail, P f t.record) :
    Belongs P record i (tail <|> RecordSelection.fullChild reg f) := by
  cases tail with
  | none => exact (RecordSelection.fits_fullChild hf).belongs hreg
  | some t => exact ⟨⟨f, hf, hsuits⟩, htail⟩

/-- The selection of the end of fields that have been looked up, with a tail that suits the last of
    them. -/
theorem selectionOf?_boundBy (hreg : reg.Within P) {tail : Option RecordSelection}
    (htail : ∀ t ∈ tail, t.BoundBy P) {indices : List Nat} {record : Schema}
    {steps : List (Schema × Nat × Field)} (hsteps : walkFrom reg record indices = .ok steps)
    (hlast : ∀ step ∈ steps.getLast?, ∀ t ∈ tail, P step.2.2 t.record) {s : RecordSelection}
    (h : selectionOf? reg tail steps = some s) : s.record = record ∧ s.BoundBy P := by
  -- The induction follows `walkFrom`, which stops at the first field that holds no record.
  induction indices generalizing record steps s with
  | nil =>
    cases hsteps
    cases h
  | cons i rest ih =>
    obtain ⟨f, hf, hsteps⟩ := bind_eq_ok_iff.1 hsteps
    have hfield := Schema.fieldAt_eq_ok_iff.1 hf
    have hput : ∀ {child}, Belongs P record i child →
        ((RecordSelection.empty record).put i child).BoundBy P := fun hchild =>
      (boundBy_empty record).put hchild
    cases hr : f.record reg with
    | none =>
      simp only [hr] at hsteps
      cases hsteps
      cases h
      exact ⟨rfl, hput (belongs_end hreg htail hfield (hlast _ rfl))⟩
    | some next =>
      simp only [hr] at hsteps
      obtain ⟨more, hmore, heq⟩ := bind_eq_ok_iff.1 hsteps
      cases heq
      cases more with
      | nil =>
        cases h
        exact ⟨rfl, hput (belongs_end hreg htail hfield (hlast _ rfl))⟩
      | cons step more =>
        -- Behind the field there is the selection of the rest, of the nested record.
        obtain ⟨c, hc⟩ : ∃ c, selectionOf? reg tail (step :: more) = some c := by
          cases more <;> exact ⟨_, rfl⟩
        obtain ⟨hrecord, hbound⟩ := ih hmore hlast hc
        replace h : some ((RecordSelection.empty record).put i
          (selectionOf? reg tail (step :: more))) = some s := h
        rw [hc] at h
        cases h
        refine ⟨rfl, hput ⟨⟨f, hfield, fun c hc => ?_⟩, fun c hc => ?_⟩⟩
        · cases hc
          exact hrecord ▸ hreg f next hr
        · cases hc
          exact hbound

/-- The tail of a path suits the last field that is found along it. -/
def TailSuits (P : Field → Schema → Prop) (reg : Registry) (p : RecordPath) : Prop :=
  ∀ steps, p.walk reg = .ok steps → ∀ step ∈ steps.getLast?, ∀ t ∈ p.tail, P step.2.2 t.record

/-- A tail that is a selection of the record at the end suits the last field. -/
theorem Anchored.tailSuits (hreg : reg.Within P) {p : RecordPath} (h : p.Anchored reg) :
    p.TailSuits P reg := by
  intro steps hsteps step hstep t ht
  obtain ⟨steps', hsteps', hlast⟩ := (h t ht).walk
  -- The walk of the path is the one along which the record at the end was found.
  have heq : steps = steps' := Except.ok.inj (hsteps.symm.trans hsteps')
  subst heq
  obtain ⟨rfl, -⟩ | ⟨last, hlast, hrecord⟩ := hlast
  · cases hstep
  · rw [Option.mem_def, hlast] at hstep
    cases hstep
    exact hreg _ _ hrecord

/-- The selection of the end of a path whose tail suits the last field. -/
theorem toSelection_boundBy (hreg : reg.Within P) {p : RecordPath} (htail : p.TailBoundBy P)
    (hlast : p.TailSuits P reg) {s : RecordSelection} (h : p.toSelection reg = .ok s) :
    s.BoundBy P := by
  obtain ⟨steps, hsteps, h⟩ := bind_eq_ok_iff.1 h
  cases h
  cases hs : selectionOf? reg p.tail steps with
  | none => exact boundBy_empty p.record
  | some s => exact (selectionOf?_boundBy hreg htail hsteps (hlast steps hsteps) hs).2

/-! ### How paths come about -/

namespace Draft

/-- A path that is being put together leads to the record that it has reached, and its tail is a
    selection of that. -/
structure BoundBy (reg : Registry) (P : Field → Schema → Prop) (d : Draft) : Prop where
  leads : ∀ r, d.reached = some r → Leads reg d.path.record d.path.indices (some r)
  tail : ∀ t ∈ d.path.tail, t.BoundBy P ∧ d.reached = some t.record

variable {d d' : Draft}

/-- Going on by one field of the record that has been reached. -/
theorem BoundBy.push (hd : d.BoundBy reg P) {record : Schema} {next : String}
    (hhere : d.here next = .ok record) {i : Nat} {f : Field} (hf : record.fields[i]? = some f) :
    (d.push reg i f).BoundBy reg P := by
  obtain ⟨htail, hreached⟩ := here_eq_ok hhere
  refine ⟨fun r hr => ?_, fun t ht => ?_⟩
  -- There was no tail, or it would not have been possible to go on.
  · have hnested : f.record reg = some r := hr
    exact hnested ▸ (hd.leads record hreached).concat hf
  · rw [show (d.push reg i f).path.tail = none from htail] at ht
    cases ht

/-- Going on by the name of a field. -/
theorem BoundBy.addName (hd : d.BoundBy reg P) {name : String} (h : d.addName reg name = .ok d') :
    d'.BoundBy reg P := by
  obtain ⟨record, hhere, h⟩ := bind_eq_ok_iff.1 h
  obtain ⟨⟨i, f⟩, hfound, h⟩ := bind_eq_ok_iff.1 h
  cases h
  exact hd.push hhere (Schema.getElem?_of_resolveName hfound)

/-- Going on by the index of a field. -/
theorem BoundBy.addIndex (hd : d.BoundBy reg P) {index : Nat} (h : d.addIndex reg index = .ok d') :
    d'.BoundBy reg P := by
  obtain ⟨record, hhere, h⟩ := bind_eq_ok_iff.1 h
  obtain ⟨⟨i, f⟩, hfound, h⟩ := bind_eq_ok_iff.1 h
  cases h
  rw [Schema.resolveIndex] at hfound
  split at hfound
  · rename_i hf
    cases hfound
    exact hd.push hhere hf
  · cases hfound

/-- Ending a path with what is bound by a query to the record that has been reached. -/
theorem BoundBy.setTail (hreg : reg.Within P) (hd : d.BoundBy reg P) {query : Query}
    (hq : ∀ s, query = .ofRecord s → s.BoundBy P) (h : d.setTail reg query = .ok d') :
    d'.BoundBy reg P := by
  have hleads := hd.leads
  rw [Draft.setTail] at h
  cases hreached : d.reached with
  | some record =>
    simp only [hreached] at h hleads
    obtain ⟨tail, htail, h⟩ := bind_eq_ok_iff.1 h
    cases h
    obtain ⟨hrecord, hbound⟩ := ofQuery_boundBy hreg hq htail
    refine ⟨hleads, fun t ht => ?_⟩
    simp only at ht
    split at ht
    · cases ht
    · cases ht
      exact ⟨hbound, congrArg some hrecord.symm⟩
  -- Where no record has been reached, only a query without names is taken, and the tail is dropped.
  | none =>
    simp only [hreached] at h
    obtain ⟨names, -, h⟩ := bind_eq_ok_iff.1 h
    split at h
    · cases h
      refine ⟨fun r hr => ?_, fun t ht => ?_⟩
      · cases hr
      · cases ht
    · cases h

/-- Going on along several names or indices. -/
theorem BoundBy.foldlM {α : Type} {step : Draft → α → Except Error Draft}
    (hstep : ∀ d a d', d.BoundBy reg P → step d a = .ok d' → d'.BoundBy reg P) {l : List α}
    (hd : d.BoundBy reg P) (h : l.foldlM step d = .ok d') : d'.BoundBy reg P :=
  foldlM_ok_induction (fun d a d' _ hd ha => hstep d a d' hd ha) hd h

/-- Adding one segment, whose selection or tail is bound. -/
theorem BoundBy.addSegment (hreg : reg.Within P) (hd : d.BoundBy reg P) {segment : Segment}
    (hquery : ∀ s, segment = .tail (.ofRecord s) → s.BoundBy P)
    (hpath : ∀ p, segment = .ofRecord p → p.TailBoundBy P)
    (h : d.addSegment reg segment = .ok d') : d'.BoundBy reg P := by
  have haddName : ∀ (d : Draft) name d', d.BoundBy reg P → d.addName reg name = .ok d' →
      d'.BoundBy reg P := fun d name d' hd h => hd.addName h
  have haddIndex : ∀ (d : Draft) index d', d.BoundBy reg P → d.addIndex reg index = .ok d' →
      d'.BoundBy reg P := fun d index d' hd h => hd.addIndex h
  -- A path by name adds its names and then its tail; one of a record adds indices instead.
  cases segment with
  | names dotted => exact hd.foldlM haddName (mapError_eq_ok_iff.1 h)
  | index i => exact hd.addIndex (mapError_eq_ok_iff.1 h)
  | tail query =>
    refine hd.setTail hreg (fun s hs => ?_) (mapError_eq_ok_iff.1 h)
    subst hs
    exact hquery s rfl
  | byName p =>
    obtain ⟨d₁, hnames, h⟩ := bind_eq_ok_iff.1 h
    have hd₁ := hd.foldlM haddName (mapError_eq_ok_iff.1 hnames)
    split at h
    -- The tail of a path by name is made of names, so no selection of a record comes in by it.
    · exact hd₁.setTail hreg (fun _ hs => by cases hs) (mapError_eq_ok_iff.1 h)
    · cases h
      exact hd₁
  | ofRecord p =>
    obtain ⟨next, -, h⟩ := bind_eq_ok_iff.1 h
    obtain ⟨record, -, h⟩ := bind_eq_ok_iff.1 h
    simp only at h
    split at h
    · cases h
    · obtain ⟨d₁, hindices, h⟩ := bind_eq_ok_iff.1 h
      have hd₁ := hd.foldlM haddIndex (mapError_eq_ok_iff.1 hindices)
      split at h
      · rename_i tail htail
        refine hd₁.setTail hreg (fun s hs => ?_) (mapError_eq_ok_iff.1 h)
        cases hs
        exact hpath p rfl tail htail
      · cases h
        exact hd₁

end Draft

/-- A path that is put together from segments has a tail that is bound as theirs are, and that is a
    selection of the record at the end. -/
theorem ofSegments_boundBy (hreg : reg.Within P) {record : Schema} {segments : List Segment}
    {p : RecordPath} (hqueries : ∀ s, .tail (.ofRecord s) ∈ segments → s.BoundBy P)
    (hpaths : ∀ q, .ofRecord q ∈ segments → q.TailBoundBy P)
    (h : ofSegments reg record segments = .ok p) : p.TailBoundBy P ∧ p.Anchored reg := by
  obtain ⟨d, hd, h⟩ := bind_eq_ok_iff.1 h
  cases h
  have hstart : Draft.BoundBy reg P ⟨⟨record, [], none⟩, some record, ""⟩ := by
    refine ⟨fun r hr => ?_, nofun⟩
    cases hr
    exact .nil record
  -- Every segment keeps what is known of the draft.
  have hbound : d.BoundBy reg P := by
    refine foldlM_ok_induction (motive := Draft.BoundBy reg P)
      (fun d segment d' hmem hd h => ?_) hstart hd
    exact hd.addSegment hreg (fun s hs => hqueries s (hs ▸ hmem))
      (fun q hq => hpaths q (hq ▸ hmem)) h
  refine ⟨fun t ht => (hbound.tail t ht).1, fun t ht => ?_⟩
  exact hbound.leads t.record (hbound.tail t ht).2

/-- The record at the end of a path, if there is one, is what the path leads to. -/
theorem leads_of_walkFrom {record : Schema} {indices : List Nat}
    {steps : List (Schema × Nat × Field)} (h : walkFrom reg record indices = .ok steps) {r : Schema}
    (hr : (steps.getLast?.elim (some record) fun step => step.2.2.record reg) = some r) :
    Leads reg record indices (some r) := by
  -- The walk of the rest is from the nested record; where the rest is empty, that is the end.
  induction indices generalizing record steps with
  | nil =>
    cases h
    cases hr
    exact .nil _
  | cons i rest ih =>
    obtain ⟨f, hf, h⟩ := bind_eq_ok_iff.1 h
    have hfield := Schema.fieldAt_eq_ok_iff.1 hf
    cases hnext : f.record reg with
    | none =>
      simp only [hnext] at h
      cases h
      cases hnext.symm.trans hr
    | some next =>
      simp only [hnext] at h
      obtain ⟨more, hmore, h⟩ := bind_eq_ok_iff.1 h
      cases h
      refine .cons hfield hnext (ih hmore ?_)
      cases more with
      | nil => exact hnext.symm.trans hr
      | cons step more =>
        rw [List.getLast?_cons_cons] at hr
        cases hlast : (step :: more).getLast? with
        | none => cases List.getLast?_eq_none_iff.1 hlast
        | some last =>
          rw [hlast] at hr
          exact hr

/-- The record that the tail of a path would be of is what the path leads to. -/
theorem leads_of_tailRecord {p : RecordPath} {r : Schema} (h : p.tailRecord reg = .ok (some r)) :
    Leads reg p.record p.indices (some r) := by
  obtain ⟨steps, hsteps, h⟩ := bind_eq_ok_iff.1 h
  refine leads_of_walkFrom hsteps ?_
  cases hlast : steps.getLast? with
  | none =>
    simp only [hlast] at h
    exact Except.ok.inj h
  | some step =>
    simp only [hlast] at h
    exact Except.ok.inj h

/-- A tail that is added to is bound as before, and stays a selection of the record at the end. -/
theorem assignTail_boundBy (hreg : reg.Within P) {p p' : RecordPath} (hp : p.TailBoundBy P)
    {query : Query} (hq : ∀ s, query = .ofRecord s → s.BoundBy P)
    (h : p.assignTail reg query = .ok p') :
    p'.TailBoundBy P ∧ (p.Anchored reg → p'.Anchored reg) := by
  obtain ⟨target, htarget, h⟩ := bind_eq_ok_iff.1 h
  cases target with
  -- A path that ends in a field without a record takes no tail, and keeps the one it has.
  | none =>
    obtain ⟨names, -, h⟩ := bind_eq_ok_iff.1 h
    simp only at h
    split at h
    · cases h
      exact ⟨hp, id⟩
    · obtain ⟨fields, -, h⟩ := bind_eq_ok_iff.1 h
      cases h
  | some record =>
    obtain ⟨tail, htail, h⟩ := bind_eq_ok_iff.1 h
    cases h
    -- A path without a tail is added to as if it had an empty one.
    have hcurrent : (p.tail.getD (.empty record)).BoundBy P := by
      cases hpt : p.tail with
      | none => exact boundBy_empty record
      | some t => exact hp t hpt
    obtain ⟨hrecord, hbound⟩ := RecordSelection.boundBy_of_bindQuery
      RecordSelection.assign_descends hreg hcurrent hq htail
    refine ⟨fun t ht => ?_, fun hanchored t ht => ?_⟩
    · cases ht
      exact hbound
    · cases ht
      rw [hrecord]
      cases hpt : p.tail with
      | none => exact leads_of_tailRecord (mapError_eq_ok_iff.1 htarget)
      | some t => exact hanchored t hpt

end RecordPath

end FieldMask
