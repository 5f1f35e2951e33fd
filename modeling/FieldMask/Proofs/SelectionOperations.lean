import FieldMask.Proofs.ExceptLemmas
import FieldMask.Proofs.MapOfList
import FieldMask.Proofs.SelectionInvariant
import FieldMask.RecordSelection.Algebra

/-!
# Operations on selections of a record

Every operation on well-formed selections gives a well-formed selection. Seen from outside, a
selection is its record and the selection of each field that it names, so an operation is looked at
field by field: it fits a field with what one of its operands has for the same field, or with what a
field has that is selected in full.

The operations on two selections go down into the fields that both of them name. There the two have
selections of one record again, which is why none of them fails.

## Key results

- `wellFormed_iff`: a selection is well-formed if what it names fits, field by field
- `foldFields_keeps` / `foldFields_total`: `add`, `addExcluded` and `remove`
- `pick_total` / `exclude_total` / `assign_total`: the operations on two selections of one record
-/

namespace FieldMask

/-! ## Looking up fields -/

namespace Schema

/-- The default fields, by index. -/
theorem mem_defaultFields_iff {s : Schema} {i : Nat} {f : Field} :
    (i, f) ∈ s.defaultFields ↔ s.fields[i]? = some f ∧ s.isDefault f = true := by
  simp only [defaultFields, List.mem_map, List.mem_filter, Prod.mk.injEq]
  constructor
  · rintro ⟨⟨g, j⟩, ⟨hg, hdefault⟩, rfl, rfl⟩
    exact ⟨List.mem_zipIdx_iff_getElem?.1 hg, hdefault⟩
  · rintro ⟨hf, hdefault⟩
    exact ⟨(f, i), ⟨List.mem_zipIdx_iff_getElem?.2 hf, hdefault⟩, rfl, rfl⟩

/-- The indices of the default fields differ: they are some of those of all fields. -/
theorem nodup_defaultFields (s : Schema) : (s.defaultFields.map Prod.fst).Nodup := by
  have hall : (s.fields.zipIdx.map Prod.snd).Nodup := by
    rw [List.zipIdx_map_snd]
    exact List.nodup_range'
  rw [defaultFields, List.map_map]
  exact hall.sublist (List.filter_sublist.map Prod.snd)

/-- A field whose index exists is found. -/
theorem fieldAt_eq_ok_iff {s : Schema} {i : Nat} {f : Field} :
    s.fieldAt i = .ok f ↔ s.fields[i]? = some f := by
  rw [fieldAt]
  split <;> simp_all

end Schema

namespace RecordSelection

variable {reg : Registry}

/-! ## Field by field -/

/-- What is selected of the field at an index of a record: a well-formed selection of the nested
    record, or none if there is no such record. -/
structure Fits (reg : Registry) (record : Schema) (index : Nat) (child : Option RecordSelection) :
    Prop where
  suits : Suits reg record index child
  wellFormed : ∀ c ∈ child, c.WellFormed reg

/-- A selection is well-formed if what it names fits. -/
theorem wellFormed_iff {s : RecordSelection} :
    s.WellFormed reg ↔ ∀ i child, s.explicit? i = some child → Fits reg s.record i child := by
  cases s with
  | undefined record =>
    refine ⟨fun _ i child h => ?_, fun _ => trivial⟩
    cases h
  | defined record fields =>
    rw [WellFormed, wellFormedEach_iff]
    exact ⟨fun h i child hi => ⟨(h i child hi).1, (h i child hi).2⟩,
      fun h i child hi => ⟨(h i child hi).suits, (h i child hi).wellFormed⟩⟩

/-- What a well-formed selection names at an index fits there. -/
theorem WellFormed.fits {s : RecordSelection} (hs : s.WellFormed reg) {i : Nat}
    {child : Option RecordSelection} (h : s.explicit? i = some child) :
    Fits reg s.record i child :=
  wellFormed_iff.1 hs i child h

/-- A selection of the record, and well-formed. -/
def IsOf (reg : Registry) (record : Schema) (s : RecordSelection) : Prop :=
  s.record = record ∧ s.WellFormed reg

/-- A field without a nested record is only fitted by no selection at all. -/
theorem fits_none {record : Schema} {i : Nat} {f : Field} (hf : record.fields[i]? = some f)
    (hr : f.record reg = none) : Fits reg record i none :=
  ⟨⟨f, hf, hr.symm⟩, nofun⟩

/-- A field with a nested record is fitted by any well-formed selection of it. -/
theorem fits_some {record r : Schema} {i : Nat} {f : Field} {c : RecordSelection}
    (hf : record.fields[i]? = some f) (hr : f.record reg = some r) (hc : IsOf reg r c) :
    Fits reg record i (some c) := by
  refine ⟨⟨f, hf, by rw [hr, Option.map_some, hc.1]⟩, fun d hd => ?_⟩
  cases hd
  exact hc.2

/-- A field is fitted by what is chosen for its nested record. -/
theorem fits_map_record {record : Schema} {i : Nat} {f : Field} {g : Schema → RecordSelection}
    (hf : record.fields[i]? = some f) (hg : ∀ r, f.record reg = some r → IsOf reg r (g r)) :
    Fits reg record i ((f.record reg).map g) := by
  cases hr : f.record reg with
  | none => exact fits_none hf hr
  | some r => exact fits_some hf hr (hg r hr)

/-- A field that is selected in full. -/
theorem fits_fullChild {record : Schema} {i : Nat} {f : Field}
    (hf : record.fields[i]? = some f) : Fits reg record i (fullChild reg f) :=
  fits_map_record hf fun _ _ => ⟨rfl, trivial⟩

/-- All that fits a field is bound to one record. -/
theorem Fits.record_eq {record : Schema} {i : Nat} {a b : RecordSelection}
    (ha : Fits reg record i (some a)) (hb : Fits reg record i (some b)) : a.record = b.record := by
  obtain ⟨f, hf, hra⟩ := ha.suits
  obtain ⟨g, hg, hrb⟩ := hb.suits
  rw [hf] at hg
  cases hg
  exact Option.some.inj (hra.trans hrb.symm)

/-- Another selection of the same record fits as well. -/
theorem Fits.of_record_eq {record : Schema} {i : Nat} {a b : RecordSelection}
    (ha : Fits reg record i (some a)) (hrecord : b.record = a.record) (hb : b.WellFormed reg) :
    Fits reg record i (some b) := by
  obtain ⟨f, hf, hra⟩ := ha.suits
  refine ⟨⟨f, hf, ?_⟩, fun c hc => ?_⟩
  · rw [Option.map_some, hrecord]
    exact hra
  · cases hc
    exact hb

/-- The selection of a field is well-formed if it fits. -/
theorem Fits.child {record : Schema} {i : Nat} {c : RecordSelection}
    (h : Fits reg record i (some c)) : c.WellFormed reg :=
  h.wellFormed c rfl

/-! ### Naming and dropping a field -/

/-- Naming a field does not change the record. -/
@[simp] theorem record_put (s : RecordSelection) (i : Nat) (child : Option RecordSelection) :
    (s.put i child).record = s.record := rfl

@[simp] theorem record_erase (s : RecordSelection) (i : Nat) : (s.erase i).record = s.record := rfl

/-- The field is named with what it has been given, and the others as before. -/
theorem explicit?_put (s : RecordSelection) (i : Nat) (child : Option RecordSelection) (j : Nat) :
    (s.put i child).explicit? j = if i = j then some child else s.explicit? j :=
  Entries.get?_insert s.entries i child j

/-- The field is no longer named, and the others are as before. -/
theorem explicit?_erase (s : RecordSelection) (i j : Nat) :
    (s.erase i).explicit? j = if i = j then none else s.explicit? j :=
  Entries.get?_erase s.entries i j

/-- A field may be named with what fits it. -/
theorem WellFormed.put {s : RecordSelection} (hs : s.WellFormed reg) {i : Nat}
    {child : Option RecordSelection} (hc : Fits reg s.record i child) :
    (s.put i child).WellFormed reg := by
  refine wellFormed_iff.2 fun j c hj => ?_
  rw [explicit?_put] at hj
  split at hj
  · rename_i hij
    cases hj
    exact hij ▸ hc
  · exact hs.fits hj

/-- Any field may be dropped. -/
theorem WellFormed.erase {s : RecordSelection} (hs : s.WellFormed reg) (i : Nat) :
    (s.erase i).WellFormed reg := by
  refine wellFormed_iff.2 fun j c hj => ?_
  rw [explicit?_erase] at hj
  split at hj
  · cases hj
  · exact hs.fits hj

/-- The selection of fields that fit is well-formed. -/
theorem wellFormed_ofList {record : Schema} {pairs : List (Nat × Option RecordSelection)}
    (h : ∀ p ∈ pairs, Fits reg record p.1 p.2) :
    (defined record (Entries.ofList pairs)).WellFormed reg :=
  wellFormed_iff.2 fun i child hi => h (i, child) (Entries.mem_of_get?_ofList hi)

/-! ### Fields of a record -/

/-- Fields of a record may all be selected in full. -/
theorem wellFormed_full {record : Schema} {fields : List (Nat × Field)}
    (h : ∀ i f, (i, f) ∈ fields → record.fields[i]? = some f) :
    (defined record (full reg fields)).WellFormed reg := by
  refine wellFormed_ofList fun p hp => ?_
  obtain ⟨⟨i, f⟩, hf, rfl⟩ := List.mem_map.1 hp
  exact fits_fullChild (h i f hf)

/-- The selection of all fields in full is well-formed. -/
theorem complete_wellFormed (record : Schema) : (complete reg record).WellFormed reg := by
  refine wellFormed_full fun i f h => ?_
  obtain ⟨⟨g, j⟩, hg, heq⟩ := List.mem_map.1 h
  cases heq
  exact List.mem_zipIdx_iff_getElem?.1 hg

/-- Spelling out a selection does not change the record. -/
@[simp] theorem record_ensureDefined (s : RecordSelection) :
    (s.ensureDefined reg).record = s.record := by
  cases s <;> rfl

/-- A selection that is left open names its default fields, once they are spelt out. -/
theorem explicit?_ensureDefined_undefined {record : Schema} {i : Nat} {f : Field}
    (h : (i, f) ∈ record.defaultFields) :
    ((undefined record).ensureDefined reg).explicit? i = some (fullChild reg f) := by
  have hnodup : ((record.defaultFields.map fun p => (p.1, fullChild reg p.2)).map
      Prod.fst).Nodup := by
    rw [List.map_map]
    exact record.nodup_defaultFields
  exact (Entries.get?_ofList_eq_some_iff hnodup).2 (List.mem_map_of_mem h)

/-- Spelling out a selection keeps what it names. -/
theorem explicit?_ensureDefined_of_explicit? {s : RecordSelection} {i : Nat}
    {child : Option RecordSelection} (h : s.explicit? i = some child) :
    (s.ensureDefined reg).explicit? i = some child := by
  cases s with
  | undefined record => cases h
  | defined record fields => exact h

/-- A selection that is spelt out is well-formed if it was. -/
theorem WellFormed.ensureDefined {s : RecordSelection} (hs : s.WellFormed reg) :
    (s.ensureDefined reg).WellFormed reg := by
  cases s with
  | undefined record => exact wellFormed_full fun i f h => (Schema.mem_defaultFields_iff.1 h).1
  | defined record fields => exact hs

/-! ## Adding and removing fields -/

/-- The first of several fields is named in full, unless it is selected, and then the rest. -/
theorem addMissing_cons (s : RecordSelection) (i : Nat) (f : Field) (rest : List (Nat × Field)) :
    s.addMissing reg ((i, f) :: rest) =
      (if s.hasIndex i then s
        else (s.ensureDefined reg).put i (fullChild reg f)).addMissing reg rest := rfl

/-- Adding fields does not change the record. -/
theorem record_addMissing (s : RecordSelection) (fields : List (Nat × Field)) :
    (s.addMissing reg fields).record = s.record := by
  induction fields generalizing s with
  | nil => rfl
  | cons p rest ih =>
    rw [addMissing_cons, ih]
    split
    · rfl
    · exact record_ensureDefined s

/-- Fields may be named one after the other in full, unless they are selected. -/
theorem addMissing_isOf {s : RecordSelection} (hs : s.WellFormed reg) {fields : List (Nat × Field)}
    (h : ∀ i f, (i, f) ∈ fields → s.record.fields[i]? = some f) :
    IsOf reg s.record (s.addMissing reg fields) := by
  -- A field that is selected is passed over; another is put into the selection spelt out.
  induction fields generalizing s with
  | nil => exact ⟨rfl, hs⟩
  | cons p rest ih =>
    obtain ⟨i, f⟩ := p
    have hrest : ∀ j g, (j, g) ∈ rest → s.record.fields[j]? = some g :=
      fun j g hg => h j g (List.mem_cons_of_mem _ hg)
    rw [addMissing_cons]
    split
    · exact ih hs hrest
    · have hfits : Fits reg (s.ensureDefined reg).record i (fullChild reg f) := by
        rw [record_ensureDefined]
        exact fits_fullChild (h i f List.mem_cons_self)
      have hput := ih (hs.ensureDefined.put hfits) (by simpa using hrest)
      simpa using hput

/-- Change a selection at indices that are promised to exist, one after the other. -/
def foldFields (change : RecordSelection → Nat → Field → RecordSelection) (s : RecordSelection)
    (indices : List Nat) : Except Misuse RecordSelection :=
  indices.foldlM (fun s i => do return change s i (← s.record.fieldAt i)) s

section Changes

variable {change : RecordSelection → Nat → Field → RecordSelection}
  (keeps : ∀ s i f, s.WellFormed reg → s.record.fields[i]? = some f →
    IsOf reg s.record (change s i f))

include keeps

/-- What each change keeps, all of them keep. -/
theorem foldFields_keeps {s t : RecordSelection} {indices : List Nat} (hs : s.WellFormed reg)
    (h : foldFields change s indices = .ok t) : IsOf reg s.record t := by
  refine foldlM_ok_induction (motive := IsOf reg s.record) (fun a i b _ ha hb => ?_) ⟨rfl, hs⟩ h
  obtain ⟨f, hf, heq⟩ := bind_eq_ok_iff.1 hb
  cases heq
  obtain ⟨hrecord, hwell⟩ := keeps a i f ha.2 (Schema.fieldAt_eq_ok_iff.1 hf)
  exact ⟨hrecord.trans ha.1, hwell⟩

/-- Indices of fields can all be changed. -/
theorem foldFields_total {s : RecordSelection} {indices : List Nat} (hs : s.WellFormed reg)
    (hi : ∀ i ∈ indices, i < s.record.fields.length) :
    ∃ t, foldFields change s indices = .ok t := by
  -- The record stays the same while fields change, so an index that exists at first exists later.
  have hstep : ∀ a i, i ∈ indices → IsOf reg s.record a →
      ∃ b, (do return change a i (← a.record.fieldAt i) : Except Misuse RecordSelection) = .ok b ∧
        IsOf reg s.record b := by
    intro a i hmem ha
    obtain ⟨f, hf⟩ : ∃ f, a.record.fields[i]? = some f := by
      rw [ha.1]
      exact ⟨_, List.getElem?_eq_getElem (hi i hmem)⟩
    obtain ⟨hrecord, hwell⟩ := keeps a i f ha.2 hf
    rw [Schema.fieldAt_eq_ok_iff.2 hf]
    exact ⟨_, rfl, hrecord.trans ha.1, hwell⟩
  obtain ⟨t, ht, -⟩ := foldlM_total hstep ⟨rfl, hs⟩
  exact ⟨t, ht⟩

end Changes

/-- Name a field in full, unless it is named. -/
def addOne (reg : Registry) (s : RecordSelection) (i : Nat) (f : Field) : RecordSelection :=
  if (s.explicit? i).isSome then s else s.put i (fullChild reg f)

/-- Stop selecting a field. -/
def removeOne (reg : Registry) (s : RecordSelection) (i : Nat) (_ : Field) : RecordSelection :=
  if s.hasIndex i then (s.ensureDefined reg).erase i else s

/-- Adding fields changes the selection field by field. -/
theorem add_eq (s : RecordSelection) (indices : List Nat) :
    s.add reg indices = foldFields (addOne reg) s indices := rfl

/-- So does adding fields that are excluded. -/
theorem addExcluded_eq (s : RecordSelection) (indices : List Nat) :
    s.addExcluded reg indices = foldFields (fun s i f => s.addMissing reg [(i, f)]) s indices := rfl

/-- And so does removing fields. -/
theorem remove_eq (s : RecordSelection) (indices : List Nat) :
    s.remove reg indices = foldFields (removeOne reg) s indices := rfl

/-- A field may be named in full. -/
theorem addOne_isOf (s : RecordSelection) (i : Nat) (f : Field) (hs : s.WellFormed reg)
    (hf : s.record.fields[i]? = some f) : IsOf reg s.record (addOne reg s i f) := by
  rw [addOne]
  split
  · exact ⟨rfl, hs⟩
  · exact ⟨rfl, hs.put (fits_fullChild hf)⟩

/-- A field that is not selected may be named in full. -/
theorem addMissing_one_isOf (s : RecordSelection) (i : Nat) (f : Field) (hs : s.WellFormed reg)
    (hf : s.record.fields[i]? = some f) : IsOf reg s.record (s.addMissing reg [(i, f)]) := by
  refine addMissing_isOf hs fun j g h => ?_
  cases List.mem_singleton.1 h
  exact hf

/-- A field may be no longer selected. -/
theorem removeOne_isOf (s : RecordSelection) (i : Nat) (f : Field) (hs : s.WellFormed reg)
    (_ : s.record.fields[i]? = some f) : IsOf reg s.record (removeOne reg s i f) := by
  rw [removeOne]
  split
  · exact ⟨record_ensureDefined s, hs.ensureDefined.erase i⟩
  · exact ⟨rfl, hs⟩

/-! ## Combining selections of one record -/

/-- A selection of the same record is accepted. -/
theorem sameRecord_eq {s other : RecordSelection} (h : other.record = s.record) :
    s.sameRecord other = .ok () := by
  rw [sameRecord, if_pos h.symm]

/-- The operands have to be of one record. -/
theorem record_eq_of_sameRecord {s other t : RecordSelection}
    {rest : Unit → Except Misuse RecordSelection} (h : s.sameRecord other >>= rest = .ok t) :
    other.record = s.record := by
  obtain ⟨_, hsame, _⟩ := bind_eq_ok_iff.1 h
  rw [sameRecord] at hsame
  split at hsame
  · rename_i hrecord
    exact hrecord.symm
  · cases hsame

/-- The entries of a map fit one by one. -/
theorem wellFormedEach_cons {record : Schema} {bound : Option Nat} {i : Nat}
    {child : Option RecordSelection} {above : ∀ b ∈ bound, b < i}
    {rest : Entries Nat (Option RecordSelection) (some i)} :
    WellFormedEach reg record (.cons i child above rest) ↔
      Fits reg record i child ∧ WellFormedEach reg record rest := by
  cases child with
  | none =>
    exact ⟨fun h => ⟨⟨h.1, nofun⟩, h.2.2⟩, fun h => ⟨h.1.suits, trivial, h.2⟩⟩
  | some c =>
    refine ⟨fun h => ⟨⟨h.1, fun d hd => ?_⟩, h.2.2⟩, fun h => ⟨h.1.suits, h.1.child, h.2⟩⟩
    cases hd
    exact h.2.1

/-! ### What is selected by both -/

mutual

/-- Two selections of one record can be picked from. -/
theorem pick_total : ∀ q s : RecordSelection, q.WellFormed reg → s.WellFormed reg →
    q.record = s.record → ∃ t, s.pick reg q = .ok t ∧ IsOf reg s.record t
  -- By recursion along the second operand, which decides what is asked for. Only the first one is
  -- spelt out.
  | undefined record, s, _, hs, hr => by
    cases s with
    | undefined record' =>
      exact ⟨undefined record', by rw [pick, sameRecord_eq hr]; rfl, rfl, trivial⟩
    | defined record' fields =>
      simp only [pick, sameRecord_eq hr]
      refine ⟨_, rfl, rfl, wellFormed_ofList fun p hp => ?_⟩
      exact hs.fits (Entries.mem_toList_iff_get?_eq_some.1 (List.mem_filter.1 hp).1)
  | defined record query, s, hq, hs, hr => by
    have hr' : record = (s.ensureDefined reg).record := by
      rw [record_ensureDefined]
      exact hr
    obtain ⟨t, ht, hwell⟩ :=
      pickEach_total query (s.ensureDefined reg) (hr' ▸ hq) hs.ensureDefined
    rw [record_ensureDefined] at hwell
    refine ⟨defined s.record t, ?_, rfl, hwell⟩
    rw [pick, sameRecord_eq hr, ht]
    rfl
termination_by structural q => q

/-- So can the selections for the fields that are asked for, one by one. -/
theorem pickEach_total {bound : Option Nat} :
    ∀ (query : Entries Nat (Option RecordSelection) bound) (s : RecordSelection),
      WellFormedEach reg s.record query → s.WellFormed reg →
      ∃ t, pickEach reg s.entries query = .ok t ∧ (defined s.record t).WellFormed reg
  | .nil, _, _, _ => ⟨.nil, rfl, trivial⟩
  | .cons i none _ rest, s, hq, hs => by
    obtain ⟨t, ht, hwell⟩ := pickEach_total rest s (wellFormedEach_cons.1 hq).2 hs
    cases hget : s.entries.get? i with
    -- What is not named by the first operand is not selected.
    | none => exact ⟨t, by simp only [pickEach, ht, hget]; rfl, hwell⟩
    | some current =>
      refine ⟨t.insert i current, ?_, hwell.put (hs.fits hget)⟩
      simp only [pickEach, ht, hget]
      rfl
  | .cons i (some query) _ rest, s, hq, hs => by
    obtain ⟨hfits, hrest⟩ := wellFormedEach_cons.1 hq
    obtain ⟨t, ht, hwell⟩ := pickEach_total rest s hrest hs
    cases hget : s.entries.get? i with
    | none => exact ⟨t, by simp only [pickEach, hget, ht], hwell⟩
    | some current =>
      have hcurrent : Fits reg s.record i current := hs.fits hget
      cases current with
      | none =>
        refine ⟨t.insert i none, ?_, hwell.put hcurrent⟩
        simp only [pickEach, hget, ht]
        rfl
      | some current =>
        -- Both are selections of the nested record.
        obtain ⟨child, hchild, hrecord, hof⟩ := pick_total query current hfits.child
          hcurrent.child (hfits.record_eq hcurrent)
        -- An open selection of the nested record asks for all that is there.
        by_cases hopen : query.isUndefined = true
        · refine ⟨t.insert i (some current), ?_, hwell.put hcurrent⟩
          simp only [pickEach, hget, hopen, if_true, ht]
          rfl
        · refine ⟨t.insert i (some child), ?_, hwell.put (hcurrent.of_record_eq hrecord hof)⟩
          simp only [pickEach, hget, hopen, hchild, ht]
          rfl
termination_by structural query => query

end

/-- What a selection gives with another one is a selection of its record. -/
theorem WellFormed.pick {s q t : RecordSelection} (hs : s.WellFormed reg) (hq : q.WellFormed reg)
    (h : s.pick reg q = .ok t) : IsOf reg s.record t := by
  have hrecord : q.record = s.record := by
    -- Otherwise the operands would have been refused.
    cases q <;> cases s <;> simp only [RecordSelection.pick] at h <;>
      exact record_eq_of_sameRecord h
  exact of_exists_eq_ok (pick_total q s hq hs hrecord) h

/-! ### What only one selects -/

mutual

/-- A selection of one record can be taken from another one. -/
theorem exclude_total : ∀ q s : RecordSelection, q.WellFormed reg → s.WellFormed reg →
    q.record = s.record → ∃ t, s.exclude reg q = .ok t ∧ IsOf reg s.record t
  -- By recursion along the second operand again. An open one takes nothing away.
  | undefined record, s, _, hs, hr => by
    rw [exclude, sameRecord_eq hr]
    exact ⟨s, rfl, rfl, hs⟩
  | defined record query, s, hq, hs, hr => by
    have hr' : record = (s.ensureDefined reg).record := by
      rw [record_ensureDefined]
      exact hr
    obtain ⟨t, ht, hwell⟩ :=
      excludeEach_total query (s.ensureDefined reg) (hr' ▸ hq) hs.ensureDefined
    rw [record_ensureDefined] at hwell
    rw [exclude, sameRecord_eq hr]
    by_cases hempty : query.isEmpty = true
    · exact ⟨s, by rw [if_pos hempty]; rfl, rfl, hs⟩
    · exact ⟨defined s.record t, by rw [if_neg hempty, ht]; rfl, rfl, hwell⟩
termination_by structural q => q

/-- So can the selections for the fields that are taken away, one by one. -/
theorem excludeEach_total {bound : Option Nat} :
    ∀ (query : Entries Nat (Option RecordSelection) bound) (s : RecordSelection),
      WellFormedEach reg s.record query → s.WellFormed reg →
      ∃ t, excludeEach reg s.entries query = .ok t ∧ (defined s.record t).WellFormed reg
  | .nil, s, _, hs => by
    refine ⟨s.entries, rfl, ?_⟩
    cases s with
    | undefined record => trivial
    | defined record fields => exact hs
  | .cons i none _ rest, s, hq, hs => by
    obtain ⟨t, ht, hwell⟩ := excludeEach_total rest s (wellFormedEach_cons.1 hq).2 hs
    exact ⟨t.erase i, by simp only [excludeEach, ht]; rfl, hwell.erase i⟩
  | .cons i (some query) _ rest, s, hq, hs => by
    obtain ⟨hfits, hrest⟩ := wellFormedEach_cons.1 hq
    obtain ⟨t, ht, hwell⟩ := excludeEach_total rest s hrest hs
    -- An open selection takes the field away, an empty one nothing of it.
    by_cases hopen : query.isUndefined = true
    · exact ⟨t.erase i, by simp only [excludeEach, hopen, if_true, ht]; rfl, hwell.erase i⟩
    by_cases hempty : query.isEmpty = true
    · refine ⟨t, ?_, hwell⟩
      simp only [excludeEach, hopen, hempty, Bool.false_eq_true, if_true, if_false, ht]
    cases hget : s.entries.get? i with
    | none =>
      refine ⟨t, ?_, hwell⟩
      simp only [excludeEach, hopen, hempty, Bool.false_eq_true, if_false, hget, ht]
    | some current =>
      have hcurrent : Fits reg s.record i current := hs.fits hget
      cases current with
      | none =>
        refine ⟨t, ?_, hwell⟩
        simp only [excludeEach, hopen, hempty, Bool.false_eq_true, if_false, hget, ht]
      | some current =>
        -- Both are selections of the nested record.
        obtain ⟨left, hleft, hrecord, hof⟩ := exclude_total query current hfits.child
          hcurrent.child (hfits.record_eq hcurrent)
        -- A field of which nothing is left is not named any more.
        refine ⟨if left.isEmpty then t.erase i else t.insert i (some left), ?_, ?_⟩
        · simp only [excludeEach, hopen, hempty, Bool.false_eq_true, if_false, hget, hleft, ht]
          rfl
        · split
          · exact hwell.erase i
          · exact hwell.put (hcurrent.of_record_eq hrecord hof)
termination_by structural query => query

end

/-- What a selection gives with another one is a selection of its record. -/
theorem WellFormed.exclude {s q t : RecordSelection} (hs : s.WellFormed reg) (hq : q.WellFormed reg)
    (h : s.exclude reg q = .ok t) : IsOf reg s.record t := by
  have hrecord : q.record = s.record := by
    cases q <;> cases s <;> simp only [RecordSelection.exclude] at h <;>
      exact record_eq_of_sameRecord h
  exact of_exists_eq_ok (exclude_total q s hq hs hrecord) h

/-! ### What is named by either -/

mutual

/-- Two selections of one record can be put together. -/
theorem assign_total : ∀ o s : RecordSelection, o.WellFormed reg → s.WellFormed reg →
    o.record = s.record → ∃ t, s.assign reg o = .ok t ∧ IsOf reg s.record t
  -- By recursion along the second operand. An open one adds the default fields of the record.
  | undefined record, s, _, hs, hr => by
    cases s with
    | undefined record' =>
      exact ⟨undefined record', by simp only [assign, sameRecord_eq hr]; rfl, rfl, trivial⟩
    | defined record' fields =>
      simp only [assign, sameRecord_eq hr]
      refine ⟨_, rfl, addMissing_isOf hs fun i f h => ?_⟩
      rw [← hr]
      exact (Schema.mem_defaultFields_iff.1 h).1
  | defined record other, s, ho, hs, hr => by
    have hr' : record = s.record := hr
    obtain ⟨t, ht, hwell⟩ := assignEach_total other s (hr' ▸ ho) hs
    refine ⟨defined s.record t, ?_, rfl, hwell⟩
    rw [assign, sameRecord_eq hr, ht]
    rfl
termination_by structural o => o

/-- So can the selections for the fields that are added, one by one. -/
theorem assignEach_total {bound : Option Nat} :
    ∀ (other : Entries Nat (Option RecordSelection) bound) (s : RecordSelection),
      WellFormedEach reg s.record other → s.WellFormed reg →
      ∃ t, assignEach reg s.entries other = .ok t ∧ (defined s.record t).WellFormed reg
  | .nil, s, _, hs => by
    refine ⟨s.entries, rfl, ?_⟩
    cases s with
    | undefined record => trivial
    | defined record fields => exact hs
  | .cons i none _ rest, s, ho, hs => by
    obtain ⟨hfits, hrest⟩ := wellFormedEach_cons.1 ho
    obtain ⟨t, ht, hwell⟩ := assignEach_total rest s hrest hs
    refine ⟨if (s.entries.get? i).isSome then t else t.insert i none, ?_, ?_⟩
    · simp only [assignEach, ht]
      rfl
    · split
      · exact hwell
      · exact hwell.put hfits
  | .cons i (some other) _ rest, s, ho, hs => by
    obtain ⟨hfits, hrest⟩ := wellFormedEach_cons.1 ho
    obtain ⟨t, ht, hwell⟩ := assignEach_total rest s hrest hs
    cases hget : s.entries.get? i with
    | none =>
      refine ⟨t.insert i (some other), ?_, hwell.put hfits⟩
      simp only [assignEach, hget, ht]
      rfl
    | some current =>
      have hcurrent : Fits reg s.record i current := hs.fits hget
      cases current with
      | none =>
        refine ⟨t.insert i (some other), ?_, hwell.put hfits⟩
        simp only [assignEach, hget, ht]
        rfl
      | some current =>
        -- Of an open selection of the field and one that names fields below it, the latter prevails.
        by_cases hother : other.isUndefined = true
        · refine ⟨t.insert i (some current), ?_, hwell.put hcurrent⟩
          simp only [assignEach, hget, hother, if_true, ht]
          rfl
        by_cases hopen : current.isUndefined = true
        · refine ⟨t.insert i (some other), ?_, hwell.put hfits⟩
          simp only [assignEach, hget, hother, hopen, Bool.false_eq_true, if_true, if_false, ht]
          rfl
        -- Both are selections of the nested record.
        obtain ⟨both, hboth, hrecord, hof⟩ := assign_total other current hfits.child
          hcurrent.child (hfits.record_eq hcurrent)
        refine ⟨t.insert i (some both), ?_, hwell.put (hcurrent.of_record_eq hrecord hof)⟩
        simp only [assignEach, hget, hother, hopen, Bool.false_eq_true, if_false, hboth, ht]
        rfl
termination_by structural other => other

end

/-- What a selection gives with another one is a selection of its record. -/
theorem WellFormed.assign {s q t : RecordSelection} (hs : s.WellFormed reg) (hq : q.WellFormed reg)
    (h : s.assign reg q = .ok t) : IsOf reg s.record t := by
  have hrecord : q.record = s.record := by
    cases q <;> cases s <;> simp only [RecordSelection.assign] at h <;>
      exact record_eq_of_sameRecord h
  exact of_exists_eq_ok (assign_total q s hq hs hrecord) h

end RecordSelection

end FieldMask
