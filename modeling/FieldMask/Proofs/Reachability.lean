import FieldMask.Proofs.FieldLookups
import FieldMask.Proofs.PathInvariant
import Mathlib.Data.Set.Card

/-!
# Reachable selections

Selections of records come about by operations only, and operations take selections, queries that
hold selections, and paths, which may end in one. What can be reached by any number of operations,
with any arguments, is well-formed. So no operation that is used on a reachable selection as it is
meant to be ever looks up a field that does not exist, or combines selections of two records.

## Key results

- `ReachableSelection.wellFormed` and its companions: what is reachable is well-formed
- `RecordSelection.encard_hasIndex`: the size of a selection is the number of fields it selects
- `reachable_safe`: reachable selections and paths can be used without any misuse
-/

namespace FieldMask

/-! ## What can be reached -/

mutual

/-- The selections of records that can be reached. -/
inductive ReachableSelection (reg : Registry) : RecordSelection → Prop where
  | undefined (record : Schema) : ReachableSelection reg (.undefined record)
  | empty (record : Schema) : ReachableSelection reg (.empty record)
  | complete (record : Schema) : ReachableSelection reg (.complete reg record)
  | expandDefaults (record : Schema) : ReachableSelection reg (.expandDefaults reg record)
  | ofQuery {record : Schema} {query : Query} {t : RecordSelection}
      (input : ReachableQuery reg query)
      (result : RecordSelection.ofQuery reg record query = .ok t) : ReachableSelection reg t
  | add {s t : RecordSelection} {indices : List Nat} (before : ReachableSelection reg s)
      (result : s.add reg indices = .ok t) : ReachableSelection reg t
  | addExcluded {s t : RecordSelection} {indices : List Nat} (before : ReachableSelection reg s)
      (result : s.addExcluded reg indices = .ok t) : ReachableSelection reg t
  | remove {s t : RecordSelection} {indices : List Nat} (before : ReachableSelection reg s)
      (result : s.remove reg indices = .ok t) : ReachableSelection reg t
  | setField {s t : RecordSelection} {index : Nat} {query : Query}
      (before : ReachableSelection reg s)
      (input : ReachableQuery reg query) (result : s.setField reg index query = .ok t) :
      ReachableSelection reg t
  | assignToField {s t : RecordSelection} {index : Nat} {query : Query}
      (before : ReachableSelection reg s)
      (input : ReachableQuery reg query) (result : s.assignToField reg index query = .ok t) :
      ReachableSelection reg t
  | pick {s q t : RecordSelection} (before : ReachableSelection reg s)
      (other : ReachableSelection reg q)
      (result : s.pick reg q = .ok t) : ReachableSelection reg t
  | pickQuery {s t : RecordSelection} {query : Query} (before : ReachableSelection reg s)
      (input : ReachableQuery reg query) (result : s.pickQuery reg query = .ok t) :
      ReachableSelection reg t
  | exclude {s q t : RecordSelection} (before : ReachableSelection reg s)
      (other : ReachableSelection reg q)
      (result : s.exclude reg q = .ok t) : ReachableSelection reg t
  | excludeQuery {s t : RecordSelection} {query : Query} (before : ReachableSelection reg s)
      (input : ReachableQuery reg query) (result : s.excludeQuery reg query = .ok t) :
      ReachableSelection reg t
  | assign {s q t : RecordSelection} (before : ReachableSelection reg s)
      (other : ReachableSelection reg q)
      (result : s.assign reg q = .ok t) : ReachableSelection reg t
  | assignQuery {s t : RecordSelection} {query : Query} (before : ReachableSelection reg s)
      (input : ReachableQuery reg query) (result : s.assignQuery reg query = .ok t) :
      ReachableSelection reg t
  | ensureDefined {s : RecordSelection} (before : ReachableSelection reg s) :
      ReachableSelection reg (s.ensureDefined reg)
  | clear {s : RecordSelection} (before : ReachableSelection reg s) : ReachableSelection reg s.clear
  | toRecord {s t : RecordSelection} {record : Schema} (before : ReachableSelection reg s)
      (result : s.toRecord reg record = .ok t) : ReachableSelection reg t
  | fieldSelection {s t : RecordSelection} {index : Nat} (before : ReachableSelection reg s)
      (result : s.fieldSelection reg index = .ok (some t)) : ReachableSelection reg t
  | ofPath {p : RecordPath} {t : RecordSelection} (path : ReachablePath reg p)
      (result : p.toSelection reg = .ok t) : ReachableSelection reg t
  | tail {p : RecordPath} {t : RecordSelection} (path : ReachablePath reg p)
      (result : p.tail = some t) : ReachableSelection reg t
  | selectionAt {p : RecordPath} {s t : RecordSelection} (path : ReachablePath reg p)
      (before : ReachableSelection reg s) (result : p.selectionAt reg s = .ok (some t)) :
      ReachableSelection reg t

/-- The queries that can be made with selections that can be reached. -/
inductive ReachableQuery (reg : Registry) : Query → Prop where
  | open : ReachableQuery reg .open
  | expr (text : String) : ReachableQuery reg (.expr text)
  | names (list : List String) : ReachableQuery reg (.names list)
  | map {entries : Entries String Query none}
      (each : ∀ p ∈ entries.toList, ReachableQuery reg p.2) :
      ReachableQuery reg (.map entries)
  | byName (s : NameSelection) : ReachableQuery reg (.byName s)
  | ofRecord {s : RecordSelection} (selection : ReachableSelection reg s) : ReachableQuery reg
      (.ofRecord s)

/-- The paths that can be reached. -/
inductive ReachablePath (reg : Registry) : RecordPath → Prop where
  | ofSegments {record : Schema} {segments : List Segment} {p : RecordPath}
      (each : ∀ segment ∈ segments, ReachableSegment reg segment)
      (result : RecordPath.ofSegments reg record segments = .ok p) : ReachablePath reg p
  | assignTail {p p' : RecordPath} {query : Query} (before : ReachablePath reg p)
      (input : ReachableQuery reg query) (result : p.assignTail reg query = .ok p') :
      ReachablePath reg p'

/-- The segments that paths can be put together from. -/
inductive ReachableSegment (reg : Registry) : Segment → Prop where
  | names (dotted : String) : ReachableSegment reg (.names dotted)
  | index (i : Nat) : ReachableSegment reg (.index i)
  | ofRecord {p : RecordPath} (path : ReachablePath reg p) : ReachableSegment reg (.ofRecord p)
  | byName (p : NamePath) : ReachableSegment reg (.byName p)
  | tail {query : Query} (input : ReachableQuery reg query) : ReachableSegment reg (.tail query)

end

variable {reg : Registry}

open RecordSelection (IsOf)

/-! ## What is reachable is well-formed -/

mutual

/-- A reachable selection is well-formed: the invariant holds at first, and each operation keeps it.
    -/
theorem ReachableSelection.wellFormed {s : RecordSelection} :
    ReachableSelection reg s → s.WellFormed reg
  | .undefined _ => trivial
  | .empty _ => trivial
  | .complete record => RecordSelection.complete_wellFormed record
  | .expandDefaults record => (RecordSelection.expandInside_isOf [] record).2
  | .ofQuery input h => (RecordSelection.ofQuery_isOf input.sound h).2
  | .add before h =>
    (RecordSelection.foldFields_keeps RecordSelection.addOne_isOf before.wellFormed
      ((RecordSelection.add_eq _ _).symm.trans h)).2
  | .addExcluded before h =>
    (RecordSelection.foldFields_keeps RecordSelection.addMissing_one_isOf before.wellFormed
      ((RecordSelection.addExcluded_eq _ _).symm.trans h)).2
  | .remove before h =>
    (RecordSelection.foldFields_keeps RecordSelection.removeOne_isOf before.wellFormed
      ((RecordSelection.remove_eq _ _).symm.trans h)).2
  | .setField before input h =>
    ((RecordSelection.setField_meets before.wellFormed input.sound
      (RecordSelection.lt_of_fieldAt h)).of_eq_ok h).2
  | .assignToField before input h =>
    ((RecordSelection.assignToField_meets before.wellFormed input.sound
      (RecordSelection.lt_of_fieldAt h)).of_eq_ok h).2
  | .pick before other h => (before.wellFormed.pick other.wellFormed h).2
  | .pickQuery before input h =>
    ((RecordSelection.pickQuery_meets before.wellFormed input.sound).of_eq_ok h).2
  | .exclude before other h => (before.wellFormed.exclude other.wellFormed h).2
  | .excludeQuery before input h =>
    ((RecordSelection.excludeQuery_meets before.wellFormed input.sound).of_eq_ok h).2
  | .assign before other h => (before.wellFormed.assign other.wellFormed h).2
  | .assignQuery before input h =>
    ((RecordSelection.assignQuery_meets before.wellFormed input.sound).of_eq_ok h).2
  | .ensureDefined before => before.wellFormed.ensureDefined
  | .clear _ => trivial
  | .toRecord before h => (before.wellFormed.toRecord h).2
  | .fieldSelection before h => before.wellFormed.fieldSelection h
  | .ofPath path h => path.wellFormed.toSelection h
  | .tail path h => path.wellFormed.tail h
  | .selectionAt path before h => path.wellFormed.selectionAt before.wellFormed h
termination_by structural h => h

/-- A query that holds reachable selections is sound. -/
theorem ReachableQuery.sound {query : Query} : ReachableQuery reg query → query.Sound reg
  | .open => trivial
  | .expr _ => trivial
  | .names _ => trivial
  | .map each => Query.soundEach_iff.2 fun p hp => (each p hp).sound
  | .byName _ => trivial
  | .ofRecord selection => selection.wellFormed
termination_by structural h => h

/-- A reachable path leads somewhere, with a tail that is a selection of the record there. -/
theorem ReachablePath.wellFormed {p : RecordPath} : ReachablePath reg p → p.WellFormed reg
  | .ofSegments each h =>
    (RecordPath.ofSegments_meets fun segment hmem => (each segment hmem).sound).of_eq_ok h
  | .assignTail before input h =>
    (RecordPath.assignTail_meets before.wellFormed input.sound).of_eq_ok h
termination_by structural h => h

/-- A segment that holds what is reachable is sound. -/
theorem ReachableSegment.sound {segment : Segment} :
    ReachableSegment reg segment → segment.Sound reg
  | .names _ => trivial
  | .index _ => trivial
  | .ofRecord path => path.wellFormed
  | .byName _ => trivial
  | .tail input => input.sound
termination_by structural h => h

end

/-! ## What is reachable can be used -/

namespace RecordSelection

/-- The indices of the selected fields. -/
def indices : RecordSelection → List Nat
  | undefined record => record.defaultFields.map Prod.fst
  | defined _ fields => fields.keys

/-- There are as many indices as the size says. -/
theorem length_indices (s : RecordSelection) : s.indices.length = s.size := by
  cases s with
  | undefined record => exact List.length_map _
  | defined record fields => exact List.length_map _

/-- No index is listed twice. -/
theorem nodup_indices (s : RecordSelection) : s.indices.Nodup := by
  cases s with
  | undefined record => exact record.nodup_defaultFields
  | defined record fields => exact Entries.nodup_keys fields

/-- Of a well-formed selection, the indices are those that are selected. -/
theorem mem_indices_iff {s : RecordSelection} (hs : s.WellFormed reg) {i : Nat} :
    i ∈ s.indices ↔ s.hasIndex i = true := by
  cases s with
  -- The default fields are found by their indices in the record.
  | undefined record =>
    simp only [indices, List.mem_map, Prod.exists, Schema.mem_defaultFields_iff, exists_and_right,
      exists_eq_right, hasIndex, RecordSelection.record]
    cases record.fields[i]? <;> simp
  | defined record fields =>
    have hkey : i ∈ fields.keys ↔ ∃ child, fields.get? i = some child := by
      simp only [Entries.keys, List.mem_map, Prod.exists, exists_and_right, exists_eq_right,
        Entries.mem_toList_iff_get?_eq_some]
    rw [indices, hkey]
    -- An entry is at the index of a field, and an index that is selected has an entry.
    constructor
    · rintro ⟨child, hchild⟩
      have hfits : Fits reg record i child := hs.fits hchild
      obtain ⟨f, hf, -⟩ := hfits.suits
      simp only [hasIndex, RecordSelection.record, hf]
      exact Option.isSome_iff_exists.2 ⟨child, hchild⟩
    · intro h
      obtain ⟨f, hf⟩ := exists_field_of_hasIndex h
      simp only [RecordSelection.record] at hf
      simp only [hasIndex, RecordSelection.record, hf] at h
      exact Option.isSome_iff_exists.1 h

/-- The size of a well-formed selection is the number of fields that it selects. -/
theorem encard_hasIndex {s : RecordSelection} (hs : s.WellFormed reg) :
    {i | s.hasIndex i = true}.encard = s.size := by
  -- The selected indices are a finite set, without any of them twice.
  have hset : {i | s.hasIndex i = true} = (s.indices.toFinset : Set Nat) := by
    ext i
    rw [List.coe_toFinset]
    exact (mem_indices_iff hs).symm
  rw [hset, Set.encard_coe_eq_coe_finsetCard, List.toFinset_card_of_nodup (nodup_indices s),
    length_indices]

/-- No operation on a selection is a misuse if it is given indices of fields, and selections of the
    same record. Whatever the selection names, at any depth, is found, and so is what a selection
    names that it is compared or combined with. -/
structure Safe (reg : Registry) (s : RecordSelection) : Prop where
  fields : s.lookUpFields = .ok s.explicitFields
  render (nameOf : Field → Option String) :
    s.spell (renderer nameOf) = .ok (s.render nameOf)
  toNames : (s.expandNested reg []).spell namer = .ok (s.toNames reg)
  fieldSelection (i : Nat) (hi : i < s.record.fields.length) :
    ∃ child, s.fieldSelection reg i = .ok child
  add (indices : List Nat) (hi : ∀ i ∈ indices, i < s.record.fields.length) :
    ∃ t, s.add reg indices = .ok t
  addExcluded (indices : List Nat) (hi : ∀ i ∈ indices, i < s.record.fields.length) :
    ∃ t, s.addExcluded reg indices = .ok t
  remove (indices : List Nat) (hi : ∀ i ∈ indices, i < s.record.fields.length) :
    ∃ t, s.remove reg indices = .ok t
  setField (i : Nat) (hi : i < s.record.fields.length) (query : Query)
    (hq : ReachableQuery reg query) (m : Misuse) : s.setField reg i query ≠ .error (.misuse m)
  assignToField (i : Nat) (hi : i < s.record.fields.length) (query : Query)
    (hq : ReachableQuery reg query) (m : Misuse) : s.assignToField reg i query ≠ .error (.misuse m)
  contains (q : RecordSelection) (hq : ReachableSelection reg q) :
    s.lookUpContained reg q = .ok (s.contains reg q)
  pick (q : RecordSelection) (hq : ReachableSelection reg q) (hr : q.record = s.record) :
    ∃ t, s.lookUpPick reg q = .ok t ∧ s.pick reg q = .ok t
  exclude (q : RecordSelection) (hq : ReachableSelection reg q) (hr : q.record = s.record) :
    ∃ t, s.lookUpExclude reg q = .ok t ∧ s.exclude reg q = .ok t
  assign (q : RecordSelection) (hq : ReachableSelection reg q) (hr : q.record = s.record) :
    ∃ t, s.lookUpAssign reg q = .ok t ∧ s.assign reg q = .ok t
  pickQuery (query : Query) (hq : ReachableQuery reg query) (m : Misuse) :
    s.pickQuery reg query ≠ .error (.misuse m)
  excludeQuery (query : Query) (hq : ReachableQuery reg query) (m : Misuse) :
    s.excludeQuery reg query ≠ .error (.misuse m)
  assignQuery (query : Query) (hq : ReachableQuery reg query) (m : Misuse) :
    s.assignQuery reg query ≠ .error (.misuse m)

/-- A well-formed selection is safe: all that it names is found, and operations on one record
    succeed. -/
theorem WellFormed.safe {s : RecordSelection} (hs : s.WellFormed reg) : s.Safe reg where
  fields := lookUpFields_eq hs.allFound
  render := spell_render hs.allFound
  toNames := spell_toNames hs.allFound
  fieldSelection _ hi := ⟨_, fieldSelection_eq (List.getElem?_eq_getElem hi)⟩
  add _ hi := by
    rw [add_eq]
    exact foldFields_total addOne_isOf hs hi
  addExcluded _ hi := by
    rw [addExcluded_eq]
    exact foldFields_total addMissing_one_isOf hs hi
  remove _ hi := by
    rw [remove_eq]
    exact foldFields_total removeOne_isOf hs hi
  setField _ hi _ hq := (setField_meets hs hq.sound hi).ne_misuse
  assignToField _ hi _ hq := (assignToField_meets hs hq.sound hi).ne_misuse
  contains _ hq := lookUpContained_eq hq.wellFormed.allFound s
  -- Each of the three succeeds, and looking up what is named does not change what it gives.
  pick q hq hr := (pick_total q s hq.wellFormed hs hr).imp fun _ ht =>
    ⟨(lookUpPick_eq hs.allFound hq.wellFormed.allFound).trans ht.1, ht.1⟩
  exclude q hq hr := (exclude_total q s hq.wellFormed hs hr).imp fun _ ht =>
    ⟨(lookUpExclude_eq hq.wellFormed.allFound s).trans ht.1, ht.1⟩
  assign q hq hr := (assign_total q s hq.wellFormed hs hr).imp fun _ ht =>
    ⟨(lookUpAssign_eq hq.wellFormed.allFound s).trans ht.1, ht.1⟩
  pickQuery _ hq := (pickQuery_meets hs hq.sound).ne_misuse
  excludeQuery _ hq := (excludeQuery_meets hs hq.sound).ne_misuse
  assignQuery _ hq := (assignQuery_meets hs hq.sound).ne_misuse

end RecordSelection

/-- Nothing that is done with a path is a misuse: the fields along it are found, and so are those
    of a selection that it is followed in. -/
structure RecordPath.Safe (reg : Registry) (p : RecordPath) : Prop where
  walk : ∃ steps, p.walk reg = .ok steps
  toSelection : ∃ s, p.toSelection reg = .ok s
  selectionAt (s : RecordSelection) (hs : ReachableSelection reg s) :
    ∃ part, p.selectionAt reg s = .ok part
  assignTail (query : Query) (hq : ReachableQuery reg query) (m : Misuse) :
    p.assignTail reg query ≠ .error (.misuse m)

/-- A well-formed path is safe. -/
theorem RecordPath.WellFormed.safe {p : RecordPath} (hp : p.WellFormed reg) : p.Safe reg where
  walk := hp.walk
  toSelection := (toSelection_total hp).imp fun _ hs => hs.1
  selectionAt _ hs := (selectionAt_total hp hs.wellFormed).imp fun _ hpart => hpart.1
  assignTail _ hq := (assignTail_meets hp hq.sound).ne_misuse

/-- What is reachable is well-formed and can be used without any misuse. A reachable selection has
    the size that it selects fields. Putting paths together from what is reachable is no misuse, nor
    is reading a query that holds what is reachable. -/
theorem reachable_safe (reg : Registry) :
    (∀ s, ReachableSelection reg s → s.WellFormed reg ∧ s.Safe reg ∧
      {i | s.hasIndex i = true}.encard = s.size) ∧
    (∀ p, ReachablePath reg p → p.Safe reg) ∧
    (∀ record segments, (∀ segment ∈ segments, ReachableSegment reg segment) → ∀ m,
      RecordPath.ofSegments reg record segments ≠ .error (.misuse m)) ∧
    ∀ query, ReachableQuery reg query → query.lookUpNames reg = liftM (query.toNames reg) := by
  refine ⟨fun s hs => ?_, fun p hp => hp.wellFormed.safe, fun record segments each => ?_,
    fun query hq => Query.lookUpNames_eq query hq.sound⟩
  · have hwell := hs.wellFormed
    exact ⟨hwell, hwell.safe, RecordSelection.encard_hasIndex hwell⟩
  · exact (RecordPath.ofSegments_meets fun segment hmem => (each segment hmem).sound).ne_misuse

/-- All fields of a node but the first one. -/
def RecordSelection.restOfNode : RecordSelection :=
  (complete Registry.ofNode Schema.node).erase 0

/-- It is what is left once a field is removed. -/
theorem reachable_restOfNode : ReachableSelection Registry.ofNode .restOfNode :=
  @ReachableSelection.remove _ _ _ [0] (.complete Schema.node) rfl

/-- It selects four fields. -/
theorem reachable_safe_restOfNode :
    {i | RecordSelection.restOfNode.hasIndex i = true}.encard = 4 := by
  have hsize : RecordSelection.restOfNode.size = 4 := rfl
  rw [((reachable_safe Registry.ofNode).1 .restOfNode reachable_restOfNode).2.2, hsize]
  rfl

end FieldMask
