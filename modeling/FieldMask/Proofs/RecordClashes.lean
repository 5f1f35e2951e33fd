import FieldMask.Proofs.FieldwiseAlgebra

/-!
# Selections that cannot be combined

The operations on two selections promise that the two are of one record, and check it again at each
field that both name with a selection. So an operation can fail far down, where the two selections
of a field turn out to be of different records. It fails nowhere else, and in no other way.

## Key results

- `Clashes`: selections of different records meet
- `Descends.exists_eq_ok_iff`: an operation that goes down into fields succeeds if there is no clash
- `pick_descends` / `exclude_descends` / `assign_descends`: the operations are of this kind
- `misused_bindQuery_iff` / `misused_assignToField_iff`: so it is with queries, and at a field
-/

namespace FieldMask.RecordSelection

variable {reg : Registry}

/-! ## Operations that go down into fields -/

/-- Selections of different records meet: the two, or two that are met further down. `shown` is what
    the first selection is taken to name, and `meets` says which selections of a field meet. -/
inductive Clashes (shown : RecordSelection → RecordSelection)
    (meets : RecordSelection → RecordSelection → Bool) : RecordSelection → RecordSelection → Prop
  | here {s q : RecordSelection} (differ : s.record ≠ q.record) : Clashes shown meets s q
  | deeper {s q c d : RecordSelection} {i : Nat} (left : (shown s).explicit? i = some (some c))
      (right : q.explicit? i = some (some d)) (meet : meets c d = true)
      (clash : Clashes shown meets c d) : Clashes shown meets s q

/-- Where the selections that two selections have for a field meet, an operation succeeds on
    them. -/
def SucceedsAt (meets : RecordSelection → RecordSelection → Bool)
    (op : RecordSelection → RecordSelection → Except Misuse RecordSelection)
    (left right : Option (Option RecordSelection)) : Prop :=
  ∀ c d, left = some (some c) → right = some (some d) → meets c d = true → ∃ t, op c d = .ok t

/-- What an operation names a field with: what one of its operands has for the field, or both
    together. -/
def Inherits (op : RecordSelection → RecordSelection → Except Misuse RecordSelection)
    (left right : Option (Option RecordSelection)) (child : Option RecordSelection) : Prop :=
  left = some child ∨ right = some child ∨
    ∃ c d t, left = some (some c) ∧ right = some (some d) ∧ op c d = .ok t ∧ child = some t

/-- An operation on two selections of one record that goes down into the fields that both name. -/
structure Descends (reg : Registry) (shown : RecordSelection → RecordSelection)
    (meets : RecordSelection → RecordSelection → Bool)
    (op : RecordSelection → RecordSelection → Except Misuse RecordSelection) : Prop where
  /-- The two have to be of one record. -/
  otherRecord {s q : RecordSelection} (differ : s.record ≠ q.record) :
    op s q = .error (.otherRecord s.record.name q.record.name)
  /-- It succeeds if it does at each field. -/
  succeeds {s q : RecordSelection} (same : s.record = q.record) : (∃ t, op s q = .ok t) ↔
    ∀ i, SucceedsAt meets op ((shown s).explicit? i) (q.explicit? i)
  /-- It gives a selection of the record. The fields are those of the two, default fields
      included. -/
  result {s q t : RecordSelection} (ok : op s q = .ok t) :
    t.record = s.record ∧ ∀ i child, t.explicit? i = some child →
      Inherits op ((s.ensureDefined reg).explicit? i) (q.explicit? i) child ∨
        (q.ensureDefined reg).explicit? i = some child

namespace Descends

variable {shown : RecordSelection → RecordSelection}
  {meets : RecordSelection → RecordSelection → Bool}
  {op : RecordSelection → RecordSelection → Except Misuse RecordSelection}

/-- Where selections of different records meet, there is no result. -/
theorem ne_ok_of_clashes (h : Descends reg shown meets op) {s q : RecordSelection}
    (hclash : Clashes shown meets s q) (t : RecordSelection) : op s q ≠ .ok t := by
  induction hclash generalizing t with
  | here differ =>
    rw [h.otherRecord differ]
    nofun
  | @deeper s q c d i left right meet _ ih =>
    intro ht
    -- Where the records are the same, the operation succeeds at the field as well, contrary to
    -- `ih`.
    by_cases same : s.record = q.record
    · obtain ⟨u, hu⟩ := (h.succeeds same).1 ⟨t, ht⟩ i c d left right meet
      exact ih u hu
    · rw [h.otherRecord same] at ht
      cases ht

/-- The operation succeeds exactly if no selections of different records meet. -/
theorem exists_eq_ok_iff (h : Descends reg shown meets op) {s q : RecordSelection} :
    (∃ t, op s q = .ok t) ↔ ¬ Clashes shown meets s q := by
  refine ⟨fun ⟨t, ht⟩ hclash => h.ne_ok_of_clashes hclash t ht, fun hno => ?_⟩
  -- Without a clash here the two are of one record, and without one below each field succeeds.
  have same {s q : RecordSelection} (hno : ¬ Clashes shown meets s q) : s.record = q.record :=
    by_contra fun differ => hno (.here differ)
  induction q using RecordSelection.induction generalizing s with
  | undefined record =>
    refine (h.succeeds (same hno)).2 fun i c d _ hd => ?_
    cases hd
  | defined record fields ih =>
    refine (h.succeeds (same hno)).2 fun i c d hc hd hmeet => ?_
    exact ih i d hd fun hclash => hno (.deeper hc hd hmeet hclash)

end Descends

/-! ## Field by field -/

section Fields

variable {meets : RecordSelection → RecordSelection → Bool}
  {op : RecordSelection → RecordSelection → Except Misuse RecordSelection}
  {fields : OrderedMap Nat (Option RecordSelection)} {bound : Option Nat}

/-- Where there is nothing on the right, nothing can fail. -/
theorem succeedsAt_none_right (left : Option (Option RecordSelection)) :
    SucceedsAt meets op left none := nofun

/-- An operation succeeds at all fields if it does at the first one and at those behind it. -/
theorem forall_succeedsAt_cons_iff {key : Nat} {child : Option RecordSelection}
    {above : ∀ b ∈ bound, b < key} {rest : Entries Nat (Option RecordSelection) (some key)} :
    (∀ i, SucceedsAt meets op (fields.get? i) ((Entries.cons key child above rest).get? i)) ↔
      SucceedsAt meets op (fields.get? key) (some child) ∧
        ∀ i, SucceedsAt meets op (fields.get? i) (rest.get? i) :=
  Entries.forall_get?_cons_iff (P := fun i child => SucceedsAt meets op (fields.get? i) child)
    fun i => succeedsAt_none_right (fields.get? i)

@[simp] theorem succeedsAt_none_left (right : Option (Option RecordSelection)) :
    SucceedsAt meets op none right := nofun

@[simp] theorem succeedsAt_some_none_left (right : Option (Option RecordSelection)) :
    SucceedsAt meets op (some none) right := nofun

@[simp] theorem succeedsAt_some_none_right (left : Option (Option RecordSelection)) :
    SucceedsAt meets op left (some none) := nofun

@[simp] theorem succeedsAt_some_some_iff {c d : RecordSelection} :
    SucceedsAt meets op (some (some c)) (some (some d)) ↔
      (meets c d = true → ∃ t, op c d = .ok t) :=
  ⟨fun h => h c d rfl rfl, fun h _ _ hc hd => by cases hc; cases hd; exact h⟩

/-- Where no selections meet, nothing can fail. -/
theorem succeedsAt_of_not_meets {left : Option (Option RecordSelection)} {d : RecordSelection}
    (h : ∀ c, meets c d = false) : SucceedsAt meets op left (some (some d)) := by
  intro c d' _ hd hmeet
  cases hd
  rw [h c] at hmeet
  cases hmeet

/-- A query is picked if it is at each field where it is not left open. -/
theorem exists_pickEach_eq_ok_iff {query : Entries Nat (Option RecordSelection) bound} :
    (∃ t, pickEach reg fields query = .ok t) ↔
      ∀ i, SucceedsAt (fun _ d => !d.isUndefined) (pick reg) (fields.get? i) (query.get? i) := by
  induction query with
  | nil => exact iff_of_true ⟨.nil, rfl⟩ fun i => succeedsAt_none_right (fields.get? i)
  | cons key child above rest ih =>
    rw [forall_succeedsAt_cons_iff, ← ih]
    cases child with
    | none =>
      rw [pickEach, exists_bind_eq_ok_iff, iff_true_intro (succeedsAt_some_none_right _), true_and]
      refine exists_congr fun picked => and_iff_left ?_
      cases fields.get? key <;> exact ⟨_, rfl⟩
    | some d =>
      rw [pickEach]
      -- Only a nested selection on both sides can fail.
      rcases hget : fields.get? key with _ | _ | c
      · rw [iff_true_intro (succeedsAt_none_left _), true_and]
      · rw [iff_true_intro (succeedsAt_some_none_left _), true_and]
        exact exists_bind_pure_eq_ok_iff
      · rw [succeedsAt_some_some_iff]
        -- A query that is left open picks what there is.
        cases hopen : d.isUndefined with
        | true =>
          refine (exists_bind_bind_pure_eq_ok_iff (x := pure c)).trans (and_congr_left fun _ => ?_)
          exact iff_of_true ⟨c, rfl⟩ nofun
        | false =>
          refine exists_bind_bind_pure_eq_ok_iff.trans (and_congr_left fun _ => ?_)
          exact ⟨fun h _ => h, fun h => h rfl⟩

/-- A query is taken from fields if it is at each field where it names something. -/
theorem exists_excludeEach_eq_ok_iff {query : Entries Nat (Option RecordSelection) bound} :
    (∃ t, excludeEach reg fields query = .ok t) ↔
      ∀ i, SucceedsAt (fun _ d => !d.isUndefinedOrEmpty) (exclude reg) (fields.get? i)
        (query.get? i) := by
  induction query with
  | nil => exact iff_of_true ⟨fields, rfl⟩ fun i => succeedsAt_none_right (fields.get? i)
  | cons key child above rest ih =>
    rw [forall_succeedsAt_cons_iff, ← ih]
    cases child with
    | none =>
      rw [excludeEach, iff_true_intro (succeedsAt_some_none_right _), true_and]
      exact exists_bind_pure_eq_ok_iff
    | some d =>
      rw [excludeEach]
      -- What the query names in full is dropped, and what it names nothing of is kept as it is.
      cases hopen : d.isUndefined with
      | true =>
        rw [iff_true_intro (succeedsAt_of_not_meets (by simp [isUndefinedOrEmpty, hopen])),
          true_and]
        exact exists_bind_pure_eq_ok_iff
      | false =>
        cases hempty : d.isEmpty with
        | true =>
          rw [iff_true_intro (succeedsAt_of_not_meets (by simp [isUndefinedOrEmpty, hempty])),
            true_and]
          rfl
        | false =>
          rcases hget : fields.get? key with _ | _ | c
          · rw [iff_true_intro (succeedsAt_none_left _), true_and]
            rfl
          · rw [iff_true_intro (succeedsAt_some_none_left _), true_and]
            rfl
          -- The operation goes down only if something is named and not everything is.
          · rw [succeedsAt_some_some_iff]
            have hmeet : (!d.isUndefinedOrEmpty) = true := by
              simp [isUndefinedOrEmpty, hopen, hempty]
            refine exists_bind_bind_pure_eq_ok_iff.trans (and_congr_left fun _ => ?_)
            exact ⟨fun h _ => h, fun h => h hmeet⟩

/-- Two selections are put together if they are at each field where neither is left open. -/
theorem exists_assignEach_eq_ok_iff {other : Entries Nat (Option RecordSelection) bound} :
    (∃ t, assignEach reg fields other = .ok t) ↔
      ∀ i, SucceedsAt (fun c d => !c.isUndefined && !d.isUndefined) (assign reg) (fields.get? i)
        (other.get? i) := by
  induction other with
  | nil => exact iff_of_true ⟨fields, rfl⟩ fun i => succeedsAt_none_right (fields.get? i)
  | cons key child above rest ih =>
    rw [forall_succeedsAt_cons_iff, ← ih]
    cases child with
    | none =>
      rw [assignEach, iff_true_intro (succeedsAt_some_none_right _), true_and]
      exact exists_bind_pure_eq_ok_iff
    | some d =>
      rw [assignEach]
      -- Only where both have a selection are the two put together, unless one of them is left open.
      rcases hget : fields.get? key with _ | _ | c
      · rw [iff_true_intro (succeedsAt_none_left _), true_and]
        exact exists_bind_pure_eq_ok_iff
      · rw [iff_true_intro (succeedsAt_some_none_left _), true_and]
        exact exists_bind_pure_eq_ok_iff
      · rw [succeedsAt_some_some_iff]
        dsimp only
        cases d.isUndefined with
        | true =>
          refine (exists_bind_bind_pure_eq_ok_iff (x := pure c)).trans (and_congr_left fun _ => ?_)
          exact iff_of_true ⟨c, rfl⟩ fun h => by simp at h
        | false =>
          cases c.isUndefined with
          | true =>
            refine (exists_bind_bind_pure_eq_ok_iff (x := pure d)).trans
              (and_congr_left fun _ => ?_)
            exact iff_of_true ⟨d, rfl⟩ nofun
          | false =>
            refine exists_bind_bind_pure_eq_ok_iff.trans (and_congr_left fun _ => ?_)
            exact ⟨fun h _ => h, fun h => h rfl⟩

end Fields

/-! ## Where the fields of a result come from -/

section Inherits

variable {op : RecordSelection → RecordSelection → Except Misuse RecordSelection}
  {left right : Option (Option RecordSelection)} {child : Option RecordSelection}

/-- Where there is nothing on the left, all comes from the right. -/
theorem Inherits.of_none_left (h : Inherits op none right child) : right = some child := by
  obtain h | h | ⟨_, _, _, h, _⟩ := h
  · cases h
  · exact h
  · cases h

/-- What is picked at a field is what the selection has there, or picked from it. -/
theorem inherits_of_pickAt (h : pickAt reg left right = .ok (some child)) :
    Inherits (pick reg) left right child := by
  rcases left with _ | _ | c
  · cases h
  · cases right with
    | none => cases h
    | some d =>
      cases h
      exact .inl rfl
  -- What was picked as it is comes from the selection, and otherwise from both.
  · rcases right with _ | _ | d
    · cases h
    · cases h
      exact .inl rfl
    · rw [pickAt] at h
      split at h
      · cases h
        exact .inl rfl
      · obtain ⟨t, ht, h⟩ := bind_eq_ok_iff.1 h
        cases h
        exact .inr (.inr ⟨c, d, t, rfl, rfl, ht, rfl⟩)

/-- What is named at a field after assignment comes from one of the two or from both together. -/
theorem inherits_of_assignAt (h : assignAt reg left right = .ok (some child)) :
    Inherits (assign reg) left right child := by
  rcases left with _ | _ | c
  · cases right with
    | none => cases h
    | some d =>
      cases h
      exact .inr (.inl rfl)
  · rcases right with _ | _ | d <;> cases h
    · exact .inl rfl
    · exact .inl rfl
    · exact .inr (.inl rfl)
  · rcases right with _ | _ | d
    · cases h
      exact .inl rfl
    · cases h
      exact .inl rfl
    -- One of the two is left open, and the other one is kept; or they are put together.
    · obtain ⟨t, ht, h⟩ := bind_eq_ok_iff.1 h
      cases h
      rw [merge] at ht
      split at ht
      · cases ht
        exact .inl rfl
      · split at ht
        · cases ht
          exact .inr (.inl rfl)
        · exact .inr (.inr ⟨c, d, t, rfl, rfl, ht, rfl⟩)

/-- What is left at a field is what the selection has there, or excluded from it. -/
theorem inherits_of_excludeAt (h : excludeAt reg left right = .ok (some child)) :
    Inherits (exclude reg) left right child := by
  -- What is left as it is comes from the selection.
  have hsame : left = some child → Inherits (exclude reg) left right child := .inl
  rcases right with _ | _ | d
  · rw [excludeAt_none_right] at h
    exact hsame (Except.ok.inj h)
  · rcases left with _ | _ | c <;> cases h
  · rcases left with _ | _ | c
    · simp only [excludeAt] at h
      split at h <;> cases h
    · simp only [excludeAt] at h
      split at h
      · cases h
      · exact hsame (Except.ok.inj h)
    · rw [excludeAt] at h
      split at h
      · cases h
      split at h
      · exact hsame (Except.ok.inj h)
      · obtain ⟨t, ht, h⟩ := bind_eq_ok_iff.1 h
        split at h
        · cases h
        · cases h
          exact .inr (.inr ⟨c, d, t, rfl, rfl, ht, rfl⟩)

end Inherits

/-- Fields that are added unless they are selected. -/
theorem explicit?_addMissing {s : RecordSelection} {fields : List (Nat × Field)} {i : Nat}
    {child : Option RecordSelection} (h : (s.addMissing reg fields).explicit? i = some child) :
    (s.ensureDefined reg).explicit? i = some child ∨
      ∃ f, (i, f) ∈ fields ∧ child = fullChild reg f := by
  induction fields generalizing s with
  | nil => exact .inl (explicit?_ensureDefined_of_explicit? h)
  | cons p rest ih =>
    obtain ⟨j, f⟩ := p
    rw [addMissing_cons] at h
    -- A field that is selected already is passed over, and one that is added is selected in full.
    split at h
    · exact (ih h).imp_right fun ⟨g, hg, heq⟩ => ⟨g, List.mem_cons_of_mem _ hg, heq⟩
    · obtain hput | ⟨g, hg, heq⟩ := ih h
      · replace hput : ((s.ensureDefined reg).put j (fullChild reg f)).explicit? i = some child :=
          hput
        rw [explicit?_put] at hput
        split at hput
        · rename_i hj
          cases hput
          exact .inr ⟨f, hj ▸ List.mem_cons_self, rfl⟩
        · exact .inl hput
      · exact .inr ⟨g, List.mem_cons_of_mem _ hg, heq⟩

/-! ## The operations -/

/-- Selections of one record are combined as far as the records go. -/
theorem exists_sameRecord_bind_iff {s q : RecordSelection} (same : s.record = q.record)
    {rest : Unit → Except Misuse RecordSelection} :
    (∃ t, s.sameRecord q >>= rest = .ok t) ↔ ∃ t, rest () = .ok t := by
  rw [sameRecord_eq same.symm]
  rfl

/-- Picking goes down where the query is not left open. -/
theorem pick_descends :
    Descends reg (ensureDefined reg) (fun _ d => !d.isUndefined) (pick reg) where
  -- The records are compared before anything else.
  otherRecord {s q} differ := by
    cases q <;> simp only [pick, sameRecord, if_neg differ] <;> rfl
  succeeds {s q} same := by
    -- An open query goes down nowhere, so it never fails.
    cases q with
    | undefined record =>
      refine iff_of_true ?_ fun i => succeedsAt_none_right _
      cases s <;> simp only [pick, sameRecord_eq same.symm] <;> exact ⟨_, rfl⟩
    | defined record query =>
      rw [pick, exists_sameRecord_bind_iff same, exists_bind_pure_eq_ok_iff]
      exact exists_pickEach_eq_ok_iff
  result {s q t} ok := by
    cases q with
    | undefined record =>
      cases s with
      | undefined record' =>
        obtain ⟨-, -, ok⟩ := bind_eq_ok_iff.1 ok
        cases ok
        refine ⟨rfl, fun i child named => ?_⟩
        cases named
      | defined record' fields =>
        obtain ⟨-, -, ok⟩ := bind_eq_ok_iff.1 ok
        cases ok
        refine ⟨rfl, fun i child named => .inl (.inl ?_)⟩
        have hmem := Entries.mem_of_get?_ofList named
        exact Entries.mem_toList_iff_get?_eq_some.1 (List.mem_filter.1 hmem).1
    | defined record query =>
      obtain ⟨picked, rfl, hpicked⟩ := pick_defined_eq_ok ok
      refine ⟨rfl, fun i child named => .inl (inherits_of_pickAt ((hpicked i).trans ?_))⟩
      exact congrArg Except.ok named

/-- Excluding goes down where the query names something. -/
theorem exclude_descends :
    Descends reg (ensureDefined reg) (fun _ d => !d.isUndefinedOrEmpty) (exclude reg) where
  otherRecord {s q} differ := by
    cases q <;> simp only [exclude, sameRecord, if_neg differ] <;> rfl
  succeeds {s q} same := by
    cases q with
    | undefined record =>
      refine iff_of_true ?_ fun i => succeedsAt_none_right _
      simp only [exclude, sameRecord_eq same.symm]
      exact ⟨_, rfl⟩
    | defined record query =>
      rw [exclude, exists_sameRecord_bind_iff same]
      cases query with
      | nil => exact iff_of_true ⟨s, rfl⟩ fun i => succeedsAt_none_right _
      | cons key child above rest =>
        refine exists_bind_pure_eq_ok_iff.trans ?_
        exact exists_excludeEach_eq_ok_iff
  result {s q t} ok := by
    -- Where nothing is excluded, the selection is given back.
    cases hnothing : q.isUndefinedOrEmpty with
    | true =>
      cases exclude_nothing_eq_ok hnothing ok
      exact ⟨rfl, fun i child named => .inl (.inl (explicit?_ensureDefined_of_explicit? named))⟩
    | false =>
      cases q with
      | undefined record => cases hnothing
      | defined record query =>
        obtain ⟨left, rfl, hleft⟩ := exclude_defined_eq_ok hnothing ok
        refine ⟨rfl, fun i child named => .inl (inherits_of_excludeAt ((hleft i).trans ?_))⟩
        exact congrArg Except.ok named

/-- Putting together goes down where neither selection is left open. -/
theorem assign_descends :
    Descends reg id (fun c d => !c.isUndefined && !d.isUndefined) (assign reg) where
  otherRecord {s q} differ := by
    cases q <;> simp only [assign, sameRecord, if_neg differ] <;> rfl
  succeeds {s q} same := by
    cases q with
    | undefined record =>
      refine iff_of_true ?_ fun i => succeedsAt_none_right _
      cases s <;> simp only [assign, sameRecord_eq same.symm] <;> exact ⟨_, rfl⟩
    | defined record other =>
      rw [assign, exists_sameRecord_bind_iff same, exists_bind_pure_eq_ok_iff]
      exact exists_assignEach_eq_ok_iff
  result {s q t} ok := by
    cases q with
    | undefined record =>
      cases s with
      | undefined record' =>
        obtain ⟨-, -, ok⟩ := bind_eq_ok_iff.1 ok
        cases ok
        refine ⟨rfl, fun i child named => ?_⟩
        cases named
      | defined record' fields =>
        obtain ⟨-, -, ok⟩ := bind_eq_ok_iff.1 ok
        cases ok
        -- What an open selection adds are its default fields, in full.
        refine ⟨record_addMissing _ _, fun i child named => ?_⟩
        obtain hleft | ⟨f, hf, rfl⟩ := explicit?_addMissing named
        · exact .inl (.inl hleft)
        · exact .inr (explicit?_ensureDefined_undefined hf)
    | defined record other =>
      obtain ⟨merged, rfl, hmerged⟩ := assign_defined_eq_ok ok
      refine ⟨rfl, fun i child named => ?_⟩
      have hinherits : Inherits (assign reg) (s.explicit? i) (other.get? i) child :=
        inherits_of_assignAt ((hmerged i).trans (congrArg Except.ok named))
      -- Assigned to an open selection, the fields are those of the other one.
      cases s with
      | undefined record' => exact .inr hinherits.of_none_left
      | defined record' fields => exact .inl hinherits

/-! ## The field at an index -/

/-- What a field is named with if a selection is added to the one that it has. -/
def mergeField (reg : Registry) : Option (Option RecordSelection) → Option RecordSelection →
    Except Misuse (Option RecordSelection)
  | some (some current), some other => do return some (← current.merge reg other)
  | _, child => .ok child

/-- A field is assigned to by binding a query to it and adding what has been bound. -/
theorem assignToField_eq (s : RecordSelection) (i : Nat) (query : Query) :
    s.assignToField reg i query = (do
      let f ← s.record.fieldAt i
      let child ← f.bind reg query
      let merged ← mergeField reg (s.explicit? i) child
      return s.put i merged : Except Failure RecordSelection) := by
  refine bind_congr fun f => bind_congr fun child => ?_
  rcases s.explicit? i with _ | _ | current
  · rfl
  · rfl
  · cases child with
    | none => rfl
    -- The two definitions go by the same tests, one by one.
    | some other =>
      simp only [mergeField, merge]
      cases other.isUndefined with
      | true => rfl
      | false =>
        cases current.isUndefined with
        | true => rfl
        | false => cases current.assign reg other <;> rfl

/-- A selection is added to the one that a field has if the two can be put together, unless either
    is left open. -/
theorem exists_mergeField_eq_ok_iff {left : Option (Option RecordSelection)}
    {child : Option RecordSelection} : (∃ merged, mergeField reg left child = .ok merged) ↔
      SucceedsAt (fun c d => !c.isUndefined && !d.isUndefined) (assign reg) left (some child) := by
  rcases left with _ | _ | current
  · exact iff_of_true ⟨child, rfl⟩ (succeedsAt_none_left _)
  · exact iff_of_true ⟨child, rfl⟩ (succeedsAt_some_none_left _)
  · cases child with
    | none => exact iff_of_true ⟨none, rfl⟩ (succeedsAt_some_none_right _)
    | some other =>
      rw [succeedsAt_some_some_iff, mergeField, exists_bind_pure_eq_ok_iff, merge]
      cases other.isUndefined with
      | true => exact iff_of_true ⟨current, rfl⟩ fun h => by simp at h
      | false =>
        cases current.isUndefined with
        | true => exact iff_of_true ⟨other, rfl⟩ fun h => by cases h
        | false => exact ⟨fun h _ => h, fun h => h rfl⟩

/-! ## Misuses -/

/-- A selection is combined with what is bound by a query, without any check but that of the query.
    That is a misuse where selections of different records meet. -/
theorem misused_bindQuery_iff {shown : RecordSelection → RecordSelection}
    {meets : RecordSelection → RecordSelection → Bool}
    {op : RecordSelection → RecordSelection → Except Misuse RecordSelection}
    (hop : Descends reg shown meets op) {s : RecordSelection} {query : Query} :
    Misused (do
      let q ← ofQuery reg s.record query
      op s q : Except Failure RecordSelection) ↔
      ∃ q, ofQuery reg s.record query = .ok q ∧ Clashes shown meets s q := by
  refine misused_liftM_bind_iff.trans (exists_congr fun q => and_congr_right fun _ => ?_)
  rw [misused_liftM_iff, hop.exists_eq_ok_iff, not_not]

/-- A field is assigned to with what is bound by a query. That is a misuse where selections of
    different records meet below the field. -/
theorem misused_assignToField_iff {s : RecordSelection} {i : Nat} {f : Field}
    (hf : s.record.fields[i]? = some f) {query : Query} :
    Misused (s.assignToField reg i query) ↔
      ∃ c d, s.explicit? i = some (some c) ∧ f.bind reg query = .ok (some d) ∧
        (!c.isUndefined && !d.isUndefined) = true ∧
        Clashes id (fun c d => !c.isUndefined && !d.isUndefined) c d := by
  have hfield : s.record.fieldAt i = .ok f := Schema.fieldAt_eq_ok_iff.2 hf
  rw [assignToField_eq, hfield]
  refine misused_liftM_bind_iff.trans ?_
  have hmerge : ∀ child, Misused (do
      let merged ← mergeField reg (s.explicit? i) child
      return s.put i merged : Except Failure RecordSelection) ↔
        ∃ c d, s.explicit? i = some (some c) ∧ child = some d ∧
          (!c.isUndefined && !d.isUndefined) = true ∧
          Clashes id (fun c d => !c.isUndefined && !d.isUndefined) c d := by
    -- Putting is no misuse, so a misuse is one of merging.
    intro child
    refine misused_bind_pure_iff.trans ?_
    rw [misused_liftM_iff, exists_mergeField_eq_ok_iff]
    simp only [SucceedsAt, Option.some.injEq, assign_descends.exists_eq_ok_iff, not_forall, not_not,
      exists_prop]
  constructor
  · rintro ⟨child, hchild, hmisused⟩
    obtain ⟨c, d, hc, rfl, hmeet, hclash⟩ := (hmerge child).1 hmisused
    exact ⟨c, d, hc, hchild, hmeet, hclash⟩
  · rintro ⟨c, d, hc, hchild, hmeet, hclash⟩
    exact ⟨some d, hchild, (hmerge (some d)).2 ⟨c, d, hc, rfl, hmeet, hclash⟩⟩

end FieldMask.RecordSelection
