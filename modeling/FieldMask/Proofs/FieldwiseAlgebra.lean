import FieldMask.NameSelection.Algebra
import FieldMask.Proofs.SelectionOperations

/-!
# The algebra of selections, field by field

Operations on two selections are defined by recursion on the entries of one of them, which says in
which order the fields are gone through. What they do is said without an order: a field of the
result has what one operation on what the two selections have for this field gives.

## Key results

- `get?_pickFields` / `get?_excludeFields` / `get?_assignFields`: selections by name
- `pickAt_of_pickEach` / `excludeAt_of_excludeEach` / `assignAt_of_assignEach`: selections of a
  record
- `containsFields_iff` / `containsEach_iff`: inclusion
- `NameSelection.induction` / `RecordSelection.induction`: induction along the selections of fields
-/

namespace FieldMask

/-- What holds where there is no entry holds at all keys if it holds at the first and at those of
    the rest. -/
theorem Entries.forall_get?_cons_iff {κ α : Type} [LT κ] [DecidableEq κ] [LE κ]
    [Std.IsLinearOrder κ] [Std.LawfulOrderLT κ] {bound : Option κ} {k : κ} {v : α}
    {above : ∀ b ∈ bound, b < k} {rest : Entries κ α (some k)} {P : κ → Option α → Prop}
    (hnone : ∀ key, P key none) :
    (∀ key, P key ((cons k v above rest).get? key)) ↔
      P k (some v) ∧ ∀ key, P key (rest.get? key) := by
  constructor
  · intro h
    -- Behind the first key there is no entry at it, so what is asked there is `hnone`.
    refine ⟨get?_cons_self k v above rest ▸ h k, fun key => ?_⟩
    by_cases hkey : k = key
    · rw [← hkey, get?_self_eq_none]
      exact hnone k
    · have hrest := h key
      rwa [get?_cons, if_neg hkey] at hrest
  · rintro ⟨hfirst, hrest⟩ key
    rw [get?_cons]
    split
    · rename_i hkey
      exact hkey ▸ hfirst
    · exact hrest key

/-! ## Selections by name -/

namespace NameSelection

mutual

/-- What holds of a selection if it holds of those of its fields holds of every selection. -/
theorem induction {motive : NameSelection → Prop} (undefined : motive .undefined)
    (defined : ∀ fields : OrderedMap String NameSelection,
      (∀ name child, fields.get? name = some child → motive child) → motive (.defined fields)) :
    ∀ s, motive s
  | .undefined => undefined
  | .defined fields => defined fields fun name child h =>
    induction_field undefined defined fields name child h
termination_by structural s => s

/-- What holds of a selection if it holds of those of its fields holds of the selection of each
    field. -/
theorem induction_field {motive : NameSelection → Prop} (undefined : motive .undefined)
    (defined : ∀ fields : OrderedMap String NameSelection,
      (∀ name child, fields.get? name = some child → motive child) → motive (.defined fields))
    {bound : Option String} : ∀ (fields : Entries String NameSelection bound) (name : String)
      (child : NameSelection), fields.get? name = some child → motive child
  | .nil, _, _, h => nomatch h
  | .cons key child _ rest, name, found, h => by
    rw [Entries.get?_cons] at h
    split at h
    · cases h
      exact induction undefined defined child
    · exact induction_field undefined defined rest name found h
termination_by structural fields => fields

end

/-- Whether all that a query names at a field is selected. -/
def containsAt : Option NameSelection → Option NameSelection → Bool
  | _, none => true
  | some current, some query => current.contains query
  | none, some _ => false

/-- What two selections have in common at a field. -/
def pickAt : Option NameSelection → Option NameSelection → Option NameSelection
  | some current, some query => some (current.pick query)
  | _, _ => none

/-- What is left of a field without what a query names at it. -/
def excludeAt : Option NameSelection → Option NameSelection → Option NameSelection
  | none, _ => none
  | some current, none => some current
  | some current, some query =>
    if query.isUndefined then none
    else if query.isEmpty then some current
    else if current.isUndefined then none
    else if (current.exclude query).isEmpty then none else some (current.exclude query)

/-- The selections that two selections name a field with, put together. -/
def merge (current other : NameSelection) : NameSelection :=
  if other.isUndefined then current
  else if current.isUndefined then other
  else current.assign other

/-- What either of two selections names at a field. -/
def assignAt : Option NameSelection → Option NameSelection → Option NameSelection
  | current, none => current
  | none, some other => some other
  | some current, some other => some (current.merge other)

@[simp] theorem containsAt_none_right (current : Option NameSelection) :
    containsAt current none = true := by
  cases current <;> rfl

@[simp] theorem excludeAt_none_right (current : Option NameSelection) :
    excludeAt current none = current := by
  cases current <;> rfl

section Fields

variable {bound : Option String} (fields : OrderedMap String NameSelection)

/-- A query is selected if all of its fields are, each by itself. -/
theorem containsFields_iff (query : Entries String NameSelection bound) :
    containsFields fields query = true ↔
      ∀ name, containsAt (fields.get? name) (query.get? name) = true := by
  induction query with
  | nil => exact iff_of_true rfl fun name => containsAt_none_right (fields.get? name)
  | cons key query above rest ih =>
    rw [containsFields, Bool.and_eq_true, Entries.forall_get?_cons_iff
      (P := fun name child => containsAt (fields.get? name) child = true)
      fun name => containsAt_none_right (fields.get? name)]
    -- The first field and those behind it are tested apart.
    refine and_congr ?_ ih
    cases fields.get? key <;> rfl

/-- What is picked at a field is what the two selections have in common there. -/
theorem get?_pickFields (query : Entries String NameSelection bound) (name : String) :
    (pickFields fields query).get? name = pickAt (fields.get? name) (query.get? name) := by
  induction query with
  | nil => cases fields.get? name <;> rfl
  | cons key query above rest ih =>
    rw [pickFields, Entries.get?_cons]
    by_cases hkey : key = name
    · -- The rest of the query has no entry at its first name.
      subst hkey
      rw [Entries.get?_self_eq_none] at ih
      cases hcurrent : fields.get? key with
      | none => simpa [hcurrent, pickAt] using ih
      | some current => simp [pickAt]
    -- At any other name, picking the first field has changed nothing.
    · cases fields.get? key with
      | none => simpa [hkey] using ih
      | some current => simpa [hkey, Entries.get?_insert] using ih

/-- What is left at a field is what the selection has there without what the query has there. -/
theorem get?_excludeFields (query : Entries String NameSelection bound) (name : String) :
    (excludeFields fields query).get? name = excludeAt (fields.get? name) (query.get? name) := by
  induction query with
  | nil => exact (excludeAt_none_right _).symm
  | cons key query above rest ih =>
    rw [excludeFields, Entries.get?_cons]
    by_cases hkey : key = name
    · -- Nothing has been taken from the first field by the rest of the query.
      subst hkey
      rw [Entries.get?_self_eq_none, excludeAt_none_right] at ih
      cases hcurrent : fields.get? key with
      | none => simpa [hcurrent, excludeAt] using ih
      | some current =>
        simp only [excludeAt, if_true]
        -- By the tests of the loop: a query left open, an empty one, an open field, and nothing
        -- left of it.
        split
        · simp [Entries.get?_erase]
        split
        · rw [ih, hcurrent]
        split
        · simp [Entries.get?_erase]
        split <;> simp [Entries.get?_erase]
    -- At any other name, excluding the first field has changed nothing.
    · rw [if_neg hkey, ← ih]
      cases fields.get? key with
      | none => rfl
      | some current =>
        simp only
        split
        · simp [Entries.get?_erase, hkey]
        split
        · rfl
        split
        · simp [Entries.get?_erase, hkey]
        split <;> simp [Entries.get?_erase, Entries.get?_insert, hkey]

/-- What is named at a field is what either of the two selections names there. -/
theorem get?_assignFields (other : Entries String NameSelection bound) (name : String) :
    (assignFields fields other).get? name = assignAt (fields.get? name) (other.get? name) := by
  induction other with
  | nil =>
    rw [assignFields, Entries.get?_nil]
    cases fields.get? name <;> rfl
  | cons key other above rest ih =>
    rw [assignFields, Entries.get?_cons]
    by_cases hkey : key = name
    -- What is there at the first name is what the selection had: the rest has not touched it.
    · subst hkey
      rw [Entries.get?_self_eq_none] at ih
      cases hcurrent : fields.get? key with
      | none => simp [assignAt]
      | some current =>
        rw [hcurrent] at ih
        simp only [assignAt, merge, if_true] at ih ⊢
        split
        · exact ih
        · split <;> simp
    -- At any other name, assigning the first field has changed nothing.
    · cases fields.get? key with
      | none => simpa [hkey, Entries.get?_insert] using ih
      | some current =>
        simp only [if_neg hkey]
        split
        · exact ih
        · split <;> simpa [hkey, Entries.get?_insert] using ih

/-- A defined selection is contained in another one field by field. -/
theorem contains_defined_iff (query : OrderedMap String NameSelection) :
    (defined fields).contains (defined query) = true ↔
      ∀ name, containsAt (fields.get? name) (query.get? name) = true :=
  containsFields_iff fields query

end Fields

end NameSelection

/-! ## Selections of a record -/

namespace RecordSelection

variable {reg : Registry}

mutual

/-- What holds of a selection if it holds of those of its fields holds of every selection. -/
theorem induction {motive : RecordSelection → Prop}
    (undefined : ∀ record, motive (.undefined record))
    (defined : ∀ (record : Schema) (fields : OrderedMap Nat (Option RecordSelection)),
      (∀ i child, fields.get? i = some (some child) → motive child) →
        motive (.defined record fields)) : ∀ s, motive s
  | .undefined record => undefined record
  | .defined record fields => defined record fields fun i child h =>
    induction_field undefined defined fields i child h
termination_by structural s => s

/-- What holds of a selection if it holds of those of its fields holds of the selection of each
    field. -/
theorem induction_field {motive : RecordSelection → Prop}
    (undefined : ∀ record, motive (.undefined record))
    (defined : ∀ (record : Schema) (fields : OrderedMap Nat (Option RecordSelection)),
      (∀ i child, fields.get? i = some (some child) → motive child) →
        motive (.defined record fields)) {bound : Option Nat} :
    ∀ (fields : Entries Nat (Option RecordSelection) bound) (i : Nat) (child : RecordSelection),
      fields.get? i = some (some child) → motive child
  | .nil, _, _, h => nomatch h
  | .cons _ none _ rest, i, found, h => by
    rw [Entries.get?_cons] at h
    split at h
    · cases h
    · exact induction_field undefined defined rest i found h
  | .cons _ (some child) _ rest, i, found, h => by
    rw [Entries.get?_cons] at h
    split at h
    · cases h
      exact induction undefined defined child
    · exact induction_field undefined defined rest i found h
termination_by structural fields => fields

end

/-- What is selected of the field at an index, if the field is selected. -/
def selectedAt (reg : Registry) (s : RecordSelection) (i : Nat) : Option (Option RecordSelection) :=
  if s.hasIndex i then some (s.record.fields[i]?.bind (s.selectionOf reg i)) else none

/-- Whether all that a query names at a field is selected. -/
def containsAt (reg : Registry) :
    Option (Option RecordSelection) → Option (Option RecordSelection) → Bool
  | _, none => true
  | some (some current), some (some query) => query.isUndefined || current.contains reg query
  | some _, some _ => true
  | none, some _ => false

/-- What two selections have in common at a field. -/
def pickAt (reg : Registry) : Option (Option RecordSelection) → Option (Option RecordSelection) →
    Except Misuse (Option (Option RecordSelection))
  | some (some current), some (some query) =>
    if query.isUndefined then .ok (some (some current))
    else do return some (some (← current.pick reg query))
  | some current, some _ => .ok (some current)
  | _, _ => .ok none

/-- What is left of a field without what a query names at it. -/
def excludeAt (reg : Registry) : Option (Option RecordSelection) →
    Option (Option RecordSelection) → Except Misuse (Option (Option RecordSelection))
  | current, none => .ok current
  | _, some none => .ok none
  | some (some current), some (some query) =>
    if query.isUndefined then .ok none
    else if query.isEmpty then .ok (some (some current))
    else do
      let left ← current.exclude reg query
      return if left.isEmpty then none else some (some left)
  | current, some (some query) => if query.isUndefined then .ok none else .ok current

/-- The selections that two selections name a field with, put together. -/
def merge (reg : Registry) (current other : RecordSelection) : Except Misuse RecordSelection :=
  if other.isUndefined then .ok current
  else if current.isUndefined then .ok other
  else current.assign reg other

/-- What either of two selections names at a field. -/
def assignAt (reg : Registry) : Option (Option RecordSelection) → Option (Option RecordSelection) →
    Except Misuse (Option (Option RecordSelection))
  | some (some current), some (some other) => do return some (some (← current.merge reg other))
  | some current, some none => .ok (some current)
  | current, none => .ok current
  | _, some other => .ok (some other)

@[simp] theorem containsAt_none_right (current : Option (Option RecordSelection)) :
    containsAt reg current none = true := by
  rcases current with _ | _ | current <;> rfl

@[simp] theorem pickAt_none_right (current : Option (Option RecordSelection)) :
    pickAt reg current none = .ok none := by
  rcases current with _ | _ | current <;> rfl

@[simp] theorem excludeAt_none_right (current : Option (Option RecordSelection)) :
    excludeAt reg current none = .ok current := by
  rcases current with _ | _ | current <;> rfl

@[simp] theorem assignAt_none_right (current : Option (Option RecordSelection)) :
    assignAt reg current none = .ok current := by
  rcases current with _ | _ | current <;> rfl

section Fields

variable {bound : Option Nat} {fields result : OrderedMap Nat (Option RecordSelection)} {key : Nat}
  {child : Option RecordSelection} {above : ∀ b ∈ bound, b < key}
  {rest : Entries Nat (Option RecordSelection) (some key)}
  {query : Entries Nat (Option RecordSelection) bound}

/-- A query is selected field by field. -/
theorem containsEach_iff {s : RecordSelection} :
    containsEach reg s query = true ↔
      ∀ i, containsAt reg (s.selectedAt reg i) (query.get? i) = true := by
  induction query with
  | nil => exact iff_of_true rfl fun i => containsAt_none_right (s.selectedAt reg i)
  | cons key child above rest ih =>
    rw [Entries.forall_get?_cons_iff
      (P := fun i child => containsAt reg (s.selectedAt reg i) child = true)
      fun i => containsAt_none_right (s.selectedAt reg i)]
    -- A field that is named in full only has to be selected; one with a selection is looked into.
    cases child with
    | none =>
      rw [containsEach, Bool.and_eq_true]
      refine and_congr ?_ ih
      rw [selectedAt]
      cases s.hasIndex key
      · rfl
      · cases s.record.fields[key]?.bind (s.selectionOf reg key) <;> simp [containsAt]
    | some c =>
      rw [containsEach, Bool.and_eq_true]
      refine and_congr ?_ ih
      rw [selectedAt]
      cases s.hasIndex key
      · rfl
      · cases s.record.fields[key]? with
        | none => rfl
        | some f => cases hf : s.selectionOf reg key f <;> simp [containsAt, hf]

/-- A field is added to what the others give. -/
theorem insert_eq_ok {x : Except Misuse RecordSelection}
    {others : Except Misuse (OrderedMap Nat (Option RecordSelection))}
    (h : (do
      let both ← x
      return (← others).insert key (some both)) = .ok result) :
    ∃ both before, x = .ok both ∧ others = .ok before ∧ result = before.insert key (some both) := by
  obtain ⟨both, hboth, h⟩ := bind_eq_ok_iff.1 h
  obtain ⟨before, hbefore, h⟩ := bind_eq_ok_iff.1 h
  cases h
  exact ⟨both, before, hboth, hbefore, rfl⟩

/-- The first field of a query is picked, unless it is not there. -/
theorem pickEach_cons_eq_ok (h : pickEach reg fields (.cons key child above rest) = .ok result) :
    ∃ before found, pickEach reg fields rest = .ok before ∧
      pickAt reg (fields.get? key) (some child) = .ok found ∧
      result = found.elim before (before.insert key) := by
  -- By what the query says of the field, and where it has a selection by what there is to pick
  -- from.
  cases child with
  | none =>
    obtain ⟨before, hbefore, h⟩ := bind_eq_ok_iff.1 h
    cases hcurrent : fields.get? key with
    | none =>
      simp only [hcurrent] at h
      cases h
      exact ⟨_, none, hbefore, rfl, rfl⟩
    | some current =>
      simp only [hcurrent] at h
      cases h
      exact ⟨before, some current, hbefore, by cases current <;> rfl, rfl⟩
  | some query =>
    rw [pickEach] at h
    rcases hcurrent : fields.get? key with _ | _ | current
    · simp only [hcurrent] at h
      exact ⟨result, none, h, rfl, rfl⟩
    · simp only [hcurrent] at h
      obtain ⟨before, hbefore, h⟩ := bind_eq_ok_iff.1 h
      cases h
      exact ⟨before, some none, hbefore, rfl, rfl⟩
    · simp only [hcurrent] at h
      -- A query left open takes the nested selection as it is; any other one picks from it.
      rw [pickAt]
      split at h
      · rename_i hopen
        obtain ⟨both, before, hboth, hbefore, rfl⟩ := insert_eq_ok h
        exact ⟨before, some (some both), hbefore, by rw [if_pos hopen]; cases hboth; rfl, rfl⟩
      · rename_i hopen
        obtain ⟨both, before, hboth, hbefore, rfl⟩ := insert_eq_ok h
        exact ⟨before, some (some both), hbefore, by rw [if_neg hopen, hboth]; rfl, rfl⟩

/-- What is picked at a field is what the two selections have in common there. -/
theorem pickAt_of_pickEach (h : pickEach reg fields query = .ok result) (i : Nat) :
    pickAt reg (fields.get? i) (query.get? i) = .ok (result.get? i) := by
  induction query generalizing result with
  | nil =>
    cases h
    exact pickAt_none_right _
  | cons key child above rest ih =>
    obtain ⟨before, found, hbefore, hfound, rfl⟩ := pickEach_cons_eq_ok h
    have hi := ih hbefore
    rw [Entries.get?_cons]
    split
    · -- Nothing else has been picked at the first field.
      rename_i hkey
      subst hkey
      rw [Entries.get?_self_eq_none, pickAt_none_right] at hi
      rw [hfound]
      cases found with
      | none => exact hi
      | some c => rw [Option.elim_some, Entries.get?_insert_self]
    · rename_i hkey
      cases found with
      | none => exact hi
      | some c => rwa [Option.elim_some, Entries.get?_insert_of_ne _ _ hkey]

/-- The first field of a query is taken from what is there, which may be left as it is. -/
theorem excludeEach_cons_eq_ok
    (h : excludeEach reg fields (.cons key child above rest) = .ok result) :
    ∃ before found, excludeEach reg fields rest = .ok before ∧
      excludeAt reg (fields.get? key) (some child) = .ok found ∧
      (found = fields.get? key ∧ result = before ∨
        result = found.elim (before.erase key) (before.insert key)) := by
  -- Named in full, the field goes; otherwise it depends on the query and on what is there.
  cases child with
  | none =>
    obtain ⟨before, hbefore, h⟩ := bind_eq_ok_iff.1 h
    cases h
    exact ⟨before, none, hbefore, by rcases fields.get? key with _ | _ | c <;> rfl, .inr rfl⟩
  | some query =>
    rw [excludeEach] at h
    by_cases hopen : query.isUndefined = true
    · rw [if_pos hopen] at h
      obtain ⟨before, hbefore, h⟩ := bind_eq_ok_iff.1 h
      cases h
      refine ⟨before, none, hbefore, ?_, .inr rfl⟩
      rcases fields.get? key with _ | _ | c <;> simp [excludeAt, hopen]
    rw [if_neg hopen] at h
    by_cases hempty : query.isEmpty = true
    · rw [if_pos hempty] at h
      refine ⟨result, fields.get? key, h, ?_, .inl ⟨rfl, rfl⟩⟩
      rcases fields.get? key with _ | _ | c <;> simp [excludeAt, hopen, hempty]
    rw [if_neg hempty] at h
    -- Of a query that names something, only a selection of the field can lose anything.
    rcases hcurrent : fields.get? key with _ | _ | current
    · simp only [hcurrent] at h
      exact ⟨result, none, h, by simp [excludeAt, hopen], .inl ⟨rfl, rfl⟩⟩
    · simp only [hcurrent] at h
      exact ⟨result, some none, h, by simp [excludeAt, hopen], .inl ⟨rfl, rfl⟩⟩
    · simp only [hcurrent] at h
      obtain ⟨left, hleft, h⟩ := bind_eq_ok_iff.1 h
      obtain ⟨before, hbefore, h⟩ := bind_eq_ok_iff.1 h
      cases h
      refine ⟨before, if left.isEmpty then none else some (some left), hbefore, ?_, .inr ?_⟩
      · simp only [excludeAt, if_neg hopen, if_neg hempty, hleft]
        rfl
      · split <;> rfl

/-- What is left of a field is what the selection has there without what the query has there. -/
theorem excludeAt_of_excludeEach (h : excludeEach reg fields query = .ok result) (i : Nat) :
    excludeAt reg (fields.get? i) (query.get? i) = .ok (result.get? i) := by
  induction query generalizing result with
  | nil =>
    cases h
    exact excludeAt_none_right _
  | cons key child above rest ih =>
    obtain ⟨before, found, hbefore, hfound, hresult⟩ := excludeEach_cons_eq_ok h
    have hi := ih hbefore
    rw [Entries.get?_cons]
    by_cases hkey : key = i
    · -- Nothing has been taken from the first field by the rest of the query.
      subst hkey
      rw [if_pos rfl, hfound]
      rw [Entries.get?_self_eq_none, excludeAt_none_right] at hi
      obtain ⟨rfl, rfl⟩ | rfl := hresult
      · exact hi
      · cases found with
        | none => simp [Entries.get?_erase]
        | some c => simp
    · rw [if_neg hkey, hi]
      obtain ⟨-, rfl⟩ | rfl := hresult
      · rfl
      · cases found with
        | none => simp [Entries.get?_erase, hkey]
        | some c => simp [Entries.get?_insert, hkey]

/-- The first field of another selection is put together with what is there. -/
theorem assignEach_cons_eq_ok
    (h : assignEach reg fields (.cons key child above rest) = .ok result) :
    ∃ before found, assignEach reg fields rest = .ok before ∧
      assignAt reg (fields.get? key) (some child) = .ok found ∧
      (found = fields.get? key ∧ result = before ∨
        ∃ c, found = some c ∧ result = before.insert key c) := by
  cases child with
  | none =>
    obtain ⟨before, hbefore, h⟩ := bind_eq_ok_iff.1 h
    cases h
    cases hcurrent : fields.get? key with
    | none => exact ⟨before, some none, hbefore, rfl, .inr ⟨none, rfl, rfl⟩⟩
    | some current =>
      exact ⟨before, some current, hbefore, by cases current <;> rfl, .inl ⟨rfl, rfl⟩⟩
  | some other =>
    rw [assignEach] at h
    rcases hcurrent : fields.get? key with _ | _ | current
    · simp only [hcurrent] at h
      obtain ⟨both, before, hboth, hbefore, rfl⟩ := insert_eq_ok h
      cases hboth
      exact ⟨before, _, hbefore, rfl, .inr ⟨_, rfl, rfl⟩⟩
    · simp only [hcurrent] at h
      obtain ⟨both, before, hboth, hbefore, rfl⟩ := insert_eq_ok h
      cases hboth
      exact ⟨before, _, hbefore, rfl, .inr ⟨_, rfl, rfl⟩⟩
    -- What the loop does with two nested selections is `merge`, case by case.
    · simp only [hcurrent] at h
      have hmerge : (do
          let both ← current.merge reg other
          return (← assignEach reg fields rest).insert key (some both)) = .ok result := by
        rw [merge]
        split at h
        · rename_i hother
          rwa [if_pos hother]
        · rename_i hother
          rw [if_neg hother]
          split at h
          · rename_i hopen
            rwa [if_pos hopen]
          · rename_i hopen
            rwa [if_neg hopen]
      obtain ⟨both, before, hboth, hbefore, rfl⟩ := insert_eq_ok hmerge
      exact ⟨before, some (some both), hbefore, by rw [assignAt, hboth]; rfl, .inr ⟨_, rfl, rfl⟩⟩

/-- What is put together at a field is what either of the two selections names there. -/
theorem assignAt_of_assignEach (h : assignEach reg fields query = .ok result) (i : Nat) :
    assignAt reg (fields.get? i) (query.get? i) = .ok (result.get? i) := by
  induction query generalizing result with
  | nil =>
    cases h
    exact assignAt_none_right _
  | cons key child above rest ih =>
    obtain ⟨before, found, hbefore, hfound, hresult⟩ := assignEach_cons_eq_ok h
    have hi := ih hbefore
    rw [Entries.get?_cons]
    split
    -- The first field has what has been put together, and the rest of the query does not name it.
    · rename_i hkey
      subst hkey
      rw [hfound]
      obtain ⟨rfl, rfl⟩ | ⟨c, rfl, rfl⟩ := hresult
      · rwa [Entries.get?_self_eq_none, assignAt_none_right] at hi
      · rw [Entries.get?_insert_self]
    · rename_i hkey
      obtain ⟨-, rfl⟩ | ⟨c, -, rfl⟩ := hresult
      · exact hi
      · rwa [Entries.get?_insert_of_ne _ _ hkey]

end Fields

/-! ### Defined operands -/

section Defined

variable {s t : RecordSelection} {record : Schema}
  {fields : OrderedMap Nat (Option RecordSelection)}

/-- What is picked by a defined selection, field by field. -/
theorem pick_defined_eq_ok (h : s.pick reg (defined record fields) = .ok t) :
    ∃ picked, t = defined s.record picked ∧ ∀ i,
      pickAt reg ((s.ensureDefined reg).explicit? i) (fields.get? i) = .ok (picked.get? i) := by
  rw [pick] at h
  obtain ⟨-, -, h⟩ := bind_eq_ok_iff.1 h
  obtain ⟨picked, hpicked, h⟩ := bind_eq_ok_iff.1 h
  cases h
  exact ⟨picked, rfl, pickAt_of_pickEach hpicked⟩

/-- Without what names no field, a selection is left as it is. -/
theorem exclude_nothing_eq_ok {q : RecordSelection} (hq : q.isUndefinedOrEmpty = true)
    (h : s.exclude reg q = .ok t) : t = s := by
  cases q with
  | undefined record =>
    obtain ⟨_, -, h⟩ := bind_eq_ok_iff.1 h
    cases h
    rfl
  | defined record fields =>
    have hempty : fields.isEmpty = true := hq
    rw [exclude] at h
    obtain ⟨_, -, h⟩ := bind_eq_ok_iff.1 h
    rw [if_pos hempty] at h
    cases h
    rfl

/-- What is left of a selection without a defined one that names fields, field by field. -/
theorem exclude_defined_eq_ok (hsome : fields.isEmpty = false)
    (h : s.exclude reg (defined record fields) = .ok t) :
    ∃ left, t = defined s.record left ∧ ∀ i,
      excludeAt reg ((s.ensureDefined reg).explicit? i) (fields.get? i) = .ok (left.get? i) := by
  rw [exclude] at h
  obtain ⟨_, -, h⟩ := bind_eq_ok_iff.1 h
  rw [if_neg (by simp [hsome])] at h
  obtain ⟨left, hleft, h⟩ := bind_eq_ok_iff.1 h
  cases h
  exact ⟨left, rfl, excludeAt_of_excludeEach hleft⟩

/-- What is named by a selection and a defined one, field by field. -/
theorem assign_defined_eq_ok (h : s.assign reg (defined record fields) = .ok t) :
    ∃ merged, t = defined s.record merged ∧ ∀ i,
      assignAt reg (s.explicit? i) (fields.get? i) = .ok (merged.get? i) := by
  rw [assign] at h
  obtain ⟨-, -, h⟩ := bind_eq_ok_iff.1 h
  obtain ⟨merged, hmerged, h⟩ := bind_eq_ok_iff.1 h
  cases h
  exact ⟨merged, rfl, assignAt_of_assignEach hmerged⟩

/-- A defined selection is contained in one of the same record field by field. -/
theorem contains_defined_iff :
    s.contains reg (defined s.record fields) = true ↔
      ∀ i, containsAt reg (s.selectedAt reg i) (fields.get? i) = true := by
  rw [contains, decide_eq_true rfl, Bool.true_and, containsEach_iff]

end Defined

end RecordSelection

end FieldMask
