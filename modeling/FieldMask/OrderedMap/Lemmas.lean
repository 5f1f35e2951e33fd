import FieldMask.OrderedMap.Basic

/-!
# Lemmas on ordered maps

`get?` of every operation, and extensionality: maps that agree under `get?` are equal.

* `get?_insert`, `get?_erase`, `get?_ofList`: what each operation does to the view.
* `mem_toList_iff_get?_eq_some`: the entries are the graph of `get?`.
* `ext_get?`: two maps with the same view are the same map.
-/

namespace FieldMask.Entries

variable {κ α : Type} [LT κ] {bound : Option κ}

@[simp] theorem toList_nil : (nil : Entries κ α bound).toList = [] := rfl

@[simp] theorem toList_cons (key : κ) (value : α) (above : ∀ b ∈ bound, b < key)
    (rest : Entries κ α (some key)) :
    (cons key value above rest).toList = (key, value) :: rest.toList := rfl

/-- Only the map without entries counts as empty. -/
@[simp] theorem isEmpty_iff {m : Entries κ α bound} : m.isEmpty = true ↔ m = nil := by
  cases m <;> simp [isEmpty]

section Lookup

variable [DecidableEq κ]

@[simp] theorem get?_nil (key : κ) : (nil : Entries κ α bound).get? key = none := rfl

/-- Look-ups try the first entry, then the rest. -/
theorem get?_cons (k : κ) (v : α) (above : ∀ b ∈ bound, b < k) (rest : Entries κ α (some k))
    (key : κ) : (cons k v above rest).get? key = if k = key then some v else rest.get? key := rfl

@[simp] theorem get?_cons_self (k : κ) (v : α) (above : ∀ b ∈ bound, b < k)
    (rest : Entries κ α (some k)) : (cons k v above rest).get? k = some v := by
  simp [get?_cons]

/-- A map contains the keys that it has values for. -/
@[simp] theorem contains_eq_isSome_get? (m : Entries κ α bound) (key : κ) :
    m.contains key = (m.get? key).isSome := rfl

/-- A value that a key has is among the values. -/
theorem mem_values_of_get?_eq_some {m : Entries κ α bound} {key : κ} {value : α}
    (h : m.get? key = some value) : value ∈ m.values := by
  induction m with
  | nil => simp at h
  | cons k v above rest ih =>
    by_cases hk : k = key
    · simp_all [get?_cons, values]
    · rw [get?_cons, if_neg hk] at h
      exact List.mem_cons_of_mem v (ih h)

section Order

variable [LE κ] [Std.IsLinearOrder κ] [Std.LawfulOrderLT κ]

/-- Every key is above the bound. -/
theorem lt_of_get?_eq_some {m : Entries κ α bound} {key : κ} {value : α}
    (h : m.get? key = some value) : ∀ b ∈ bound, b < key := by
  induction m with
  | nil => simp at h
  | cons k v above rest ih =>
    intro b hb
    by_cases hk : k = key
    · exact hk ▸ above b hb
    -- The first key is above the bound already, and the keys behind it are above the first one.
    · rw [get?_cons, if_neg hk] at h
      exact Std.lt_trans (above b hb) (ih h k rfl)

/-- A key that is not above the bound has no entry. -/
theorem get?_eq_none_of_not_lt {b : κ} {m : Entries κ α (some b)} {key : κ} (h : ¬ b < key) :
    m.get? key = none := by
  cases hg : m.get? key with
  | none => rfl
  | some v => exact absurd (lt_of_get?_eq_some hg b rfl) h

/-- A key that bounds a map from below has no entry in it. -/
theorem get?_self_eq_none {b : κ} (m : Entries κ α (some b)) : m.get? b = none :=
  get?_eq_none_of_not_lt Std.lt_irrefl

/-- The entries are the graph of `get?`. -/
theorem mem_toList_iff_get?_eq_some {m : Entries κ α bound} {key : κ} {value : α} :
    (key, value) ∈ m.toList ↔ m.get? key = some value := by
  induction m with
  | nil => simp
  | cons k v above rest ih =>
    rw [toList_cons, List.mem_cons, ih, get?_cons]
    by_cases hk : k = key
    · subst hk
      simp [get?_self_eq_none, eq_comm]
    · simp [hk, Ne.symm hk]

/-- Maps that agree at every key are equal. -/
theorem ext_get? {m n : Entries κ α bound} (h : ∀ key, m.get? key = n.get? key) : m = n := by
  induction m with
  -- A map with an entry has a value where the one without has none.
  | nil =>
    cases n with
    | nil => rfl
    | cons k v above rest => simpa using h k
  | cons k v above rest ih =>
    cases n with
    | nil => simpa using h k
    | cons k' v' above' rest' =>
      -- The lesser of two different first keys has an entry in one of the maps only.
      have hkk' : k = k' := by
        rcases Std.lt_trichotomy k k' with lt | eq | gt
        · have hk := h k
          rw [get?_cons_self, get?_cons, if_neg fun e => Std.lt_irrefl (e ▸ lt),
            get?_eq_none_of_not_lt fun gt => Std.lt_irrefl (Std.lt_trans lt gt)] at hk
          simp at hk
        · exact eq
        · have hk := h k'
          rw [get?_cons_self, get?_cons, if_neg fun e => Std.lt_irrefl (e ▸ gt),
            get?_eq_none_of_not_lt fun lt => Std.lt_irrefl (Std.lt_trans gt lt)] at hk
          simp at hk
      subst hkk'
      have hv : v = v' := by simpa using h k
      -- Behind equal first keys the rests agree too: at that key neither has an entry.
      have hr : rest = rest' := ih fun key => by
        by_cases hk : k = key
        · subst hk; rw [get?_self_eq_none, get?_self_eq_none]
        · simpa [get?_cons, hk] using h key
      rw [hv, hr]

omit [DecidableEq κ] in
/-- A weaker bound leaves the entries as they are. -/
@[simp] theorem toList_weaken {key : κ} (above : ∀ b ∈ bound, b < key)
    (m : Entries κ α (some key)) : (m.weaken above).toList = m.toList := by
  cases m <;> rfl

/-- A weaker bound changes no look-up. -/
@[simp] theorem get?_weaken {k : κ} (above : ∀ b ∈ bound, b < k) (m : Entries κ α (some k))
    (key : κ) : (m.weaken above).get? key = m.get? key := by
  cases m <;> rfl

/-- A key that is erased has no entry, and other keys keep theirs. -/
theorem get?_erase (m : Entries κ α bound) (k key : κ) :
    (m.erase k).get? key = if k = key then none else m.get? key := by
  induction m with
  | nil => simp [erase]
  | cons k' v above rest ih =>
    by_cases hk : k' = k
    · subst hk
      by_cases hkey : k' = key
      -- The key cannot come again: those behind it are greater.
      · subst hkey; simp [erase, get?_self_eq_none]
      · simp [erase, get?_cons, hkey]
    · by_cases hkey : k = key
      · subst hkey; simp [erase, hk, get?_cons, ih]
      · simp [erase, hk, get?_cons, ih, hkey]

section Update

variable [DecidableLT κ]

/-- A key that is inserted above a bound has the new value, and other keys keep theirs. -/
theorem get?_insertAbove (k : κ) (v : α) (above : ∀ b ∈ bound, b < k) (m : Entries κ α bound)
    (key : κ) :
    (m.insertAbove k v above).get? key = if k = key then some v else m.get? key := by
  induction m with
  | nil => simp [insertAbove, get?_cons]
  | cons k' v' above' rest ih =>
    unfold insertAbove
    split
    · simp [get?_cons]
    · split
      · rename_i hlt hgt
        rw [get?_cons, get?_cons, ih]
        by_cases hk : k' = key
        · subst hk
          have : k ≠ k' := fun e => Std.lt_irrefl (e ▸ hgt)
          simp [this]
        · simp [hk]
      · rename_i hlt hgt
        -- Neither key is less than the other, so the entry is replaced.
        have : k = k' := by
          rcases Std.lt_trichotomy k k' with lt | eq | gt
          · exact absurd lt hlt
          · exact eq
          · exact absurd gt hgt
        subst this
        by_cases hk : k = key <;> simp [get?_cons, hk]

/-- A key that is inserted has the new value, and other keys keep theirs. -/
theorem get?_insert (m : OrderedMap κ α) (k : κ) (v : α) (key : κ) :
    (m.insert k v).get? key = if k = key then some v else m.get? key :=
  get?_insertAbove k v _ m key

@[simp] theorem get?_insert_self (m : OrderedMap κ α) (k : κ) (v : α) :
    (m.insert k v).get? k = some v := by
  simp [get?_insert]

/-- Inserting one key changes no other. -/
theorem get?_insert_of_ne (m : OrderedMap κ α) {k key : κ} (v : α) (h : k ≠ key) :
    (m.insert k v).get? key = m.get? key := by
  simp [get?_insert, h]

/-- In the map of a list the last pair of a key counts. -/
theorem get?_ofList_concat (pairs : List (κ × α)) (k : κ) (v : α) (key : κ) :
    (ofList (pairs ++ [(k, v)])).get? key =
      if k = key then some v else (ofList pairs).get? key := by
  simp [ofList, get?_insert]

end Update

end Order

end Lookup

end FieldMask.Entries
