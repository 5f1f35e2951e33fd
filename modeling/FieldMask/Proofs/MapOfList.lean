import FieldMask.OrderedMap.Lemmas
import Mathlib.Data.List.Induction
import Mathlib.Data.List.Nodup
import Mathlib.Data.List.Perm.Basic

/-!
# Maps and lists of pairs

The entries of a map are a list of pairs with different keys, and a list of pairs with different
keys is the map of its pairs, in whatever order they come.

## Key results

- `nodup_keys`: the keys of a map differ
- `get?_ofList_of_mem`: the map of a list has the keys of the list
- `get?_ofList_eq_some_iff`: the map of a list with different keys holds the pairs of the list
- `toList_ofList_perm`: its entries are those pairs
- `ofList_of_perm`: the entries of a map give it back, in any order
-/

namespace FieldMask

/-- A list is left as it is if each of its elements is. -/
theorem map_eq_self_iff {α : Type} {f : α → α} {l : List α} : l.map f = l ↔ ∀ a ∈ l, f a = a := by
  induction l with
  | nil => simp
  | cons a rest ih => simp [ih]

namespace Entries

/-- The values of a map are the first one and those behind it. -/
theorem values_cons {κ α : Type} [LT κ] {bound : Option κ} (key : κ) (value : α)
    (above : ∀ b ∈ bound, b < key) (rest : Entries κ α (some key)) :
    (cons key value above rest).values = value :: rest.values := rfl

/-! ## Other values under the same keys -/

/-- The entries with other values. -/
def mapValues {κ α β : Type} [LT κ] (f : α → β) {bound : Option κ} :
    Entries κ α bound → Entries κ β bound
  | .nil => .nil
  | .cons key value above rest => .cons key (f value) above (rest.mapValues f)

/-- The values are those that the function gives, in the same order. -/
theorem values_mapValues {κ α β : Type} [LT κ] (f : α → β) {bound : Option κ}
    (m : Entries κ α bound) : (m.mapValues f).values = m.values.map f := by
  induction m with
  | nil => rfl
  | cons key value above rest ih => exact congrArg (f value :: ·) ih

/-- A map is left as it is if each of its values is. -/
theorem mapValues_eq_self_iff {κ α : Type} [LT κ] {f : α → α} {bound : Option κ}
    {m : Entries κ α bound} : m.mapValues f = m ↔ ∀ p ∈ m.toList, f p.2 = p.2 := by
  induction m with
  | nil => simp [mapValues]
  | cons key value above rest ih => simp [mapValues, ih]

/-- The values that are given only depend on what the functions do on those of the map. -/
theorem mapValues_congr {κ α β : Type} [LT κ] {f g : α → β} {bound : Option κ}
    {m : Entries κ α bound} (h : ∀ p ∈ m.toList, f p.2 = g p.2) :
    m.mapValues f = m.mapValues g := by
  induction m with
  | nil => rfl
  | cons key value above rest ih =>
    rw [toList_cons, List.forall_mem_cons] at h
    rw [mapValues, mapValues, h.1, ih h.2]

/-! ## Keys and pairs -/

variable {κ α : Type} [LT κ] [DecidableEq κ] [LE κ] [Std.IsLinearOrder κ] [Std.LawfulOrderLT κ]

omit [DecidableEq κ] in
/-- All keys of a map are above its bound. -/
theorem lt_of_mem_keys {bound : Option κ} {m : Entries κ α bound} {key : κ} (h : key ∈ m.keys) :
    ∀ b ∈ bound, b < key := by
  induction m with
  | nil => cases h
  | cons k v above rest ih =>
    intro b hb
    rcases List.mem_cons.1 h with rfl | hr
    · exact above b hb
    · exact Std.lt_trans (above b hb) (ih hr k rfl)

omit [DecidableEq κ] in
/-- All entries behind one are of greater keys. -/
theorem lt_of_mem_toList {key : κ} {rest : Entries κ α (some key)} {p : κ × α}
    (hp : p ∈ rest.toList) : key < p.1 :=
  lt_of_mem_keys (List.mem_map_of_mem hp) key rfl

omit [DecidableEq κ] [LE κ] [Std.IsLinearOrder κ] [Std.LawfulOrderLT κ] in
/-- What is in a map is smaller than the map. -/
theorem sizeOf_lt_of_mem_toList [SizeOf κ] [SizeOf α] {bound : Option κ} {m : Entries κ α bound}
    {p : κ × α} (h : p ∈ m.toList) : sizeOf p.2 < sizeOf m := by
  induction m with
  | nil => cases h
  | cons key value above rest ih =>
    rw [Entries.cons.sizeOf_spec]
    rcases List.mem_cons.1 h with rfl | hrest
    · simp only
      omega
    · have := ih hrest
      omega

omit [DecidableEq κ] in
/-- The keys of a map differ. -/
theorem nodup_keys {bound : Option κ} (m : Entries κ α bound) : m.keys.Nodup := by
  induction m with
  -- The first key is smaller than all behind it.
  | nil => exact List.nodup_nil
  | cons k v above rest ih =>
    exact List.nodup_cons.2 ⟨fun h => Std.lt_irrefl (lt_of_mem_keys h k rfl), ih⟩

omit [DecidableEq κ] in
/-- The entries of a map are in increasing order of their keys. -/
theorem pairwise_toList {bound : Option κ} (m : Entries κ α bound) :
    m.toList.Pairwise fun p q => p.1 < q.1 := by
  induction m with
  | nil => exact .nil
  | cons k v above rest ih =>
    rw [toList_cons, List.pairwise_cons]
    exact ⟨fun p hp => lt_of_mem_keys (List.mem_map_of_mem hp) k rfl, ih⟩

/-- What holds of all entries holds of all values that are found. -/
theorem forall_mem_toList_iff {bound : Option κ} {m : Entries κ α bound} {P : κ → α → Prop} :
    (∀ p ∈ m.toList, P p.1 p.2) ↔ ∀ key value, m.get? key = some value → P key value := by
  constructor
  · intro h key value hget
    exact h (key, value) (mem_toList_iff_get?_eq_some.2 hget)
  · intro h (key, value) hmem
    exact h key value (mem_toList_iff_get?_eq_some.1 hmem)

variable [DecidableLT κ]

/-- What the map of a list holds is in the list. -/
theorem mem_of_get?_ofList {pairs : List (κ × α)} {key : κ} {value : α}
    (h : (ofList pairs).get? key = some value) : (key, value) ∈ pairs := by
  -- From the end of the list, as the last pair of a key counts.
  induction pairs using List.reverseRecOn with
  | nil => simp [ofList] at h
  | append_singleton init last ih =>
    obtain ⟨k, v⟩ := last
    rw [get?_ofList_concat] at h
    split at h
    · rename_i hk
      cases h
      rw [hk]
      exact List.mem_append_right init (List.mem_singleton_self _)
    · exact List.mem_append_left _ (ih h)

/-- Of the pairs of a list, the first one counts if no later one has its key. -/
theorem get?_ofList_cons (k : κ) (v : α) (pairs : List (κ × α)) (key : κ) :
    (ofList ((k, v) :: pairs)).get? key =
      ((ofList pairs).get? key).or (if k = key then some v else none) := by
  induction pairs using List.reverseRecOn with
  | nil => exact get?_ofList_concat [] k v key
  | append_singleton init last ih =>
    obtain ⟨l, x⟩ := last
    rw [← List.cons_append, get?_ofList_concat, get?_ofList_concat, ih]
    split <;> rfl

/-- The map of a list has an entry at each key of the list. It is known where all pairs of the key
    have one value. -/
theorem get?_ofList_of_mem {pairs : List (κ × α)} {key : κ} {value : α}
    (hmem : (key, value) ∈ pairs) (hsame : ∀ v, (key, v) ∈ pairs → v = value) :
    (ofList pairs).get? key = some value := by
  -- What is found is a value of the key, so it is the known one; that nothing is found is excluded.
  cases hget : (ofList pairs).get? key with
  | some v => rw [hsame v (mem_of_get?_ofList hget)]
  | none =>
    induction pairs using List.reverseRecOn with
    | nil => cases hmem
    | append_singleton init last ih =>
      obtain ⟨k, v⟩ := last
      rw [get?_ofList_concat] at hget
      split at hget
      · cases hget
      · -- The last pair has another key.
        rename_i hk
        refine ih ?_ (fun w hw => hsame w (List.mem_append_left _ hw)) hget
        -- The pair that is looked for is an earlier one.
        rcases List.mem_append.1 hmem with hinit | hlast
        · exact hinit
        · cases List.mem_singleton.1 hlast
          exact absurd rfl hk

/-- The map of a list with different keys holds exactly the pairs of the list. -/
theorem get?_ofList_eq_some_iff {pairs : List (κ × α)} (h : (pairs.map Prod.fst).Nodup)
    {key : κ} {value : α} : (ofList pairs).get? key = some value ↔ (key, value) ∈ pairs := by
  induction pairs using List.reverseRecOn with
  | nil => simp [ofList]
  | append_singleton init last ih =>
    obtain ⟨k, v⟩ := last
    rw [List.map_append, List.nodup_append] at h
    obtain ⟨hinit, -, hnew⟩ := h
    rw [get?_ofList_concat, List.mem_append, List.mem_singleton, Prod.mk.injEq]
    by_cases hk : k = key
    · subst hk
      -- No earlier pair has the key of the last one.
      have hfresh : (k, value) ∉ init := fun hm =>
        hnew k (List.mem_map_of_mem hm) k (by simp) rfl
      simp [hfresh, eq_comm]
    · rw [if_neg hk, ih hinit]
      simp [Ne.symm hk]

/-- The entries of the map of a list with different keys are the pairs of the list. -/
theorem toList_ofList_perm {pairs : List (κ × α)} (h : (pairs.map Prod.fst).Nodup) :
    (ofList pairs).toList.Perm pairs := by
  -- Both have no pair twice, so it is enough that they have the same pairs.
  have hentries : (ofList pairs).toList.Nodup := List.Nodup.of_map Prod.fst (nodup_keys _)
  have hpairs := List.Nodup.of_map Prod.fst h
  refine (List.perm_ext_iff_of_nodup hentries hpairs).2 fun (key, value) => ?_
  rw [mem_toList_iff_get?_eq_some, get?_ofList_eq_some_iff h]

/-- The entries of a map give it back, in any order. -/
theorem ofList_of_perm {pairs : List (κ × α)} {m : OrderedMap κ α} (h : pairs.Perm m.toList) :
    ofList pairs = m := by
  have hnodup : (pairs.map Prod.fst).Nodup := (h.map Prod.fst).nodup_iff.2 (nodup_keys m)
  refine ext_get? fun key => Option.ext fun value => ?_
  rw [get?_ofList_eq_some_iff hnodup, h.mem_iff, mem_toList_iff_get?_eq_some]

end Entries

end FieldMask
