import FieldMask.Proofs.GenericData

/-!
# The order of data

Data is below other data if it says less: `null` is below everything, arrays are compared item by
item, and objects by the values of the smaller one. A missing value of the larger object reads as
`null`.

## Key results

- `Below.refl`: generic data is below itself
- `Below.isHollow`: below what has nothing to show there is nothing to show
- `EntriesBelow.addProjected`: adding projected fields to objects keeps their order
-/

namespace FieldMask.Value

mutual

/-- A value is below another one. Only generic data is compared. -/
def Below : Value → Value → Prop
  | null, _ => True
  | bool b, w => w = bool b
  | number n, w => w = number n
  | string s, w => w = string s
  | array items, w => match w with
    | array others => ItemsBelow items others
    | _ => False
  | object entries, w => match w with
    | object others => EntriesBelow entries others
    | _ => False
  | record _ _, _ | ref _, _ => False
termination_by structural v => v

/-- Two lists have the same length, and the items of one are below those of the other. -/
def ItemsBelow : List Value → List Value → Prop
  | [], others => others = []
  | v :: rest, others => match others with
    | [] => False
    | w :: others => v.Below w ∧ ItemsBelow rest others
termination_by structural vs => vs

/-- The values of a map are below those of another one. -/
def EntriesBelow {bound : Option String} :
    Entries String Value bound → OrderedMap String Value → Prop
  | .nil, _ => True
  | .cons key v _ rest, others =>
    v.Below ((others.get? key).getD null) ∧ EntriesBelow rest others
termination_by structural es => es

end

/-- One map is below another one if each of its values is below the value of the key there. -/
theorem entriesBelow_iff {bound : Option String} {m : Entries String Value bound}
    {others : OrderedMap String Value} :
    EntriesBelow m others ↔
      ∀ key v, m.get? key = some v → v.Below ((others.get? key).getD null) := by
  rw [← Entries.forall_mem_toList_iff (P := fun key v => Below v ((others.get? key).getD null))]
  induction m with
  | nil => simp [EntriesBelow]
  | cons key v above rest ih => simp [EntriesBelow, ih]

mutual

/-- Generic data is below itself. -/
theorem Below.refl : ∀ {v : Value}, v.Generic → v.Below v
  | .null, _ => trivial
  | .bool _, _ => rfl
  | .number _, _ => rfl
  | .string _, _ => rfl
  | .array items, h => ItemsBelow.refl (l := items) h
  | .object entries, h => by
    -- Each key finds its own value on the other side.
    refine entriesBelow_iff.2 fun key v hget => ?_
    rw [hget]
    exact below_refl_of_mem h (key, v) (Entries.mem_toList_iff_get?_eq_some.2 hget)
  | .record _ _, h => nomatch h
  | .ref _, h => nomatch h
termination_by structural v => v

/-- Generic items are below themselves, one by one. -/
theorem ItemsBelow.refl : ∀ {l : List Value}, AllGeneric l → ItemsBelow l l
  | [], _ => rfl
  | _ :: _, h => ⟨Below.refl h.1, ItemsBelow.refl h.2⟩
termination_by structural l => l

/-- Generic values of a map are below themselves. -/
theorem below_refl_of_mem {bound : Option String} :
    ∀ {m : Entries String Value bound}, EntriesGeneric m → ∀ p ∈ m.toList, p.2.Below p.2
  | .nil, _, _, hp => nomatch hp
  | .cons key v above rest, h, p, hp => by
    rcases List.mem_cons.1 hp with rfl | hrest
    · exact Below.refl (v := v) h.1
    · exact below_refl_of_mem h.2 p hrest
termination_by structural m => m

end

/-! ## Nothing to show -/

/-- There is nothing to show in a map if there is not in any of its values. -/
theorem allHollowEntries_iff {bound : Option String} {m : Entries String Value bound} :
    allHollowEntries m = true ↔ ∀ key v, m.get? key = some v → v.isHollow = true := by
  rw [← Entries.forall_mem_toList_iff (P := fun _ v => isHollow v = true)]
  induction m with
  | nil => simp [allHollowEntries]
  | cons key v above rest ih => simp [allHollowEntries, ih]

mutual

/-- Below a value with nothing to show, no value has anything to show. -/
theorem Below.isHollow : ∀ {v w : Value}, v.Below w → w.isHollow = true → v.isHollow = true
  | .null, _, _, _ => rfl
  | .bool _, _, h, hw => by
    cases h
    exact hw
  | .number _, _, h, hw => by
    cases h
    exact hw
  | .string _, _, h, hw => by
    cases h
    exact hw
  | .array items, w, h, hw => by
    cases w with
    | array others => exact ItemsBelow.allHollow (l := items) h hw
    | _ => cases h
  | .object entries, w, h, hw => by
    cases w with
    | object others => exact EntriesBelow.allHollow (m := entries) h hw
    | _ => cases h
  | .record _ _, _, h, _ => nomatch h
  | .ref _, _, h, _ => nomatch h
termination_by structural v => v

/-- Below items with nothing to show, no item has anything to show. -/
theorem ItemsBelow.allHollow : ∀ {l others : List Value}, ItemsBelow l others →
    Value.allHollow others = true → Value.allHollow l = true
  | [], _, _, _ => rfl
  | _ :: _, [], h, _ => nomatch h
  | v :: rest, w :: others, h, hw => by
    obtain ⟨hfirst, hmore⟩ := Bool.and_eq_true_iff.1 hw
    exact Bool.and_eq_true_iff.2 ⟨Below.isHollow h.1 hfirst, ItemsBelow.allHollow h.2 hmore⟩
termination_by structural l => l

/-- Below a map with nothing to show, there is nothing to show in a map. -/
theorem EntriesBelow.allHollow {bound : Option String} {others : OrderedMap String Value} :
    ∀ {m : Entries String Value bound}, EntriesBelow m others →
      allHollowEntries others = true → allHollowEntries m = true
  | .nil, _, _ => rfl
  | .cons key v _ rest, h, hw => by
    -- A missing value reads as `null`, which is hollow like the values that are there.
    have hother : ((others.get? key).getD null).isHollow = true := by
      cases hget : others.get? key with
      | none => rfl
      | some w => exact allHollowEntries_iff.1 hw key w hget
    exact Bool.and_eq_true_iff.2
      ⟨Below.isHollow (v := v) h.1 hother, EntriesBelow.allHollow (m := rest) h.2 hw⟩
termination_by structural m => m

end

/-! ## Projected fields -/

/-- What is added to an object is found under its name; `null` or nothing if it has nothing to show.
    -/
theorem get?_addProjected (named : Bool) (name : String) (v : Value)
    (m : OrderedMap String Value) (key : String) :
    (addProjected named name v m).get? key =
      if name = key then
        if v.isHollow then if named then some null else m.get? key else some v
      else m.get? key := by
  rw [addProjected]
  by_cases hkey : name = key <;> by_cases hhollow : v.isHollow <;> cases named <;>
    simp [hkey, hhollow, Entries.get?_insert]

/-- More may be added to the larger object, under a name that the smaller one does not have. -/
theorem EntriesBelow.addProjected_right {m others : OrderedMap String Value} {name : String}
    (h : EntriesBelow m others) (hnew : m.get? name = none) (named : Bool) (w : Value) :
    EntriesBelow m (addProjected named name w others) := by
  refine entriesBelow_iff.2 fun key v hget => ?_
  -- What the smaller object has under a key is not under the name that is added.
  have hkey : name ≠ key := by
    rintro rfl
    rw [hnew] at hget
    cases hget
  rw [get?_addProjected, if_neg hkey]
  exact entriesBelow_iff.1 h key v hget

/-- A field may be added to both objects, if what is shown of it in the smaller object is below
    what is shown in the larger one. -/
theorem EntriesBelow.addProjected {m others : OrderedMap String Value} {name : String}
    {v w : Value} (h : EntriesBelow m others) (hnew : m.get? name = none) (hvw : v.Below w)
    (named named' : Bool) :
    EntriesBelow (addProjected named name v m) (addProjected named' name w others) := by
  -- By the key: under the name of the field, the two values that are added are compared.
  refine entriesBelow_iff.2 fun key x hget => ?_
  rw [get?_addProjected] at hget
  by_cases hkey : name = key
  · subst hkey
    rw [if_pos rfl] at hget
    split at hget
    · -- A hollow value leaves `null` or nothing in the smaller object.
      split at hget
      · cases hget
        trivial
      · rw [hnew] at hget
        cases hget
    · -- What is shown in the larger object is not hollow either, so that it is not dropped.
      rename_i hv
      cases hget
      have hw : ¬ w.isHollow = true := fun hw => hv (hvw.isHollow hw)
      rw [get?_addProjected, if_pos rfl, if_neg hw]
      exact hvw
  · rw [if_neg hkey] at hget
    rw [get?_addProjected, if_neg hkey]
    exact entriesBelow_iff.1 h key x hget

end FieldMask.Value
