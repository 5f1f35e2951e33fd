import FieldMask.Path.Values
import FieldMask.Proofs.DataOrder
import FieldMask.Proofs.NamingRoundTrip
import FieldMask.Proofs.PathInvariant
import FieldMask.Proofs.ProjectionTotal
import FieldMask.Proofs.RecordTyping

/-!
# Projection along a path

There are two ways to find what is at the end of a path: to go through the values along its indices,
or to project through the selection of its end and to go through the data by serialized names. They
find the same scalars in the same order, zeros aside.

Zeros may differ, since projection shows `null` in place of what has nothing to show, and of what a
field omits that was never set. That hides whole arrays and records, so that what holds the two
together is that no part of what is hidden holds a scalar that is not zero.

## Key results

- `scalarsAlong` / `spreadLike`: going through the data
- `nonzero_scalarsAlong_of_isHollow`: nothing but zeros is found in what has nothing to show
- `spread_eq_spreadLike`: in the data of a field, types tell arrays and maps as the value does
- `findsSame_of_records`: from records to values that are made of them
- `FindsSameInRecords.last` / `FindsSameInRecords.cons`: from what is behind a field to records
- `RecordPath.scalars_of_project_eq_values`: the two ways find the same along a path
-/

namespace FieldMask

variable {reg : Registry}

/-- A scalar type has no types within it. -/
theorem FieldType.eq_none_of_isPrimitive (reg : Registry) {t : FieldType}
    (h : t.isPrimitive = true) :
    t.items? = none ∧ t.values? = none ∧ t.target reg = none ∧ t.recordOf reg = none := by
  cases t <;> first | exact ⟨rfl, rfl, rfl, rfl⟩ | cases h

/-- A scalar type does not leave open what is in it. -/
theorem FieldType.holdsAny_eq_false_of_isPrimitive {t : FieldType} (h : t.isPrimitive = true) :
    t.holdsAny = false := by
  cases t <;> first | rfl | cases h

namespace Value

/-! ## Scalars in data -/

/-- Whether the value is a truth value, a number or a text. -/
def isScalar : Value → Bool
  | bool _ | number _ | string _ => true
  | _ => false

/-- The values that are neither `null` nor zero. -/
def nonzero (values : List Value) : List Value := values.filter fun v => !v.isZero

/-- What is in the arrays and maps that a type prescribes. -/
def spread : FieldType → Value → List Value
  | .array items, array vs => vs.flatMap (spread items)
  | .array _, _ => []
  | .map values, object entries => entries.values.flatMap (spread values)
  | .map _, _ => []
  | _, v => [v]
termination_by structural t => t

/-- The scalars in data at the end of serialized names, given with the types of their fields. -/
def scalarsAlong : List (String × FieldType) → Value → List Value
  | [], v => if v.isScalar then [v] else []
  | (name, t) :: rest, object entries =>
    ((entries.get? name).elim [] (spread t)).flatMap (scalarsAlong rest)
  | _ :: _, _ => []
termination_by structural names => names

mutual

/-- What is in data in the place of the records of a value that the data was projected from. -/
def spreadLike : Value → Value → List Value
  | ref target, w => target.spreadLike w
  | array items, array ws => spreadItemsLike items ws
  | object entries, object ws => spreadEntriesLike entries ws
  | record _ _, w => [w]
  | _, _ => []
termination_by structural v => v

/-- The same for items, one by one. -/
def spreadItemsLike : List Value → List Value → List Value
  | v :: rest, w :: ws => v.spreadLike w ++ spreadItemsLike rest ws
  | _, _ => []
termination_by structural vs => vs

/-- The same for the values of maps with the same keys, in their order. -/
def spreadEntriesLike {b₁ b₂ : Option String} :
    Entries String Value b₁ → Entries String Value b₂ → List Value
  | .cons key v _ rest, .cons key' w _ ws =>
    if key = key' then v.spreadLike w ++ spreadEntriesLike rest ws else []
  | _, _ => []
termination_by structural es => es

end

/-- Zeros are left out of each part by itself. -/
theorem nonzero_append (l l' : List Value) : nonzero (l ++ l') = nonzero l ++ nonzero l' := by
  rw [nonzero, List.filter_append]
  rfl

/-- Nothing is left if all values are zeros. -/
theorem nonzero_eq_nil_iff {l : List Value} : nonzero l = [] ↔ ∀ v ∈ l, v.isZero = true := by
  simp [nonzero, List.filter_eq_nil_iff]

@[simp] theorem scalarsAlong_null (names : List (String × FieldType)) :
    scalarsAlong names null = [] := by
  cases names <;> rfl

/-! ### Data with nothing to show -/

/-- A list has nothing to show if none of its items has. -/
theorem allHollow_iff {l : List Value} : allHollow l = true ↔ ∀ v ∈ l, v.isHollow = true := by
  induction l with
  | nil => simp [allHollow]
  | cons v rest ih => simp [allHollow, ih]

/-- Within what has nothing to show there is nothing to show. -/
theorem isHollow_of_mem_spread : ∀ (t : FieldType) {v w : Value}, v.isHollow = true →
    w ∈ spread t v → w.isHollow = true
  -- By the type, which says what is gone into.
  | .array items, v, w, hv, hw => by
    cases v with
    | array vs =>
      obtain ⟨u, hu, hw⟩ := List.mem_flatMap.1 hw
      exact isHollow_of_mem_spread items (allHollow_iff.1 hv u hu) hw
    | _ => cases hw
  | .map values, v, w, hv, hw => by
    cases v with
    | object entries =>
      obtain ⟨u, hu, hw⟩ := List.mem_flatMap.1 hw
      obtain ⟨⟨key, u'⟩, hmem, rfl⟩ := List.mem_map.1 hu
      have hget := Entries.mem_toList_iff_get?_eq_some.1 hmem
      exact isHollow_of_mem_spread values (allHollowEntries_iff.1 hv key _ hget) hw
    | _ => cases hw
  | .any, v, w, hv, hw => List.mem_singleton.1 hw ▸ hv
  | .boolean, v, w, hv, hw => List.mem_singleton.1 hw ▸ hv
  | .integer, v, w, hv, hw => List.mem_singleton.1 hw ▸ hv
  | .number, v, w, hv, hw => List.mem_singleton.1 hw ▸ hv
  | .string, v, w, hv, hw => List.mem_singleton.1 hw ▸ hv
  | .record _, v, w, hv, hw => List.mem_singleton.1 hw ▸ hv
  | .ref _, v, w, hv, hw => List.mem_singleton.1 hw ▸ hv
termination_by structural t => t

/-- Only zeros are found in what has nothing to show. -/
theorem isZero_of_mem_scalarsAlong {names : List (String × FieldType)} {v w : Value}
    (hv : v.isHollow = true) (hw : w ∈ scalarsAlong names v) : w.isZero = true := by
  induction names generalizing v with
  -- At the end of the names there is a scalar, and the only one without anything to show is the
  -- empty text.
  | nil =>
    rw [scalarsAlong] at hw
    split at hw
    · rename_i hscalar
      rw [List.mem_singleton.1 hw]
      cases v with
      | string s => exact hv
      | bool b => cases hv
      | number n => cases hv
      | _ => cases hscalar
    · cases hw
  | cons first rest ih =>
    -- One name further, in data that has nothing to show either.
    obtain ⟨name, t⟩ := first
    cases v with
    | object entries =>
      obtain ⟨u, hu, hw⟩ := List.mem_flatMap.1 hw
      cases hget : entries.get? name with
      | none =>
        rw [hget] at hu
        cases hu
      | some x =>
        rw [hget] at hu
        have hx := allHollowEntries_iff.1 hv name x hget
        exact ih (isHollow_of_mem_spread t hx hu) hw
    | _ => cases hw

/-- Nothing but zeros is found in what has nothing to show. -/
theorem nonzero_scalarsAlong_of_isHollow (t : FieldType) (names : List (String × FieldType))
    {v : Value} (hv : v.isHollow = true) :
    nonzero ((spread t v).flatMap (scalarsAlong names)) = [] := by
  refine nonzero_eq_nil_iff.2 fun w hw => ?_
  obtain ⟨u, hu, hw⟩ := List.mem_flatMap.1 hw
  exact isZero_of_mem_scalarsAlong (isHollow_of_mem_spread t hv hu) hw

/-! ### Data of a type -/

mutual

/-- In what is projected of a value of a type with a nested record, the type tells the arrays and
    maps as the value does. -/
theorem spread_eq_spreadLike {s : RecordSelection} {r : Schema} {g : Value → List Value}
    (hg : g null = []) : ∀ (x : Value) {t : FieldType} {w : Value}, x.HasType reg t →
      t.recordOf reg = some r → x.project reg s = .ok w →
        (spread t w).flatMap g = (x.spreadLike w).flatMap g
  -- Where there is no value, there is nothing in it and `null` in place of it: both give nothing.
  | .null, t, w, _, hr, hw => by
    cases hw
    cases t with
    | record schema => simp [spread, spreadLike, hg]
    | ref name => simp [spread, spreadLike, hg]
    | array items => rfl
    | map values => rfl
    | _ => cases hr
  | .ref target, t, w, hx, hr, hw => spread_eq_spreadLike hg target hx hr hw
  | .bool _, _, _, _, _, hw => nomatch hw
  | .number _, _, _, _, _, hw => nomatch hw
  | .string _, _, _, _, _, hw => nomatch hw
  | .array items, t, w, hx, hr, hw => by
    obtain ⟨u, hu, hitems⟩ := hx
    obtain ⟨ws, hws, hw⟩ := bind_eq_ok_iff.1 hw
    cases hw
    -- The type is that of an array, since the value has the type.
    cases t with
    | array items' =>
      cases hu
      exact spreadItems_eq_spreadItemsLike hg items hitems hr hws
    | any => cases hr
    | _ => cases hu
  | .object entries, t, w, hx, hr, hw => by
    obtain ⟨u, hu, hentries⟩ := hx
    obtain ⟨ws, hws, hw⟩ := bind_eq_ok_iff.1 hw
    cases hw
    cases t with
    | map values =>
      cases hu
      exact spreadEntries_eq_spreadEntriesLike hg entries hentries hr hws
    | any => cases hr
    | _ => cases hu
  | .record schema values, t, w, hx, hr, hw => by
    -- A record is taken as it is, and its type is that of a record.
    cases t with
    | record schema' => rfl
    | ref name => rfl
    | any => cases hr
    | array items =>
      obtain ⟨hany | ⟨pointer, htarget⟩, -⟩ := hx
      · cases hany
      · cases htarget
    | map values =>
      obtain ⟨hany | ⟨pointer, htarget⟩, -⟩ := hx
      · cases hany
      · cases htarget
    | _ => cases hr
termination_by structural x => x

/-- So it is in the items of an array. -/
theorem spreadItems_eq_spreadItemsLike {s : RecordSelection} {r : Schema} {g : Value → List Value}
    (hg : g null = []) : ∀ (items : List Value) {t : FieldType} {ws : List Value} {index : Nat},
      ItemsHaveType reg items t → t.recordOf reg = some r →
        projectItems reg s index items = .ok ws →
          (ws.flatMap (spread t)).flatMap g = (spreadItemsLike items ws).flatMap g
  | [], _, _, _, _, _, hws => by
    cases hws
    rfl
  | v :: rest, t, ws, index, hitems, hr, hws => by
    obtain ⟨w, hw, hws⟩ := bind_eq_ok_iff.1 hws
    obtain ⟨ws', hrest, hws⟩ := bind_eq_ok_iff.1 hws
    cases hws
    rw [List.flatMap_cons, List.flatMap_append, spreadItemsLike, List.flatMap_append,
      spread_eq_spreadLike hg v hitems.1 hr (within_eq_ok_iff.1 hw),
      spreadItems_eq_spreadItemsLike hg rest hitems.2 hr hrest]
termination_by structural items => items

/-- So it is in the values of a map. -/
theorem spreadEntries_eq_spreadEntriesLike {s : RecordSelection} {r : Schema}
    {g : Value → List Value} (hg : g null = []) {bound : Option String} :
    ∀ (entries : Entries String Value bound) {t : FieldType} {ws : Entries String Value bound},
      EntriesHaveType reg entries t → t.recordOf reg = some r →
        projectEntries reg s entries = .ok ws →
          (ws.values.flatMap (spread t)).flatMap g = (spreadEntriesLike entries ws).flatMap g
  | .nil, _, _, _, _, hws => by
    cases hws
    rfl
  | .cons key v above rest, t, ws, hentries, hr, hws => by
    obtain ⟨w, hw, hws⟩ := bind_eq_ok_iff.1 hws
    obtain ⟨ws', hrest, hws⟩ := bind_eq_ok_iff.1 hws
    cases hws
    show ((w :: ws'.values).flatMap (spread t)).flatMap g = _
    rw [List.flatMap_cons, List.flatMap_append, spreadEntriesLike, if_pos rfl,
      List.flatMap_append, spread_eq_spreadLike hg v hentries.1 hr (within_eq_ok_iff.1 hw),
      spreadEntries_eq_spreadEntriesLike hg rest hentries.2 hr hrest]
termination_by structural entries => entries

end

/-! ## The same scalars -/

/-- From parts of data the same scalars are reached along names as among values that were found,
    zeros aside, and none where there is nothing to show. -/
structure SameScalars (names : List (String × FieldType)) (parts found : List Value)
    (hollow : Bool) : Prop where
  same : nonzero (parts.flatMap (scalarsAlong names)) = nonzero (found.map deref)
  hidden : hollow = true → nonzero (found.map deref) = []

/-- Nothing is the same as nothing. -/
theorem SameScalars.nil (names : List (String × FieldType)) (hollow : Bool) :
    SameScalars names [] [] hollow :=
  ⟨rfl, fun _ => rfl⟩

/-- What is the same in two parts is the same in both together. -/
theorem SameScalars.append {names : List (String × FieldType)}
    {parts parts' found found' : List Value} {hollow hollow' : Bool}
    (h : SameScalars names parts found hollow) (h' : SameScalars names parts' found' hollow') :
    SameScalars names (parts ++ parts') (found ++ found') (hollow && hollow') := by
  refine ⟨?_, fun hboth => ?_⟩
  · rw [List.flatMap_append, List.map_append, nonzero_append, nonzero_append, h.same, h'.same]
  · obtain ⟨hfirst, hmore⟩ := Bool.and_eq_true_iff.1 hboth
    rw [List.map_append, nonzero_append, h.hidden hfirst, h'.hidden hmore]
    rfl

end Value

/-- See a value at the end of a path, and go on. -/
def RecordPath.collect (found : List Value) (v : Value) : List Value × Bool := (v :: found, false)

namespace Value

open RecordPath (collect visitFrom visitField visitItems visitEntries)

/-- Along indices the same scalars are found as in what is projected. -/
structure FindsSame (reg : Registry) (record : Schema) (indices : List Nat) (s : RecordSelection)
    (names : List (String × FieldType)) (v w : Value) (found : List Value) : Prop where
  projected : v.project reg s = .ok w
  visited : ∀ state, visitFrom reg collect record indices state v =
    .ok (found.reverse ++ state, false)
  scalars : SameScalars names (v.spreadLike w) found v.isHollow

/-- Along indices the same scalars are found in all well-typed records. -/
def FindsSameInRecords (reg : Registry) (record : Schema) (indices : List Nat)
    (s : RecordSelection) (names : List (String × FieldType)) : Prop :=
  ∀ values, (Value.record record values).HasType reg .any →
    ∃ w found, FindsSame reg record indices s names (.record record values) w found

section Records

variable {record : Schema} {i : Nat} {rest : List Nat} {s : RecordSelection}
  {names : List (String × FieldType)}

mutual

/-- If the same is found in all records, it is in values that are made of them. There is one index
    at least, so that the search ends in records alone. -/
theorem findsSame_of_records (h : FindsSameInRecords reg record (i :: rest) s names) :
    ∀ v : Value, v.HasType reg .any → v.LeavesIn record →
      ∃ w found, FindsSame reg record (i :: rest) s names v w found
  | .null, _, _ => ⟨null, [], rfl, fun _ => rfl, .nil names _⟩
  | .ref target, hv, hleaves => by
    obtain ⟨w, found, hprojected, hvisited, hsame⟩ := findsSame_of_records h target hv hleaves
    exact ⟨w, found, hprojected, hvisited, hsame⟩
  | .bool _, _, hleaves => nomatch hleaves
  | .number _, _, hleaves => nomatch hleaves
  | .string _, _, hleaves => nomatch hleaves
  | .array items, hv, hleaves => by
    obtain ⟨ws, found, hprojected, hvisited, hsame⟩ := findsSame_of_items h items hv.items hleaves
    -- The items are projected and visited one by one, so the array is.
    refine ⟨array ws, found, ?_, hvisited, hsame⟩
    rw [project, hprojected 0]
    rfl
  | .object entries, hv, hleaves => by
    obtain ⟨ws, found, hprojected, hvisited, hsame⟩ :=
      findsSame_of_entries h entries hv.entries hleaves
    refine ⟨object ws, found, ?_, hvisited, hsame⟩
    rw [project, hprojected]
    rfl
  -- This is a record of the path, for which it is assumed.
  | .record schema values, hv, hleaves => by
    have hschema : schema = record := hleaves
    subst hschema
    exact h values hv
termination_by structural v => v

/-- If the same is found in all records, it is in the items of an array. -/
theorem findsSame_of_items (h : FindsSameInRecords reg record (i :: rest) s names) :
    ∀ items : List Value, ItemsHaveType reg items .any → ItemsLeavesIn record items →
      ∃ ws found, (∀ index, projectItems reg s index items = .ok ws) ∧
        (∀ state, visitItems reg collect record (i :: rest) state items =
          .ok (found.reverse ++ state, false)) ∧
        SameScalars names (spreadItemsLike items ws) found (allHollow items)
  | [], _, _ => ⟨[], [], fun _ => rfl, fun _ => rfl, .nil names _⟩
  | v :: items, hv, hleaves => by
    obtain ⟨w, found, hfirst⟩ := findsSame_of_records h v hv.1 hleaves.1
    obtain ⟨ws, found', hprojected, hvisited, hmore⟩ := findsSame_of_items h items hv.2 hleaves.2
    -- What is found in the first item comes before what is found in the others.
    refine ⟨w :: ws, found ++ found', fun index => ?_, fun state => ?_,
      hfirst.scalars.append hmore⟩
    · rw [projectItems, hfirst.projected, hprojected (index + 1)]
      rfl
    · rw [visitItems, hfirst.visited state]
      simp only [bind, Except.bind, Bool.false_eq_true, if_false, hvisited, List.reverse_append,
        List.append_assoc]
termination_by structural items => items

/-- If the same is found in all records, it is in the values of a map. -/
theorem findsSame_of_entries (h : FindsSameInRecords reg record (i :: rest) s names)
    {bound : Option String} : ∀ entries : Entries String Value bound,
      EntriesHaveType reg entries .any → EntriesLeavesIn record entries →
      ∃ ws found, projectEntries reg s entries = .ok ws ∧
        (∀ state, visitEntries reg collect record (i :: rest) state entries =
          .ok (found.reverse ++ state, false)) ∧
        SameScalars names (spreadEntriesLike entries ws) found (allHollowEntries entries)
  | .nil, _, _ => ⟨.nil, [], rfl, fun _ => rfl, .nil names _⟩
  | .cons key v above entries, hv, hleaves => by
    obtain ⟨w, found, hfirst⟩ := findsSame_of_records h v hv.1 hleaves.1
    obtain ⟨ws, found', hprojected, hvisited, hmore⟩ :=
      findsSame_of_entries h entries hv.2 hleaves.2
    -- Projection keeps the keys, so the data has the value of the entry under the key of the entry.
    refine ⟨.cons key w above ws, found ++ found', ?_, fun state => ?_, ?_⟩
    · rw [projectEntries, hfirst.projected, hprojected]
      rfl
    · rw [visitEntries, hfirst.visited state]
      simp only [bind, Except.bind, Bool.false_eq_true, if_false, hvisited, List.reverse_append,
        List.append_assoc]
    · rw [spreadEntriesLike, if_pos rfl]
      exact hfirst.scalars.append hmore
termination_by structural entries => entries

end

end Records

/-! ## One field of a record -/

/-- Going on behind a field looks at the value of the field alone. -/
theorem visitField_eq {σ : Type} {visitor : σ → Value → σ × Bool} {f : Field} {indices : List Nat}
    {state : σ} {x : Value} :
    ∀ {values : List Value} {skip : Nat}, values[skip]? = some x →
      visitField reg visitor f indices state skip values =
        if indices.isEmpty then .ok (visitor state x)
        else match f.record reg with
          | some next =>
            (visitFrom reg visitor next indices state x).mapError (Failure.under f.name)
          | none => .ok (state, false)
  | [], _, hx => by cases hx
  | v :: values, 0, hx => by
    cases hx
    rfl
  | v :: values, skip + 1, hx => by
    rw [List.getElem?_cons_succ] at hx
    rw [visitField]
    exact visitField_eq hx

/-- Fields that are not selected add nothing. -/
theorem projectFields_of_not_hasIndex {s : RecordSelection} {before : OrderedMap String Value} :
    ∀ {fields : List (Field × Nat)} (values : List Value),
      (∀ p ∈ fields, s.hasIndex p.2 = false) → projectFields reg s before fields values = .ok before
  | _, [], _ => rfl
  | [], _ :: _, _ => rfl
  | (f, i) :: fields, v :: values, h => by
    -- The field in front has no name to be shown under.
    obtain ⟨hi, hmore⟩ := List.forall_mem_cons.1 h
    have hname : shownName? s i f = none := by
      rw [shownName?, hi]
      rfl
    rw [projectFields_cons, addShown, hname]
    exact projectFields_of_not_hasIndex values hmore

/-- If one field is selected alone, what is shown of it is added alone. -/
theorem projectFields_of_hasIndex_iff {s : RecordSelection} {f : Field} {i : Nat} {x : Value}
    {before : OrderedMap String Value} :
    ∀ {fields : List (Field × Nat)} {values : List Value} {k : Nat},
      (∀ p ∈ fields, p.2 ≠ i → s.hasIndex p.2 = false) → (fields.map Prod.snd).Nodup →
        fields[k]? = some (f, i) → values[k]? = some x →
          projectFields reg s before fields values = addShown reg s i f x before
  | [], _, _, _, _, hf, _ => by cases hf
  | _ :: _, [], _, _, _, _, hx => by cases hx
  -- The field that is selected comes first, so nothing is added behind it.
  | (g, j) :: fields, v :: values, 0, hs, hnodup, hf, hx => by
    cases hf
    cases hx
    rw [List.map_cons, List.nodup_cons] at hnodup
    have hmore : ∀ p ∈ fields, s.hasIndex p.2 = false := fun p hp =>
      hs p (List.mem_cons_of_mem _ hp) fun heq => hnodup.1 (List.mem_map.2 ⟨p, hp, heq⟩)
    rw [projectFields_cons]
    cases addShown reg s i f x before with
    | error e => rfl
    | ok m => exact projectFields_of_not_hasIndex values hmore
  -- The field that is selected comes later, so nothing is added in front of it.
  | (g, j) :: fields, v :: values, k + 1, hs, hnodup, hf, hx => by
    obtain ⟨hfirst, hmore⟩ := List.forall_mem_cons.1 hs
    rw [List.map_cons, List.nodup_cons] at hnodup
    rw [List.getElem?_cons_succ] at hf hx
    have hi : i ∈ fields.map Prod.snd := List.mem_map.2 ⟨(f, i), List.mem_of_getElem? hf, rfl⟩
    have hname : shownName? s j g = none := by
      rw [shownName?, hfirst fun heq => hnodup.1 (heq ▸ hi)]
      rfl
    rw [projectFields_cons, addShown, hname]
    exact projectFields_of_hasIndex_iff hmore hnodup.2 hf hx

/-- A selection of one field selects no other. -/
theorem hasIndex_put_empty {record : Schema} {i j : Nat} {g : Field}
    (child : Option RecordSelection) (hg : record.fields[j]? = some g) :
    ((RecordSelection.empty record).put i child).hasIndex j = decide (i = j) := by
  rw [RecordSelection.hasIndex_of_isUndefined_eq_false rfl hg, RecordSelection.explicit?_put]
  by_cases hij : i = j
  · rw [if_pos hij, decide_eq_true hij]
    rfl
  · rw [if_neg hij, decide_eq_false hij]
    rfl

/-- It projects a record to what is shown of the field. -/
theorem project_put {record : Schema} {values : List Value} {i : Nat} {f : Field} {x part : Value}
    {name : String} {child : Option RecordSelection} (hf : record.fields[i]? = some f)
    (hx : values[i]? = some x) (hname : f.json = some name)
    (hpart : shown reg ((RecordSelection.empty record).put i child) i f x = .ok part) :
    (Value.record record values).project reg ((RecordSelection.empty record).put i child) =
      .ok (object (addProjected true name part .nil)) := by
  -- The only field that is shown is the one that has been put in, under its serialized name.
  have hrecord : record = ((RecordSelection.empty record).put i child).record := rfl
  have hothers : ∀ p ∈ record.fields.zipIdx, p.2 ≠ i →
      ((RecordSelection.empty record).put i child).hasIndex p.2 = false := fun p hp hne => by
    rw [hasIndex_put_empty child (List.mem_zipIdx_iff_getElem?.1 hp), decide_eq_false hne.symm]
  have hnodup : (record.fields.zipIdx.map Prod.snd).Nodup := by
    rw [List.zipIdx_map_snd]
    exact List.nodup_range'
  have hfield : record.fields.zipIdx[i]? = some (f, i) := by
    rw [List.getElem?_zipIdx, hf, Option.map_some, Nat.zero_add]
  have hshown : shownName? ((RecordSelection.empty record).put i child) i f = some name := by
    rw [shownName?, hasIndex_put_empty child hf, decide_eq_true rfl]
    exact hname
  rw [project, if_pos hrecord, projectFields_of_hasIndex_iff hothers hnodup hfield hx, addShown,
    hshown]
  simp only [hpart]
  rfl

/-! ## Along indices -/

/-- For each field a well-typed record has a value of its type. -/
theorem HasType.field {record : Schema} {values : List Value} {t : FieldType} {i : Nat} {f : Field}
    (h : (Value.record record values).HasType reg t) (hf : record.fields[i]? = some f) :
    ∃ x, values[i]? = some x ∧ x.HasType reg f.type := by
  obtain ⟨hlength, htypes⟩ := fieldsHaveTypes_iff.1 h.2
  obtain ⟨hi, -⟩ := List.getElem?_eq_some_iff.1 hf
  have hi' : i < values.length := hlength ▸ hi
  exact ⟨values[i], List.getElem?_eq_getElem hi', htypes i _ f (List.getElem?_eq_getElem hi') hf⟩

/-- Behind its pointers, a value of a scalar type is a scalar or `null`. -/
theorem HasType.deref_of_isPrimitive : ∀ {x : Value} {t : FieldType}, x.HasType reg t →
    t.isPrimitive = true → x.plain = x.deref ∧ (x.deref = null ∨ x.deref.isScalar = true)
  | .null, _, _, _ => ⟨rfl, .inl rfl⟩
  | .ref target, _, h, ht => HasType.deref_of_isPrimitive (x := target) h ht
  | .bool _, _, _, _ => ⟨rfl, .inr rfl⟩
  | .number _, _, _, _ => ⟨rfl, .inr rfl⟩
  | .string _, _, _, _ => ⟨rfl, .inr rfl⟩
  -- A scalar type has no items, no values and no record, which excludes the other shapes.
  | .array _, t, h, ht => by
    obtain ⟨u, hu, -⟩ := h
    rw [(FieldType.eq_none_of_isPrimitive reg ht).1] at hu
    cases hu
  | .object _, t, h, ht => by
    obtain ⟨u, hu, -⟩ := h
    rw [(FieldType.eq_none_of_isPrimitive reg ht).2.1] at hu
    cases hu
  | .record _ _, t, h, ht => by
    obtain ⟨rfl | ⟨pointer, htarget⟩, -⟩ := h
    · cases ht
    · rw [(FieldType.eq_none_of_isPrimitive reg ht).2.2.1] at htarget
      cases htarget
termination_by structural x => x

/-- A scalar type does not go into a value. -/
theorem spread_of_isPrimitive {t : FieldType} (h : t.isPrimitive = true) (v : Value) :
    spread t v = [v] := by
  cases t <;> first | rfl | cases h

/-- Of a field of a scalar type the scalar is shown, unless the value is passed over. -/
theorem shown_of_isPrimitive {s : RecordSelection} {i : Nat} {f : Field}
    (h : f.type.isPrimitive = true) (v : Value) :
    shown reg s i f v = .ok (if f.isHollow v then null else v.plain) := by
  have hrecord : f.record reg = none := (FieldType.eq_none_of_isPrimitive reg h).2.2.2
  rw [shown, FieldType.holdsAny_eq_false_of_isPrimitive h, hrecord]
  cases f.isHollow v <;> rfl

/-- A scalar with nothing to show is zero. -/
theorem isZero_of_isHollow {x : Value} (hx : x = null ∨ x.isScalar = true)
    (h : x.isHollow = true) : x.isZero = true := by
  cases x with
  | null => rfl
  | string s => exact h
  | bool b => cases h
  | number n => cases h
  | _ => obtain hx | hx := hx <;> cases hx

/-- A scalar that is not zero is found alone. -/
theorem nonzero_scalarsAlong_nil {x : Value} (hx : x = null ∨ x.isScalar = true) :
    nonzero (scalarsAlong [] x) = nonzero [x] := by
  obtain rfl | hx := hx
  · rfl
  · rw [scalarsAlong, if_pos hx]

/-- A value that a field passes over has nothing to show or was never set. -/
theorem isHollow_or_isUndefined {f : Field} {x : Value} (h : f.isHollow x = true) :
    x.isHollow = true ∨ x.isUndefined = true := by
  obtain hshow | homit := Bool.or_eq_true_iff.1 h
  · exact .inl hshow
  · exact .inr (Bool.and_eq_true_iff.1 homit).2

/-- What was never set is zero behind its pointers. -/
theorem isZero_deref_of_isUndefined {x : Value} (h : x.isUndefined = true) :
    x.deref.isZero = true := by
  cases x with
  | ref target =>
    cases target with
    | null => rfl
    | _ => cases h
  | _ => exact h

/-- A record that was never set has nothing to show. -/
theorem isHollow_of_isUndefined {record : Schema} {x : Value} (hx : x.LeavesIn record)
    (h : x.isUndefined = true) : x.isHollow = true := by
  cases x with
  | null => rfl
  | record schema values => exact h
  | ref target =>
    cases target with
    | null => rfl
    | _ => cases h
  | array items => cases h
  | object entries => cases h
  | _ => cases hx

/-- A list is zero if all of its items are. -/
theorem allZero_iff {l : List Value} : allZero l = true ↔ ∀ v ∈ l, v.isZero = true := by
  induction l with
  | nil => simp [allZero]
  | cons v rest ih => simp [allZero, ih]

/-- Within a record that is zero, no value was ever set. -/
theorem isUndefined_of_allZero {values : List Value} {i : Nat} {x : Value}
    (hx : values[i]? = some x) (h : allZero values = true) : x.isUndefined = true := by
  have hzero : x.isZero = true := allZero_iff.1 h x (List.mem_of_getElem? hx)
  cases x <;> first | exact hzero | cases hzero

/-- What is found of a field behind its serialized name is what is shown of it, or nothing if that
    is `null`. -/
theorem scalarsAlong_addProjected (name : String) (t : FieldType)
    (names : List (String × FieldType)) (part : Value) :
    nonzero (scalarsAlong ((name, t) :: names) (object (addProjected true name part .nil))) =
      nonzero ((spread t part).flatMap (scalarsAlong names)) := by
  rw [scalarsAlong, get?_addProjected, if_pos rfl]
  -- Data without anything to show gives only zeros on either side.
  cases hhollow : part.isHollow with
  | true =>
    rw [nonzero_scalarsAlong_of_isHollow t names hhollow]
    exact nonzero_scalarsAlong_of_isHollow (v := null) t names rfl
  | false => rfl

/-- Indices of which the first is that of a field lead to what is behind the value of the field. -/
theorem visitFrom_record {record : Schema} {i : Nat} {f : Field} {values : List Value} {x : Value}
    {indices : List Nat} {state : List Value} (hf : record.fields[i]? = some f)
    (hx : values[i]? = some x) :
    visitFrom reg collect record (i :: indices) state (.record record values) =
      if indices.isEmpty then .ok (collect state x)
      else match f.record reg with
        | some next =>
          (visitFrom reg collect next indices state x).mapError (Failure.under f.name)
        | none => .ok (state, false) := by
  -- The record is that of the path, and its field is found at the index.
  rw [← visitField_eq hx]
  simp only [visitFrom, if_true, Schema.fieldAt_eq_ok_iff.2 hf]
  rfl

namespace FindsSameInRecords

variable {record next : Schema} {i : Nat} {f : Field} {name : String}

/-- At a field at the end of a path there is one scalar, or `null`. -/
theorem last (hf : record.fields[i]? = some f) (hname : f.json = some name)
    (hscalar : f.type.isPrimitive = true) :
    FindsSameInRecords reg record [i] ((RecordSelection.empty record).put i none)
      [(name, f.type)] := by
  intro values hv
  obtain ⟨x, hx, htype⟩ := hv.field hf
  obtain ⟨hplain, hderef⟩ := htype.deref_of_isPrimitive hscalar
  -- A scalar is shown unless it is passed over, and then it is zero.
  obtain ⟨part, hshown, hsame⟩ : ∃ part,
      shown reg ((RecordSelection.empty record).put i none) i f x = .ok part ∧
        nonzero (scalarsAlong [] part) = nonzero [x.deref] := by
    refine ⟨_, shown_of_isPrimitive hscalar x, ?_⟩
    split
    · rename_i hhollow
      have hzero : x.deref.isZero = true := by
        -- The value has nothing to show, or the field leaves it out since it was never set.
        obtain hshow | hunset := isHollow_or_isUndefined hhollow
        · rw [← isHollow_plain, hplain] at hshow
          exact isZero_of_isHollow hderef hshow
        · exact isZero_deref_of_isUndefined hunset
      exact (nonzero_eq_nil_iff.2 fun y hy => List.mem_singleton.1 hy ▸ hzero).symm
    · rw [hplain]
      exact nonzero_scalarsAlong_nil hderef
  refine ⟨_, [x], project_put hf hx hname hshown, fun state => ?_, ?_, fun hzero => ?_⟩
  · rw [visitFrom_record hf hx]
    rfl
  · rw [spreadLike, List.flatMap_singleton, scalarsAlong_addProjected,
      spread_of_isPrimitive hscalar, List.flatMap_singleton]
    exact hsame
  · refine nonzero_eq_nil_iff.2 fun y hy => ?_
    rw [List.mem_singleton.1 hy]
    exact isZero_deref_of_isUndefined (isUndefined_of_allZero hx hzero)

/-- If the same is found in the records behind a field, so it is in those that declare it. -/
theorem cons {j : Nat} {rest : List Nat} {s : RecordSelection} {names : List (String × FieldType)}
    (hf : record.fields[i]? = some f) (hname : f.json = some name) (hr : f.record reg = some next)
    (h : FindsSameInRecords reg next (j :: rest) s names) :
    FindsSameInRecords reg record (i :: j :: rest)
      ((RecordSelection.empty record).put i (some s)) ((name, f.type) :: names) := by
  intro values hv
  obtain ⟨x, hx, htype⟩ := hv.field hf
  have hany : f.type.holdsAny = false := FieldType.holdsAny_eq_false_of_recordOf hr
  have hleaves : x.LeavesIn next := htype.leavesIn hany hr
  obtain ⟨w, found, hprojected, hvisited, hsame, hhidden⟩ :=
    findsSame_of_records h x htype.any hleaves
  -- In data of the type of the field, going in by the type is going in by the value.
  have hspread : nonzero ((spread f.type w).flatMap (scalarsAlong names)) =
      nonzero (found.map deref) := by
    rw [spread_eq_spreadLike (scalarsAlong_null names) x htype hr hprojected, hsame]
  -- The value is passed over only if nothing but zeros is found in it.
  obtain ⟨part, hshown, hpart⟩ : ∃ part,
      shown reg ((RecordSelection.empty record).put i (some s)) i f x = .ok part ∧
        nonzero ((spread f.type part).flatMap (scalarsAlong names)) =
          nonzero (found.map deref) := by
    have hchild : ((RecordSelection.empty record).put i (some s)).selectionOf reg i f = some s := by
      rw [RecordSelection.selectionOf, RecordSelection.explicit?_put, if_pos rfl]
      rfl
    rw [shown_of_selectionOf hr hchild]
    split
    · rename_i hhollow
      -- A record that was never set has nothing to show, so here the reasons are one.
      have hshow : x.isHollow = true := by
        obtain hshow | hunset := isHollow_or_isUndefined hhollow
        · exact hshow
        · exact isHollow_of_isUndefined hleaves hunset
      refine ⟨null, rfl, ?_⟩
      rw [hhidden hshow]
      exact nonzero_scalarsAlong_of_isHollow (v := null) f.type names rfl
    · exact ⟨w, hprojected, hspread⟩
  refine ⟨_, found, project_put hf hx hname hshown, fun state => ?_, ?_, fun hzero => ?_⟩
  · rw [visitFrom_record hf hx]
    simp only [List.isEmpty_cons, Bool.false_eq_true, if_false, hr, hvisited]
    rfl
  · rw [spreadLike, List.flatMap_singleton, scalarsAlong_addProjected]
    exact hpart
  · exact hhidden (isHollow_of_isUndefined hleaves (isUndefined_of_allZero hx hzero))

end FindsSameInRecords

/-! ## Along paths -/

/-- Along indices that lead to a field of a scalar type the same is found in all records, if the
    fields on the way are serialized. -/
theorem findsSameInRecords_of_leads {record : Schema} {indices : List Nat} {target : Option Schema}
    (h : Leads reg record indices target) {steps : List (Schema × Nat × Field)}
    {last : Schema × Nat × Field} {names : List String}
    (hsteps : RecordPath.walkFrom reg record indices = .ok steps)
    (hlast : steps.getLast? = some last) (hscalar : last.2.2.type.isPrimitive = true)
    (hnames : (steps.mapM fun step => step.2.2.json) = some names) :
    ∃ s i rest, RecordPath.selectionOf? reg none steps = some s ∧ indices = i :: rest ∧
      FindsSameInRecords reg record (i :: rest) s
        (names.zip (steps.map fun step => step.2.2.type)) := by
  -- From the end of the path: a scalar field, then one nested record after the other.
  induction h generalizing steps names with
  | nil record =>
    cases hsteps
    cases hlast
  | @last record i f found leaf =>
    rw [RecordPath.walkFrom_of_leaf found leaf] at hsteps
    cases hsteps
    cases hlast
    obtain ⟨name, hname, hmore⟩ := Option.bind_eq_some_iff.1 hnames
    cases hmore
    refine ⟨_, i, [], rfl, rfl, ?_⟩
    rw [RecordSelection.fullChild, leaf]
    exact .last found hname hscalar
  | @cons record next i f rest target found nested more ih =>
    rw [RecordPath.walkFrom_of_nested found nested] at hsteps
    obtain ⟨steps', hsteps', heq⟩ := bind_eq_ok_iff.1 hsteps
    cases heq
    rw [List.mapM_cons] at hnames
    obtain ⟨name, hname, hmore⟩ := Option.bind_eq_some_iff.1 hnames
    obtain ⟨names', hnames', heq⟩ := Option.bind_eq_some_iff.1 hmore
    cases heq
    cases steps' with
    | nil =>
      -- The path does not end here, since the nested record is not that of a scalar.
      cases hlast
      cases nested.symm.trans (FieldType.eq_none_of_isPrimitive reg hscalar).2.2.2
    -- The path goes on, so the selection of the rest is put below the field.
    | cons step steps' =>
      rw [List.getLast?_cons_cons] at hlast
      obtain ⟨s, j, rest', hs, rfl, hsame⟩ := ih hsteps' hlast hnames'
      refine ⟨_, i, j :: rest', rfl, rfl, ?_⟩
      rw [hs]
      exact .cons found hname nested hsame

/-! ### Identifiers of children -/

/-- A node with an identifier. -/
def numbered : Value :=
  record Schema.node [number (.integer 7 (by decide)), string "numbered", null, null, null]

/-- A list of a node with children, behind a pointer. -/
def family (children : List Value) : Value :=
  array [null, ref (record Schema.node [number .zero, string "", null, array children, null])]

/-- Such a family is of the type of lists of nodes. -/
theorem hasType_family {children : List Value}
    (h : ItemsHaveType Registry.ofNode children (.ref "Node")) :
    (family children).HasType Registry.ofNode .any :=
  ⟨.any, rfl, trivial, ⟨.inl rfl, .inr (.inr ⟨rfl, rfl⟩), .inr rfl, trivial, ⟨_, rfl, h⟩, trivial,
    rfl⟩, trivial⟩

end Value

namespace RecordPath

open Value

/-- All values at the end of a path are seen. -/
theorem values_eq_ok {p : RecordPath} {v : Value} {found : List Value}
    (h : visitFrom reg collect p.record p.indices [] v = .ok (found.reverse ++ [], false)) :
    p.values reg v = .ok found := by
  show (visitFrom reg collect p.record p.indices [] v >>= _) >>= _ = _
  rw [h]
  simp only [bind, Except.bind, pure, Except.pure, List.append_nil, List.reverse_reverse]

/-- The path to the identifiers of the children of a node. -/
def childId : RecordPath := ⟨Schema.node, [3, 0], none⟩

/-- The path leads from a node to its children and on to their identifiers. -/
theorem wellFormed_childId : childId.WellFormed Registry.ofNode :=
  ⟨none, .cons rfl rfl (.last rfl rfl), nofun⟩

/-- Along a path without a tail that ends at a field of a scalar type, over serialized fields, the
    scalars in what is projected to the selection of its end are those among its values, in the
    same order and as often, zeros aside. The value may hold records of the path in arrays, maps
    and pointers; on the way, arrays and maps are those that the types prescribe. -/
theorem scalars_of_project_eq_values {p : RecordPath} {v : Value}
    {steps : List (Schema × Nat × Field)} {last : Schema × Nat × Field} {names : List String}
    (hp : p.WellFormed reg) (htail : p.tail = none) (hsteps : p.walk reg = .ok steps)
    (hlast : steps.getLast? = some last) (hscalar : last.2.2.type.isPrimitive = true)
    (hnames : p.jsonNames reg = .ok (some names)) (hv : v.HasType reg .any)
    (hleaves : v.LeavesIn p.record) :
    ∃ s w found, p.toSelection reg = .ok s ∧ v.project reg s = .ok w ∧
      p.values reg v = .ok found ∧
        nonzero ((v.spreadLike w).flatMap
          (scalarsAlong (names.zip (steps.map fun step => step.2.2.type)))) =
            nonzero (found.map deref) := by
  obtain ⟨target, hleads, -⟩ := hp
  rw [jsonNames, hsteps] at hnames
  -- All steps of the path are serialized, so that there are names to follow.
  obtain ⟨s, i, rest, hs, hindices, hrecords⟩ :=
    findsSameInRecords_of_leads hleads hsteps hlast hscalar (Except.ok.inj hnames)
  obtain ⟨w, found, hprojected, hvisited, hsame, -⟩ := findsSame_of_records hrecords v hv hleaves
  refine ⟨s, w, found, ?_, hprojected, values_eq_ok (hindices ▸ hvisited []), hsame⟩
  rw [toSelection, htail, hsteps]
  show Except.ok ((selectionOf? reg none steps).getD (.empty p.record)) = .ok s
  rw [hs]
  rfl

/-- Of three children one has an identifier that is not zero. -/
theorem scalars_of_project_eq_values_childId :
    ∃ s w, childId.toSelection Registry.ofNode = .ok s ∧
      (family [ref leaf, ref numbered, null]).project Registry.ofNode s = .ok w ∧
        nonzero (((family [ref leaf, ref numbered, null]).spreadLike w).flatMap
          (scalarsAlong [("children", .array (.ref "Node")), ("title", .integer)])) =
            [number (.integer 7 (by decide))] := by
  have hnumbered : numbered.HasType Registry.ofNode (.ref "Node") :=
    ⟨.inr ⟨true, rfl⟩, .inr (.inr ⟨rfl, rfl⟩), .inr rfl, trivial, trivial, trivial, rfl⟩
  have htype : (family [ref leaf, ref numbered, null]).HasType Registry.ofNode .any :=
    hasType_family ⟨hasType_leaf (.inr ⟨true, rfl⟩), hnumbered, trivial, trivial⟩
  obtain ⟨s, w, found, hs, hw, hfound, hsame⟩ := scalars_of_project_eq_values
    wellFormed_childId rfl rfl rfl rfl rfl htype ⟨trivial, rfl, trivial⟩
  have hvalues : childId.values Registry.ofNode (family [ref leaf, ref numbered, null]) =
      .ok [number .zero, number (.integer 7 (by decide))] := rfl
  cases hvalues.symm.trans hfound
  exact ⟨s, w, hs, hw, hsame⟩

end RecordPath

end FieldMask
