import FieldMask.Proofs.NamingInclusion
import FieldMask.Proofs.ProjectionTotal

/-!
# What projection depends on

Two values that look the same through a selection are projected to the same, whatever their records
hold in fields that are not selected or not serialized. There is one exception. Whether a field has
anything to show is decided by its whole value, before the selection of the field applies. So a
record whose selected fields are all zero is shown if another field is not, and is `null` otherwise.
Of two values of a selected field both have to be hollow or none, unless there is nothing to show of
them anyway.

## Key results

- `addShown_of_fieldAgrees`: the same is shown of two values of a field that agree
- `project_eq_of_agrees`: values that agree are projected to the same
- `ChangesHidden.agrees`: changing a field that is not shown gives a value that agrees
- `project_agreeing`: the two together
-/

namespace FieldMask

variable {reg : Registry}

/-! ## Agreement -/

/-- How closely two values are compared: which fields of records count, and what has to be alike
    about two values of a field with a nested record before they are compared in turn. -/
structure Comparison where
  counts : RecordSelection → Nat → Field → Prop
  alike : RecordSelection → Nat → Field → Value → Value → Prop

namespace Value

mutual

/-- Two values agree under a selection: through pointers, arrays and objects they have the same
    shape, and the fields of their records that count agree. -/
def Agrees (reg : Registry) (cmp : Comparison) (s : RecordSelection) : Value → Value → Prop
  | ref target, w => ∃ target', w = ref target' ∧ target.Agrees reg cmp s target'
  | array items, w => ∃ items', w = array items' ∧ ItemsAgree reg cmp s items items'
  | object entries, w =>
    ∃ entries' : OrderedMap String Value, w = object entries' ∧
      EntriesAgree reg cmp s entries entries'
  | record schema values, w =>
    ∃ values', w = record schema values' ∧
      FieldsAgree reg cmp s schema.fields.zipIdx values values'
  | v, w => v = w
termination_by structural v => v

/-- Items agree one by one. -/
def ItemsAgree (reg : Registry) (cmp : Comparison) (s : RecordSelection) :
    List Value → List Value → Prop
  | [], ws => ws = []
  | v :: rest, ws =>
    ∃ w rest', ws = w :: rest' ∧ v.Agrees reg cmp s w ∧ ItemsAgree reg cmp s rest rest'
termination_by structural vs => vs

/-- The values of two maps agree under the same keys. -/
def EntriesAgree {bound : Option String} (reg : Registry) (cmp : Comparison)
    (s : RecordSelection) : Entries String Value bound → Entries String Value bound → Prop
  | .nil, es => es = .nil
  | .cons key v above rest, es =>
    ∃ w rest', es = .cons key w above rest' ∧ v.Agrees reg cmp s w ∧
      EntriesAgree reg cmp s rest rest'
termination_by structural es => es

/-- The values of fields, given with their indices, agree where the fields count. Those of a field
    without a nested record are equal, and others agree under the selection of the field. -/
def FieldsAgree (reg : Registry) (cmp : Comparison) (s : RecordSelection)
    (fields : List (Field × Nat)) : List Value → List Value → Prop
  | [], ws => ws = []
  | v :: values, ws => ∃ w ws', ws = w :: ws' ∧ match fields with
    | [] => True
    | (f, i) :: fields =>
      (cmp.counts s i f → (f.record reg = none → v = w) ∧ (f.record reg ≠ none →
        cmp.alike s i f v w ∧ ∀ c ∈ s.selectionOf reg i f, v.Agrees reg cmp c w)) ∧
      FieldsAgree reg cmp s fields values ws'
termination_by structural vs => vs

end

/-- Two values of a field agree where the field counts. -/
def FieldAgrees (reg : Registry) (cmp : Comparison) (s : RecordSelection) (i : Nat) (f : Field)
    (v w : Value) : Prop :=
  cmp.counts s i f → (f.record reg = none → v = w) ∧ (f.record reg ≠ none →
    cmp.alike s i f v w ∧ ∀ c ∈ s.selectionOf reg i f, v.Agrees reg cmp c w)

/-- The first field is compared, and those behind it are. -/
theorem fieldsAgree_cons {cmp : Comparison} {s : RecordSelection} {f : Field} {i : Nat}
    {fields : List (Field × Nat)} {v w : Value} {values ws : List Value}
    (hfield : FieldAgrees reg cmp s i f v w) (hrest : FieldsAgree reg cmp s fields values ws) :
    FieldsAgree reg cmp s ((f, i) :: fields) (v :: values) (w :: ws) :=
  ⟨w, ws, rfl, hfield, hrest⟩

mutual

/-- A value agrees with itself, if it is alike itself. -/
theorem Agrees.refl {cmp : Comparison} (hcmp : ∀ s i f v, cmp.alike s i f v v) :
    ∀ (v : Value) (s : RecordSelection), v.Agrees reg cmp s v
  | .null, _ => rfl
  | .bool _, _ => rfl
  | .number _, _ => rfl
  | .string _, _ => rfl
  | .ref target, s => ⟨target, rfl, Agrees.refl hcmp target s⟩
  | .array items, s => ⟨items, rfl, ItemsAgree.refl hcmp items s⟩
  | .object entries, s => ⟨entries, rfl, EntriesAgree.refl hcmp entries s⟩
  | .record schema values, s =>
    ⟨values, rfl, FieldsAgree.refl hcmp values schema.fields.zipIdx s⟩
termination_by structural v => v

/-- Items agree with themselves. -/
theorem ItemsAgree.refl {cmp : Comparison} (hcmp : ∀ s i f v, cmp.alike s i f v v) :
    ∀ (l : List Value) (s : RecordSelection), ItemsAgree reg cmp s l l
  | [], _ => rfl
  | v :: rest, s => ⟨v, rest, rfl, Agrees.refl hcmp v s, ItemsAgree.refl hcmp rest s⟩
termination_by structural l => l

/-- The values of a map agree with themselves. -/
theorem EntriesAgree.refl {cmp : Comparison} (hcmp : ∀ s i f v, cmp.alike s i f v v)
    {bound : Option String} :
    ∀ (m : Entries String Value bound) (s : RecordSelection), EntriesAgree reg cmp s m m
  | .nil, _ => rfl
  | .cons _ v _ rest, s => ⟨v, rest, rfl, Agrees.refl hcmp v s, EntriesAgree.refl hcmp rest s⟩
termination_by structural m => m

/-- The values of fields agree with themselves. -/
theorem FieldsAgree.refl {cmp : Comparison} (hcmp : ∀ s i f v, cmp.alike s i f v v) :
    ∀ (values : List Value) (fields : List (Field × Nat)) (s : RecordSelection),
      FieldsAgree reg cmp s fields values values
  | [], _, _ => rfl
  | v :: values, [], _ => ⟨v, values, rfl, trivial⟩
  | v :: values, (f, i) :: fields, s => by
    have hfield : FieldAgrees reg cmp s i f v v := fun _ =>
      ⟨fun _ => rfl, fun _ => ⟨hcmp s i f v, fun c _ => Agrees.refl hcmp v c⟩⟩
    exact fieldsAgree_cons hfield (FieldsAgree.refl hcmp values fields s)
termination_by structural values => values

end

/-- A value of a field agrees with itself. -/
theorem FieldAgrees.refl {cmp : Comparison} (hcmp : ∀ s i f v, cmp.alike s i f v v)
    (s : RecordSelection) (i : Nat) (f : Field) (v : Value) : FieldAgrees reg cmp s i f v v :=
  fun _ => ⟨fun _ => rfl, fun _ => ⟨hcmp s i f v, fun c _ => Agrees.refl hcmp v c⟩⟩

/-! ### Replacing a part -/

/-- The value of a field may be replaced by one that agrees. -/
theorem FieldsAgree.set {cmp : Comparison} (hcmp : ∀ s i f v, cmp.alike s i f v v)
    {s : RecordSelection} {fields : List (Field × Nat)} {values : List Value} {k : Nat} {w : Value}
    (hk : ∀ f i v, fields[k]? = some (f, i) → values[k]? = some v →
      FieldAgrees reg cmp s i f v w) : FieldsAgree reg cmp s fields values (values.set k w) := by
  induction values generalizing fields k with
  | nil => rfl
  | cons v values ih =>
    cases fields with
    | nil => cases k <;> exact ⟨_, _, rfl, trivial⟩
    | cons p fields =>
      obtain ⟨f, i⟩ := p
      cases k with
      -- The value is replaced in front, or further on, where the first field is compared with
      -- itself.
      | zero =>
        exact fieldsAgree_cons (hk f i v rfl rfl) (FieldsAgree.refl hcmp values fields s)
      | succ k =>
        have hrest : FieldsAgree reg cmp s fields values (values.set k w) :=
          ih fun g j x hg hx => hk g j x hg hx
        exact fieldsAgree_cons (FieldAgrees.refl hcmp s i f v) hrest

/-- An item may be replaced by one that agrees. -/
theorem ItemsAgree.set {cmp : Comparison} (hcmp : ∀ s i f v, cmp.alike s i f v v)
    {s : RecordSelection} {items : List Value} {k : Nat} {v w : Value} (hk : items[k]? = some v)
    (h : v.Agrees reg cmp s w) : ItemsAgree reg cmp s items (items.set k w) := by
  induction items generalizing k with
  | nil => cases hk
  | cons x rest ih =>
    cases k with
    | zero =>
      cases hk
      exact ⟨w, rest, rfl, h, ItemsAgree.refl hcmp rest s⟩
    | succ k => exact ⟨x, rest.set k w, rfl, Agrees.refl hcmp x s, ih hk⟩

/-- The value at a key may be replaced by one that agrees. -/
theorem EntriesAgree.insertAbove {cmp : Comparison} (hcmp : ∀ s i f v, cmp.alike s i f v v)
    {s : RecordSelection} {bound : Option String} {entries : Entries String Value bound}
    {key : String} {v w : Value} (above : ∀ b ∈ bound, b < key)
    (hget : entries.get? key = some v) (h : v.Agrees reg cmp s w) :
    EntriesAgree reg cmp s entries (entries.insertAbove key w above) := by
  induction entries with
  | nil => cases hget
  | cons k x above' rest ih =>
    rw [Entries.get?_cons] at hget
    rw [Entries.insertAbove]
    by_cases hkey : k = key
    · -- The entry is at the key itself.
      subst hkey
      rw [if_pos rfl] at hget
      cases hget
      rw [dif_neg (Std.lt_irrefl), dif_neg (Std.lt_irrefl)]
      exact ⟨w, rest, rfl, h, EntriesAgree.refl hcmp rest s⟩
    -- The key comes later, and the entry in front of it stays.
    · rw [if_neg hkey] at hget
      have hgt : k < key := Entries.lt_of_get?_eq_some hget k rfl
      rw [dif_neg (Std.not_lt.2 (Std.le_of_lt hgt)), dif_pos hgt]
      exact ⟨x, _, rfl, Agrees.refl hcmp x s, ih _ hget⟩

end Value

/-! ## Two comparisons -/

namespace Comparison

/-- All selected fields count, and nothing else has to be alike. -/
def selected : Comparison where
  counts s i _ := s.hasIndex i = true
  alike _ _ _ _ _ := True

/-- Two values of a field are both passed over because they are hollow, or neither is, or nothing is
    shown of them anyway. -/
def SameVerdict (reg : Registry) (s : RecordSelection) (i : Nat) (f : Field) (v w : Value) : Prop :=
  f.isHollow v = f.isHollow w ∨
    ∃ c part, s.selectionOf reg i f = some c ∧ v.project reg c = .ok part ∧ part.isHollow = true

/-- The selected fields that are serialized count, and values of theirs that are hollow are only
    compared with others that are. -/
def shown (reg : Registry) : Comparison where
  counts s i f := s.hasIndex i = true ∧ f.json ≠ none
  alike := SameVerdict reg

/-- A value has the same verdict as itself. -/
theorem shown_alike_self (s : RecordSelection) (i : Nat) (f : Field) (v : Value) :
    (shown reg).alike s i f v v := .inl rfl

end Comparison

namespace Value

/-! ## Projecting values that agree -/

/-- Hollow parts are added in the same way. -/
theorem addProjected_of_isHollow {named : Bool} {name : String} {a b : Value}
    (ha : a.isHollow = true) (hb : b.isHollow = true) (before : OrderedMap String Value) :
    addProjected named name a before = addProjected named name b before := by
  rw [addProjected, addProjected, if_pos ha, if_pos hb]

/-- A field that is shown counts. -/
theorem counts_of_shownName? {s : RecordSelection} {i : Nat} {f : Field} {name : String}
    (h : shownName? s i f = some name) : (Comparison.shown reg).counts s i f := by
  obtain ⟨hi, hjson⟩ := shownName?_eq_some_iff.1 h
  exact ⟨hi, Option.ne_none_iff_exists'.2 ⟨name, hjson⟩⟩

/-- The same is shown of two values of a field that agree, if their projections are the same. -/
theorem addShown_of_fieldAgrees {s : RecordSelection} (hs : s.WellFormed reg) {i : Nat} {f : Field}
    (hf : s.record.fields[i]? = some f) {v w : Value}
    (h : FieldAgrees reg (.shown reg) s i f v w)
    (hproject : ∀ c : RecordSelection, c.WellFormed reg → v.Agrees reg (.shown reg) c w →
      v.project reg c = w.project reg c) (before : OrderedMap String Value) :
    addShown reg s i f v before = addShown reg s i f w before := by
  rw [addShown, addShown]
  cases hname : shownName? s i f with
  | none => rfl
  | some name =>
    obtain ⟨hequal, hnested⟩ := h (counts_of_shownName? hname)
    cases hr : f.record reg with
    | none => rw [hequal hr]
    | some r =>
      obtain ⟨hverdict, hchild⟩ := hnested (by rw [hr]; exact Option.some_ne_none r)
      -- The field has a selection, as its nested record has, so it is projected by that.
      obtain ⟨hbound, hwell⟩ := hs.selectionOf hf
      rw [hr] at hbound
      obtain ⟨c, hc, -⟩ := Option.map_eq_some_iff.1 hbound
      have hsame : v.project reg c = w.project reg c := hproject c (hwell c hc) (hchild c hc)
      obtain hhollow | ⟨c', part, hc', hpart, hhollow⟩ := hverdict
      · -- Either both values are passed over, or both are projected.
        rw [shown_of_selectionOf hr hc, shown_of_selectionOf hr hc, hhollow, hsame]
      · -- There is nothing to show of either value, whether or not it is passed over.
        cases hc.symm.trans hc'
        have hshown : ∀ x : Value, x.project reg c = .ok part →
            ∃ p, shown reg s i f x = .ok p ∧ p.isHollow = true := by
          intro x hx
          rw [shown_of_selectionOf hr hc]
          split
          · exact ⟨null, rfl, rfl⟩
          · exact ⟨part, hx, hhollow⟩
        obtain ⟨p, hp, hpHollow⟩ := hshown v hpart
        obtain ⟨q, hq, hqHollow⟩ := hshown w (hsame ▸ hpart)
        have hadd : addProjected (!s.isUndefined) name p before =
            addProjected (!s.isUndefined) name q before :=
          addProjected_of_isHollow hpHollow hqHollow before
        rw [hp, hq]
        exact congrArg Except.ok hadd

mutual

/-- Values that agree under a selection are projected to the same. -/
theorem project_eq_of_agrees : ∀ (v w : Value) (s : RecordSelection), s.WellFormed reg →
    v.Agrees reg (.shown reg) s w → v.project reg s = w.project reg s
  | .null, _, _, _, h => by cases h; rfl
  | .bool _, _, _, _, h => by cases h; rfl
  | .number _, _, _, _, h => by cases h; rfl
  | .string _, _, _, _, h => by cases h; rfl
  | .ref target, w, s, hs, h => by
    obtain ⟨target', rfl, htarget⟩ := h
    exact project_eq_of_agrees target target' s hs htarget
  | .array items, w, s, hs, h => by
    obtain ⟨items', rfl, hitems⟩ := h
    rw [project, project, projectItems_eq_of_agree items items' s 0 hs hitems]
  | .object entries, w, s, hs, h => by
    obtain ⟨entries', rfl, hentries⟩ := h
    rw [project, project, projectEntries_eq_of_agree entries entries' s hs hentries]
  | .record schema values, w, s, hs, h => by
    obtain ⟨values', rfl, hvalues⟩ := h
    rw [project, project]
    -- Of another record both fail with the same mismatch.
    by_cases hrecord : schema = s.record
    · have hfields : ∀ p ∈ schema.fields.zipIdx, s.record.fields[p.2]? = some p.1 := fun p hp =>
        hrecord ▸ List.mem_zipIdx_iff_getElem?.1 hp
      rw [projectFields_eq_of_agree values values' s schema.fields.zipIdx hs hfields hvalues]
    · rw [if_neg hrecord, if_neg hrecord]
termination_by structural v => v

/-- Items that agree are projected to the same. -/
theorem projectItems_eq_of_agree : ∀ (l l' : List Value) (s : RecordSelection) (index : Nat),
    s.WellFormed reg → ItemsAgree reg (.shown reg) s l l' →
      projectItems reg s index l = projectItems reg s index l'
  | [], _, _, _, _, h => by cases h; rfl
  | v :: rest, _, s, index, hs, h => by
    obtain ⟨w, rest', rfl, hfirst, hrest⟩ := h
    rw [projectItems, projectItems, project_eq_of_agrees v w s hs hfirst,
      projectItems_eq_of_agree rest rest' s (index + 1) hs hrest]
termination_by structural l => l

/-- The values of maps that agree are projected to the same. -/
theorem projectEntries_eq_of_agree {bound : Option String} :
    ∀ (m m' : Entries String Value bound) (s : RecordSelection), s.WellFormed reg →
      EntriesAgree reg (.shown reg) s m m' → projectEntries reg s m = projectEntries reg s m'
  | .nil, _, _, _, h => by cases h; rfl
  | .cons key v above rest, _, s, hs, h => by
    obtain ⟨w, rest', rfl, hfirst, hrest⟩ := h
    rw [projectEntries, projectEntries, project_eq_of_agrees v w s hs hfirst,
      projectEntries_eq_of_agree rest rest' s hs hrest]
termination_by structural m => m

/-- The same is shown of the values of fields that agree. -/
theorem projectFields_eq_of_agree : ∀ (values values' : List Value) (s : RecordSelection)
    (fields : List (Field × Nat)), s.WellFormed reg →
      (∀ p ∈ fields, s.record.fields[p.2]? = some p.1) →
        FieldsAgree reg (.shown reg) s fields values values' →
          ∀ before : OrderedMap String Value,
            projectFields reg s before fields values = projectFields reg s before fields values'
  | [], _, _, _, _, _, h, before => by cases h; rfl
  | v :: values, _, s, [], _, _, h, before => by
    obtain ⟨w, values', rfl, -⟩ := h
    rfl
  | v :: values, _, s, (f, i) :: fields, hs, hfields, h, before => by
    obtain ⟨w, values', rfl, hfield, hrest⟩ := h
    obtain ⟨hf, hmore⟩ := List.forall_mem_cons.1 hfields
    have hfirst : addShown reg s i f v before = addShown reg s i f w before :=
      addShown_of_fieldAgrees hs hf hfield (fun c hc => project_eq_of_agrees v w c hc) before
    -- The remaining fields are added to the same object on both sides.
    rw [projectFields_cons, projectFields_cons, hfirst]
    refine congrArg (addShown reg s i f w before >>= ·) (funext fun m => ?_)
    exact projectFields_eq_of_agree values values' s fields hs hmore hrest m
termination_by structural values => values

end

/-! ## Changes that are not shown -/

/-- A value is changed at any depth, in a field that is not selected or not serialized. The values
    of the selected fields around it are hollow before and after, or not, or nothing is shown of
    them anyway. -/
inductive ChangesHidden (reg : Registry) : RecordSelection → Value → Value → Prop where
  | here {s : RecordSelection} {values : List Value} {i : Nat} {f : Field} {w : Value}
      (found : s.record.fields[i]? = some f) (hidden : ¬ (s.hasIndex i = true ∧ f.json ≠ none)) :
      ChangesHidden reg s (record s.record values) (record s.record (values.set i w))
  | field {s c : RecordSelection} {values : List Value} {i : Nat} {f : Field} {v w : Value}
      (found : s.record.fields[i]? = some f) (value : values[i]? = some v)
      (nested : s.selectionOf reg i f = some c) (change : ChangesHidden reg c v w)
      (verdict : Comparison.SameVerdict reg s i f v w) :
      ChangesHidden reg s (record s.record values) (record s.record (values.set i w))
  | ref {s : RecordSelection} {v w : Value} (change : ChangesHidden reg s v w) :
      ChangesHidden reg s (ref v) (ref w)
  | item {s : RecordSelection} {items : List Value} {k : Nat} {v w : Value}
      (value : items[k]? = some v) (change : ChangesHidden reg s v w) :
      ChangesHidden reg s (array items) (array (items.set k w))
  | entry {s : RecordSelection} {entries : OrderedMap String Value} {key : String} {v w : Value}
      (value : entries.get? key = some v) (change : ChangesHidden reg s v w) :
      ChangesHidden reg s (object entries) (object (entries.insert key w))

/-- A value agrees with what it is changed to. -/
theorem ChangesHidden.agrees {s : RecordSelection} (hs : s.WellFormed reg) {v w : Value}
    (h : ChangesHidden reg s v w) : v.Agrees reg (.shown reg) s w := by
  have hself := @Comparison.shown_alike_self reg
  -- The field of a record is the one that the selection has at the index.
  have hzip : ∀ {s : RecordSelection} {i j : Nat} {f g : Field}, s.record.fields[i]? = some f →
      s.record.fields.zipIdx[i]? = some (g, j) → g = f ∧ j = i := by
    intro s i j f g hf hg
    rw [List.getElem?_zipIdx, hf] at hg
    cases hg
    exact ⟨rfl, Nat.zero_add i⟩
  induction h with
  | @here s values i f w found hidden =>
    -- Only one field is changed, and it does not count.
    refine ⟨_, rfl, FieldsAgree.set hself fun g j v hg _ => ?_⟩
    obtain ⟨rfl, rfl⟩ := hzip found hg
    exact fun hcounts => absurd hcounts hidden
  | @field s c values i f v w found value nested _ verdict ih =>
    obtain ⟨hbound, hwell⟩ := hs.selectionOf found
    have hagrees := ih (hwell c nested)
    refine ⟨_, rfl, FieldsAgree.set hself fun g j x hg hx => ?_⟩
    obtain ⟨rfl, rfl⟩ := hzip found hg
    cases value.symm.trans hx
    -- The field has a selection, so it has a nested record and is compared by the verdict.
    refine fun _ => ⟨fun hnone => ?_, fun _ => ⟨verdict, fun d hd => ?_⟩⟩
    · rw [nested, hnone] at hbound
      cases hbound
    · cases nested.symm.trans hd
      exact hagrees
  | ref _ ih => exact ⟨_, rfl, ih hs⟩
  | item value _ ih => exact ⟨_, rfl, ItemsAgree.set hself value (ih hs)⟩
  | entry value _ ih => exact ⟨_, rfl, EntriesAgree.insertAbove hself _ value (ih hs)⟩

/-- Values that agree are projected to the same, and so are values that differ in a field that is
    not shown. -/
theorem project_agreeing {s : RecordSelection} (hs : s.WellFormed reg) :
    (∀ v w : Value, v.Agrees reg (.shown reg) s w → v.project reg s = w.project reg s) ∧
      ∀ v w : Value, ChangesHidden reg s v w → v.project reg s = w.project reg s := by
  refine ⟨fun v w h => project_eq_of_agrees v w s hs h, fun v w h => ?_⟩
  exact project_eq_of_agrees v w s hs (h.agrees hs)

end Value

/-! ### A coordinate that is not selected -/

namespace RecordSelection

/-- The first coordinate of a point. -/
def pointX : RecordSelection := (empty Schema.point).put 0 none

/-- The first coordinate of the center of a shape. -/
def centerX : RecordSelection := (empty Schema.shape).put 0 (some pointX)

/-- The first coordinate is a field of a point. -/
theorem wellFormed_pointX : pointX.WellFormed Registry.empty := ⟨⟨_, rfl, rfl⟩, trivial, trivial⟩

/-- The center is a field of a shape, with a selection of a point. -/
theorem wellFormed_centerX : centerX.WellFormed Registry.empty :=
  ⟨⟨_, rfl, rfl⟩, wellFormed_pointX, trivial⟩

end RecordSelection

namespace Value

open RecordSelection (pointX centerX wellFormed_pointX wellFormed_centerX)

/-- A point whose first coordinate is zero. -/
def pointAt (y : Number) : Value := record Schema.point [number .zero, number y]

/-- A shape around such a point. -/
def shapeAt (y : Number) : Value := record Schema.shape [pointAt y]

/-- With an integer for the other coordinate, the shape is well-typed. -/
theorem hasType_shapeAt {y : Number} (hy : y.toInteger? = some y) :
    (shapeAt y).HasType Registry.empty (.record Schema.shape) := by
  have hpoint : (pointAt y).HasType Registry.empty (.record Schema.point) :=
    ⟨.inr ⟨false, rfl⟩, .inr (.inr ⟨rfl, rfl⟩), .inr (.inr ⟨rfl, hy⟩), rfl⟩
  exact ⟨.inr ⟨false, rfl⟩, hpoint, rfl⟩

/-- If only selected fields count, two shapes agree up to the coordinate that is not selected. -/
theorem agrees_shapeAt {cmp : Comparison}
    (hcounts : ∀ s i f, cmp.counts s i f → s.hasIndex i = true) {y y' : Number}
    (halike : cmp.alike centerX 0 (.of "center" (.record Schema.point)) (pointAt y) (pointAt y')) :
    (shapeAt y).Agrees Registry.empty cmp centerX (shapeAt y') := by
  -- The coordinate that is selected is zero in both, and the other one does not count.
  have hpoint : (pointAt y).Agrees Registry.empty cmp pointX (pointAt y') := by
    have hx : FieldAgrees Registry.empty cmp pointX 0 (Field.of "x" .integer).marked
        (number .zero) (number .zero) := fun _ => ⟨fun _ => rfl, fun hne => absurd rfl hne⟩
    have hy : FieldAgrees Registry.empty cmp pointX 1 (.of "y" .integer) (number y) (number y') :=
      fun h => absurd (hcounts _ _ _ h) (by decide)
    exact ⟨_, rfl, fieldsAgree_cons hx (fieldsAgree_cons hy rfl)⟩
  have hcenter : FieldAgrees Registry.empty cmp centerX 0 (.of "center" (.record Schema.point))
      (pointAt y) (pointAt y') := by
    refine fun _ => ⟨fun hnone => ?_, fun _ => ⟨halike, fun c hc => ?_⟩⟩
    · cases hnone
    · cases hc
      exact hpoint
  exact ⟨_, rfl, fieldsAgree_cons hcenter rfl⟩

/-- At the origin the center of a shape is hollow and shown as `null`. With another value of the
    coordinate that is not selected, the selected one is shown. -/
theorem project_shapeAt_ne :
    centerX.WellFormed Registry.empty ∧
      (shapeAt .zero).HasType Registry.empty (.record Schema.shape) ∧
      (shapeAt (.integer 5 (by decide))).HasType Registry.empty (.record Schema.shape) ∧
      (shapeAt .zero).Agrees Registry.empty .selected centerX (shapeAt (.integer 5 (by decide))) ∧
      (shapeAt .zero).project Registry.empty centerX ≠
        (shapeAt (.integer 5 (by decide))).project Registry.empty centerX := by
  refine ⟨wellFormed_centerX, hasType_shapeAt rfl, hasType_shapeAt rfl,
    agrees_shapeAt (fun _ _ _ h => h) trivial, fun h => ?_⟩
  have horigin : (shapeAt .zero).project Registry.empty centerX =
      .ok (object (Entries.nil.insert "center" null)) := rfl
  rw [horigin] at h
  cases h

/-- Two values of it that are not zero make no difference, nor does changing it in a point where the
    other coordinate is zero. -/
theorem project_agreeing_shapeAt :
    (shapeAt (.integer 5 (by decide))).project Registry.empty centerX =
        (shapeAt (.integer 7 (by decide))).project Registry.empty centerX ∧
      (pointAt .zero).project Registry.empty pointX =
        (pointAt (.integer 7 (by decide))).project Registry.empty pointX := by
  have hagrees : (shapeAt (.integer 5 (by decide))).Agrees Registry.empty (.shown Registry.empty)
      centerX (shapeAt (.integer 7 (by decide))) :=
    agrees_shapeAt (fun _ _ _ => And.left) (.inl rfl)
  have hchange : ChangesHidden Registry.empty pointX (pointAt .zero)
      (pointAt (.integer 7 (by decide))) :=
    .here (i := 1) (f := .of "y" .integer) (w := number (.integer 7 (by decide))) rfl (by decide)
  exact ⟨(project_agreeing wellFormed_centerX).1 _ _ hagrees,
    (project_agreeing wellFormed_pointX).2 _ _ hchange⟩

end Value

end FieldMask
