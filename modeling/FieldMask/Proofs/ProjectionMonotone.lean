import FieldMask.Proofs.DataOrder
import FieldMask.Proofs.ProjectionTotal
import FieldMask.Proofs.SchemaInvariant

/-!
# Projection is monotone

Of two selections of a record, one may select no path that the other does not. Then what it
projects is below what the other one projects: the same data with parts left out or `null`.

The two differ in which of them is left open, and so in the fields that are left out in place of
being `null`. What holds them together is that a field with nothing to show in the larger object
has nothing to show in the smaller one.

## Key results

- `RecordSelection.Narrows.child`: the selections of a field are narrower and wider too
- `project_below`: what the narrower selection projects is below what the wider one does
- `project_mono`: it does project what the wider one does
-/

namespace FieldMask

/-- No two fields have the same serialized name. -/
def Schema.NamesDistinct (s : Schema) : Prop := (s.fields.filterMap Field.json).Nodup

/-- Whether the serialized names of the fields differ can be decided. -/
instance {s : Schema} : Decidable s.NamesDistinct := inferInstanceAs (Decidable (List.Nodup _))

namespace RecordSelection

variable {reg : Registry}

/-- A path of indices is selected, step by step: each step is to a selected field, and goes on in
    the selection of the field. -/
def Includes (reg : Registry) (s : RecordSelection) : List Nat → Prop
  | [] => True
  | i :: rest => s.hasIndex i = true ∧
      (rest = [] ∨ ∃ child, s.fieldSelection reg i = .ok (some child) ∧ child.Includes reg rest)
termination_by structural path => path

/-- A selection selects no path that another one of the same record does not select. -/
structure Narrows (reg : Registry) (t s : RecordSelection) : Prop where
  narrower : t.WellFormed reg
  wider : s.WellFormed reg
  record : t.record = s.record
  distinct : s.record.Everywhere Schema.NamesDistinct
  includes : ∀ path, t.Includes reg path → s.Includes reg path

/-- Where no schema has markers, a selection that is left open selects every path that any other
    one of its record selects. -/
theorem includes_undefined (hreg : reg.Everywhere fun r => r.hasMarkers = false)
    {s : RecordSelection} (hrecord : s.record.Everywhere fun r => r.hasMarkers = false)
    (hs : s.WellFormed reg) (path : List Nat) (h : s.Includes reg path) :
    (undefined s.record).Includes reg path := by
  -- By induction on the path: without markers the field is a default field, of a record without
  -- any.
  induction path generalizing s with
  | nil => trivial
  | cons i rest ih =>
    obtain ⟨hi, hrest⟩ := h
    obtain ⟨f, hf⟩ := exists_field_of_hasIndex hi
    have hdefault : (undefined s.record).hasIndex i = true := by
      have hmarkers : s.record.hasMarkers = false := (Schema.everywhere_iff.1 hrecord).1
      rw [hasIndex, show (undefined s.record).record.fields[i]? = some f from hf]
      show (!s.record.hasMarkers || f.isMarked) = true
      rw [hmarkers]
      rfl
    refine ⟨hdefault, ?_⟩
    obtain hnil | ⟨child, hsel, hincludes⟩ := hrest
    · exact .inl hnil
    · -- The selection of the field is left open as well.
      rw [fieldSelection_eq hf] at hsel
      have hchild : s.selectionOf reg i f = some child := Except.ok.inj hsel
      obtain ⟨hmap, hwell⟩ := hs.selectionOf hf
      rw [hchild] at hmap
      have hnested := hrecord.record hreg (List.mem_of_getElem? hf) hmap.symm
      have hfull : (undefined s.record).selectionOf reg i f = some (undefined child.record) := by
        show (f.record reg).map undefined = _
        rw [← hmap]
        rfl
      refine .inr ⟨undefined child.record, ?_, ih hnested (hwell child hchild) hincludes⟩
      rw [fieldSelection_eq (s := undefined s.record) hf, hfull]

/-- A field that the narrower selection selects is selected by the wider one. -/
theorem Narrows.hasIndex {t s : RecordSelection} (h : Narrows reg t s) {i : Nat}
    (hi : t.hasIndex i = true) : s.hasIndex i = true :=
  (h.includes [i] ⟨hi, .inl rfl⟩).1

/-- The selections that the two have of a field are narrower and wider too. -/
theorem Narrows.child (hreg : reg.Everywhere Schema.NamesDistinct) {t s : RecordSelection}
    (h : Narrows reg t s) {i : Nat} {f : Field} (hf : s.record.fields[i]? = some f)
    (hi : t.hasIndex i = true) {r : Schema} (hr : f.record reg = some r) :
    ∃ c d, t.selectionOf reg i f = some c ∧ s.selectionOf reg i f = some d ∧ Narrows reg c d := by
  -- Both are of one record, so the field has a selection of the same nested record in each.
  have hft : t.record.fields[i]? = some f := h.record ▸ hf
  obtain ⟨htmap, hchild⟩ := h.narrower.selectionOf hft
  obtain ⟨hsmap, hchild'⟩ := h.wider.selectionOf hf
  rw [hr] at htmap hsmap
  obtain ⟨c, hc, hcr⟩ := Option.map_eq_some_iff.1 htmap
  obtain ⟨d, hd, hdr⟩ := Option.map_eq_some_iff.1 hsmap
  refine ⟨c, d, hc, hd, hchild c hc, hchild' d hd, hcr.trans hdr.symm, ?_, ?_⟩
  · rw [hdr]
    exact h.distinct.record hreg (List.mem_of_getElem? hf) hr
  · intro path hpath
    -- The path goes on from the field in both selections.
    have hboth : t.Includes reg (i :: path) :=
      ⟨hi, .inr ⟨c, by rw [fieldSelection_eq hft, hc], hpath⟩⟩
    obtain ⟨-, rfl | ⟨child, hsel, hincludes⟩⟩ := h.includes (i :: path) hboth
    · trivial
    · rw [fieldSelection_eq hf, hd] at hsel
      cases hsel
      exact hincludes

end RecordSelection

namespace Value

open RecordSelection (Narrows)

variable {reg : Registry}

/-- A field that is shown is shown under its serialized name. -/
theorem json_of_shownName? {s : RecordSelection} {i : Nat} {f : Field} {name : String}
    (h : shownName? s i f = some name) : f.json = some name :=
  (shownName?_eq_some_iff.1 h).2

/-- A field that is shown by the narrower selection is shown by the wider one. -/
theorem shownName?_of_narrows {t s : RecordSelection} (h : Narrows reg t s) {i : Nat} {f : Field}
    {name : String} (hname : shownName? t i f = some name) :
    t.hasIndex i = true ∧ shownName? s i f = some name := by
  obtain ⟨hi, hjson⟩ := shownName?_eq_some_iff.1 hname
  exact ⟨hi, shownName?_eq_some_iff.2 ⟨h.hasIndex hi, hjson⟩⟩

/-- What the narrower selection shows of a field is below what the wider one shows, if that is so
    of projecting the value of the field. -/
theorem shown_below (hreg : reg.Everywhere Schema.NamesDistinct) {t s : RecordSelection}
    (h : Narrows reg t s) {i : Nat} {f : Field} (hf : s.record.fields[i]? = some f)
    (hi : t.hasIndex i = true) {v : Value} (hv : v.HasType reg f.type)
    (hproject : ∀ c d : RecordSelection, Narrows reg c d → ∀ a b : Value,
      v.project reg c = .ok a → v.project reg d = .ok b → a.Below b) {a b : Value}
    (ha : shown reg t i f v = .ok a) (hb : shown reg s i f v = .ok b) : a.Below b := by
  have hgeneric : ∃ w, shown reg s i f v = .ok w ∧ w.Generic :=
    shown_total h.wider hf hv (project_total v hv.any) (projectAny_total v hv.any)
  rw [hb] at hgeneric
  obtain ⟨w, hw, hwg⟩ := hgeneric
  cases hw
  -- Unless the field has a nested record, both selections show the same.
  have hsame : shown reg t i f v = shown reg s i f v → a.Below b := by
    -- What the two show is the same value, and it is generic.
    intro heq
    rw [ha, hb] at heq
    cases heq
    exact Below.refl hwg
  by_cases hhollow : f.isHollow v = true
  · exact hsame (by rw [shown, shown, if_pos hhollow, if_pos hhollow])
  · by_cases hany : f.type.holdsAny = true
    · exact hsame (by rw [shown, shown, if_neg hhollow, if_neg hhollow, if_pos hany, if_pos hany])
    · rw [shown, if_neg hhollow, if_neg hany] at ha hb
      cases hr : f.record reg with
      | none =>
        rw [hr] at ha hb
        cases ha
        cases hb
        exact Below.refl hwg
      -- Only here the two selections of the field come in, and they are narrower and wider.
      | some r =>
        obtain ⟨c, d, hc, hd, hnarrows⟩ := h.child hreg hf hi hr
        simp only [hr, hc, hd, Option.getD_some] at ha hb
        exact hproject c d hnarrows a b ha hb

/-- Adding what is shown of a field leaves other names alone. -/
theorem get?_addShown {s : RecordSelection} {i : Nat} {f : Field} {v : Value}
    {before after : OrderedMap String Value} (h : addShown reg s i f v before = .ok after)
    {key : String} (hkey : f.json ≠ some key) : after.get? key = before.get? key := by
  obtain ⟨-, rfl⟩ | ⟨name, part, hname, -, rfl⟩ := addShown_eq_ok h
  · rfl
  · rw [json_of_shownName? hname] at hkey
    rw [get?_addProjected, if_neg fun heq => hkey (congrArg some heq)]

/-- A field that has not been added yet may be added on both sides. -/
theorem addShown_below {t s : RecordSelection} (h : Narrows reg t s) {i : Nat} {f : Field}
    {v : Value} {before before' as bs : OrderedMap String Value}
    (hbelow : EntriesBelow before before') (hnew : ∀ name ∈ f.json, before.get? name = none)
    (hshown : t.hasIndex i = true → ∀ a b : Value, shown reg t i f v = .ok a →
      shown reg s i f v = .ok b → a.Below b)
    (has : addShown reg t i f v before = .ok as) (hbs : addShown reg s i f v before' = .ok bs) :
    EntriesBelow as bs := by
  rw [addShown] at has hbs
  -- By what each of the two selections shows; the narrower one shows no field that the other does
  -- not.
  cases hs : shownName? s i f with
  | none =>
    cases ht : shownName? t i f with
    | none =>
      rw [ht] at has
      rw [hs] at hbs
      cases has
      cases hbs
      exact hbelow
    | some name =>
      rw [(shownName?_of_narrows h ht).2] at hs
      cases hs
  | some name =>
    rw [hs] at hbs
    obtain ⟨b, hb, hbs⟩ := bind_eq_ok_iff.1 hbs
    cases hbs
    have hfirst : before.get? name = none := hnew name (json_of_shownName? hs)
    cases ht : shownName? t i f with
    | none =>
      -- Only the wider selection shows the field.
      rw [ht] at has
      cases has
      exact hbelow.addProjected_right hfirst _ b
    | some name' =>
      -- Both show it, under the one name that it has.
      obtain ⟨hi, hs'⟩ := shownName?_of_narrows h ht
      rw [hs] at hs'
      cases hs'
      rw [ht] at has
      obtain ⟨a, ha, has⟩ := bind_eq_ok_iff.1 has
      cases has
      have hab := hshown hi a b (within_eq_ok_iff.1 ha) (within_eq_ok_iff.1 hb)
      exact hbelow.addProjected hfirst hab _ _

mutual

/-- What the narrower selection projects is below what the wider one projects. -/
theorem project_below (hreg : reg.Everywhere Schema.NamesDistinct) :
    ∀ v : Value, v.HasType reg .any → ∀ t s : RecordSelection, Narrows reg t s →
      ∀ a b : Value, v.project reg t = .ok a → v.project reg s = .ok b → a.Below b
  | .null, _, _, _, _, _, _, ha, _ => by
    cases ha
    trivial
  | .ref target, hv, t, s, h, a, b, ha, hb => project_below hreg target hv t s h a b ha hb
  | .bool _, _, _, _, _, _, _, ha, _ => nomatch ha
  | .number _, _, _, _, _, _, _, ha, _ => nomatch ha
  | .string _, _, _, _, _, _, _, ha, _ => nomatch ha
  | .array items, hv, t, s, h, a, b, ha, hb => by
    obtain ⟨as, has, haa⟩ := bind_eq_ok_iff.1 ha
    obtain ⟨bs, hbs, hbb⟩ := bind_eq_ok_iff.1 hb
    cases haa
    cases hbb
    exact projectItems_below hreg items hv.items t s h 0 as bs has hbs
  | .object entries, hv, t, s, h, a, b, ha, hb => by
    obtain ⟨as, has, haa⟩ := bind_eq_ok_iff.1 ha
    obtain ⟨bs, hbs, hbb⟩ := bind_eq_ok_iff.1 hb
    cases haa
    cases hbb
    exact entriesBelow_iff.2 (projectEntries_below hreg entries hv.entries t s h as bs has hbs)
  | .record schema values, hv, t, s, h, a, b, ha, hb => by
    rw [project] at ha hb
    split at hb
    · rename_i hschema
      rw [if_pos (hschema.trans h.record.symm)] at ha
      obtain ⟨as, has, haa⟩ := bind_eq_ok_iff.1 ha
      obtain ⟨bs, hbs, hbb⟩ := bind_eq_ok_iff.1 hb
      cases haa
      cases hbb
      -- Records are of the selections, and their fields have different names, so none is added
      -- twice.
      have hfields : ∀ p ∈ schema.fields.zipIdx, s.record.fields[p.2]? = some p.1 :=
        fun p hp => hschema ▸ List.mem_zipIdx_iff_getElem?.1 hp
      have hnames : ((schema.fields.zipIdx.map Prod.fst).filterMap Field.json).Nodup := by
        rw [List.zipIdx_map_fst, hschema]
        exact (Schema.everywhere_iff.1 h.distinct).1
      exact projectFields_below hreg values schema.fields.zipIdx hv.zipIdx t s h hfields hnames
        .nil .nil trivial (fun name _ => rfl) as bs has hbs
    · cases hb
termination_by structural v => v

/-- So it is with items, one by one. -/
theorem projectItems_below (hreg : reg.Everywhere Schema.NamesDistinct) :
    ∀ l : List Value, ItemsHaveType reg l .any → ∀ t s : RecordSelection, Narrows reg t s →
      ∀ (index : Nat) (as bs : List Value), projectItems reg t index l = .ok as →
        projectItems reg s index l = .ok bs → ItemsBelow as bs
  | [], _, _, _, _, _, _, _, has, hbs => by
    cases has
    cases hbs
    rfl
  | v :: rest, hv, t, s, h, index, as, bs, has, hbs => by
    obtain ⟨a, ha, hamore⟩ := bind_eq_ok_iff.1 has
    obtain ⟨as', has', haa⟩ := bind_eq_ok_iff.1 hamore
    obtain ⟨b, hb, hbmore⟩ := bind_eq_ok_iff.1 hbs
    obtain ⟨bs', hbs', hbb⟩ := bind_eq_ok_iff.1 hbmore
    cases haa
    cases hbb
    exact ⟨project_below hreg v hv.1 t s h a b (within_eq_ok_iff.1 ha) (within_eq_ok_iff.1 hb),
      projectItems_below hreg rest hv.2 t s h (index + 1) as' bs' has' hbs'⟩
termination_by structural l => l

/-- So it is with the values of maps, under the same keys. -/
theorem projectEntries_below (hreg : reg.Everywhere Schema.NamesDistinct) {bound : Option String} :
    ∀ m : Entries String Value bound, EntriesHaveType reg m .any →
      ∀ t s : RecordSelection, Narrows reg t s → ∀ as bs : Entries String Value bound,
        projectEntries reg t m = .ok as → projectEntries reg s m = .ok bs →
          ∀ key v, as.get? key = some v → v.Below ((bs.get? key).getD null)
  | .nil, _, _, _, _, _, _, has, _ => by
    cases has
    intro key v hget
    cases hget
  | .cons name v above rest, hv, t, s, h, as, bs, has, hbs => by
    obtain ⟨a, ha, hamore⟩ := bind_eq_ok_iff.1 has
    obtain ⟨as', has', haa⟩ := bind_eq_ok_iff.1 hamore
    obtain ⟨b, hb, hbmore⟩ := bind_eq_ok_iff.1 hbs
    obtain ⟨bs', hbs', hbb⟩ := bind_eq_ok_iff.1 hbmore
    cases haa
    cases hbb
    intro key w hget
    rw [Entries.get?_cons] at hget ⊢
    -- At the key of the first entry the first values are compared, and elsewhere the others.
    by_cases hkey : name = key
    · rw [if_pos hkey] at hget ⊢
      cases hget
      exact project_below hreg v hv.1 t s h a b (within_eq_ok_iff.1 ha) (within_eq_ok_iff.1 hb)
    · rw [if_neg hkey] at hget ⊢
      exact projectEntries_below hreg rest hv.2 t s h as' bs' has' hbs' key w hget
termination_by structural m => m

/-- So it is with the fields of a record, which are added to objects that are below one another. -/
theorem projectFields_below (hreg : reg.Everywhere Schema.NamesDistinct) :
    ∀ values : List Value, ∀ fields : List (Field × Nat),
      FieldsHaveTypes reg values (fields.map Prod.fst) →
      ∀ t s : RecordSelection, Narrows reg t s →
      (∀ p ∈ fields, s.record.fields[p.2]? = some p.1) →
      ((fields.map Prod.fst).filterMap Field.json).Nodup →
      ∀ before before' : OrderedMap String Value, EntriesBelow before before' →
      (∀ name ∈ (fields.map Prod.fst).filterMap Field.json, before.get? name = none) →
      ∀ as bs : OrderedMap String Value, projectFields reg t before fields values = .ok as →
        projectFields reg s before' fields values = .ok bs → EntriesBelow as bs
  | [], _, _, _, _, _, _, _, before, before', hbelow, _, as, bs, has, hbs => by
    cases has
    cases hbs
    exact hbelow
  | _ :: _, [], hv, _, _, _, _, _, _, _, _, _, _, _, _, _ => nomatch hv
  | v :: values, (f, i) :: fields, hv, t, s, h, hfields, hnames, before, before', hbelow, hnew, as,
      bs, has, hbs => by
    obtain ⟨hf, hmore⟩ := List.forall_mem_cons.1 hfields
    have hsub : ((fields.map Prod.fst).filterMap Field.json).Sublist
        ((((f, i) :: fields).map Prod.fst).filterMap Field.json) :=
      (List.sublist_cons_self f (fields.map Prod.fst)).filterMap Field.json
    have hfirst : ∀ name ∈ f.json, before.get? name = none := fun name hname =>
      hnew name (List.mem_filterMap.2 ⟨f, List.mem_cons_self, hname⟩)
    rw [projectFields_cons] at has hbs
    obtain ⟨as', has', has⟩ := bind_eq_ok_iff.1 has
    obtain ⟨bs', hbs', hbs⟩ := bind_eq_ok_iff.1 hbs
    have hbelow' : EntriesBelow as' bs' := addShown_below h hbelow hfirst
      (fun hi _ _ => shown_below hreg h hf hi hv.1 (project_below hreg v hv.1.any)) has' hbs'
    -- The names of later fields are still free.
    have hfree : ∀ name ∈ (fields.map Prod.fst).filterMap Field.json, as'.get? name = none := by
      intro name hname
      have hother : f.json ≠ some name := by
        intro hjson
        rw [List.map_cons, List.filterMap_cons_some hjson] at hnames
        exact (List.nodup_cons.1 hnames).1 hname
      rw [get?_addShown has' hother]
      exact hnew name (hsub.subset hname)
    exact projectFields_below hreg values fields hv.2 t s h hmore (hnames.sublist hsub) as' bs'
      hbelow' hfree as bs has hbs
termination_by structural values => values

end

/-- Projection is monotone. Where the wider of two well-formed selections of a record projects a
    well-typed value, the narrower one does so too, and what it yields is below. -/
theorem project_mono (hreg : reg.Everywhere Schema.NamesDistinct) {t s : RecordSelection}
    (hdistinct : s.record.Everywhere Schema.NamesDistinct) (hrecord : t.record = s.record)
    (ht : t.WellFormed reg) (hs : s.WellFormed reg)
    (hincludes : ∀ path, t.Includes reg path → s.Includes reg path) {v b : Value}
    (hv : v.HasType reg .any) (hb : v.project reg s = .ok b) :
    ∃ a, v.project reg t = .ok a ∧ a.Below b := by
  have hleaves : v.LeavesIn t.record := hrecord ▸ leavesIn_of_project hs hv hb
  obtain ⟨a, ha, -⟩ := project_total v hv t ht hleaves
  exact ⟨a, ha, project_below hreg v hv t s ⟨ht, hs, hrecord, hdistinct, hincludes⟩ a b ha hb⟩

/-- The fields of a node are serialized under different names. -/
theorem namesDistinct_node : Schema.node.NamesDistinct := by
  decide

/-- What the sample selects of a node is below what a selection that is left open does. -/
theorem project_mono_sampleOfNode :
    ∃ a b, inner.project Registry.ofNode RecordSelection.sampleOfNode = .ok a ∧
      inner.project Registry.ofNode (.undefined Schema.node) = .ok b ∧ a.Below b := by
  obtain ⟨b, hb, -⟩ := project_total inner hasType_inner (.undefined Schema.node) trivial rfl
  have hmarkers : Schema.node.hasMarkers = false := rfl
  have hincludes := RecordSelection.includes_undefined (Registry.everywhere_ofNode hmarkers)
    (Schema.everywhere_node hmarkers) RecordSelection.wellFormed_sampleOfNode
  obtain ⟨a, ha, hab⟩ := project_mono (t := RecordSelection.sampleOfNode)
    (s := .undefined Schema.node) (Registry.everywhere_ofNode namesDistinct_node)
    (Schema.everywhere_node namesDistinct_node) rfl RecordSelection.wellFormed_sampleOfNode trivial
    hincludes hasType_inner hb
  exact ⟨a, b, ha, hb, hab⟩

end Value

end FieldMask
