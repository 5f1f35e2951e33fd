import FieldMask.Proofs.IncludedPaths
import FieldMask.Proofs.NamingRoundTrip

/-!
# Binding and the algebra of selections

Selections by name and selections of a record have operations of the same names, which are defined
apart. They do the same where every name is one that a record declares: to combine two selections
by name and to bind the result is to bind them and to combine what they are bound to.

An open selection is the difference between the two. By name it stands for everything, and bound to
a record for its default fields, which have to be named before anything can be picked from them.

## Key results

- `ofNames_defined_iff`: what is bound, field by field
- `pick_of_open` / `contains_of_open` / `assign_of_open`: operations on an open selection
- `ofNames_pick`: what two selections have in common, and inclusion
- `ofNames_assign`: what either of two selections names
-/

namespace FieldMask

variable {reg : Registry}

/-- Neither a record nor any that is nested in it, at any depth, has marked fields. -/
def Schema.Unmarked (reg : Registry) (record : Schema) : Prop :=
  ∀ r, Schema.HasBelow reg record r → r.hasMarkers = false

/-- What lies below a nested record lies below the record. -/
theorem Schema.Unmarked.nested {record next : Schema} {i : Nat} {f : Field}
    (h : record.Unmarked reg) (hf : record.fields[i]? = some f) (hnext : f.record reg = some next) :
    next.Unmarked reg :=
  fun r hr => h r (.head (.of_field hf hnext) hr)

/-! ## Declared names -/

namespace NameSelection

mutual

/-- All that is named, at any depth, are fields of a record by the names that it declares. -/
def Declared (reg : Registry) (record : Schema) : NameSelection → Prop
  | undefined => True
  | defined fields => DeclaredEach reg record fields
termination_by structural s => s

/-- All entries of a map name fields of a record by the names that it declares. -/
def DeclaredEach {bound : Option String} (reg : Registry) (record : Schema) :
    Entries String NameSelection bound → Prop
  | .nil => True
  | .cons name child _ rest =>
    (∃ i f, record.lookup? name = some (i, f) ∧ f.name = name ∧
      ∀ r, f.record reg = some r → child.Declared reg r) ∧ DeclaredEach reg record rest
termination_by structural fields => fields

end

/-- All entries name declared fields exactly if each name does. -/
theorem declaredEach_iff {record : Schema} {bound : Option String}
    {fields : Entries String NameSelection bound} :
    DeclaredEach reg record fields ↔ ∀ name child, fields.get? name = some child →
      ∃ i f, record.lookup? name = some (i, f) ∧ f.name = name ∧
        ∀ r, f.record reg = some r → child.Declared reg r := by
  rw [← Entries.forall_mem_toList_iff]
  induction fields with
  | nil => simp [DeclaredEach]
  | cons name child above rest ih =>
    rw [DeclaredEach, ih, Entries.toList_cons, List.forall_mem_cons]

/-- Each name is the one of the field that it stands for. -/
def NamesFields (record : Schema) (fields : OrderedMap String NameSelection) : Prop :=
  ∀ name child, fields.get? name = some child →
    ∃ i f, record.lookup? name = some (i, f) ∧ f.name = name

/-- Only names that were there are left when fields are picked. -/
theorem NamesFields.pickFields {record : Schema} {fields query : OrderedMap String NameSelection}
    (h : NamesFields record fields) :
    NamesFields record (NameSelection.pickFields fields query) := by
  intro name child hchild
  rw [get?_pickFields] at hchild
  cases hget : fields.get? name with
  | none =>
    rw [hget] at hchild
    cases hchild
  | some current => exact h name current hget

/-- Every name that fields are assigned under is one of either map. -/
theorem NamesFields.assignFields {record : Schema} {fields other : OrderedMap String NameSelection}
    (h : NamesFields record fields) (h' : NamesFields record other) :
    NamesFields record (NameSelection.assignFields fields other) := by
  intro name child hchild
  rw [get?_assignFields] at hchild
  cases hget : fields.get? name with
  | some current => exact h name current hget
  | none =>
    cases hget' : other.get? name with
    | some child' => exact h' name child' hget'
    | none =>
      rw [hget, hget'] at hchild
      cases hchild

section Declared

variable {record : Schema} {fields : OrderedMap String NameSelection}
  (h : (defined fields).Declared reg record)

include h

/-- Declared names are those of the fields that they stand for. -/
theorem Declared.namesFields : NamesFields record fields := by
  intro name child hchild
  obtain ⟨i, f, hf, hname, -⟩ := declaredEach_iff.1 h name child hchild
  exact ⟨i, f, hf, hname⟩

/-- What is declared below a field is declared in its nested record. -/
theorem Declared.child {name : String} {child : NameSelection}
    (hchild : fields.get? name = some child) {i : Nat} {f : Field} {next : Schema}
    (hf : record.lookup? name = some (i, f)) (hnext : f.record reg = some next) :
    child.Declared reg next := by
  obtain ⟨j, g, hg, -, hnested⟩ := declaredEach_iff.1 h name child hchild
  cases hf.symm.trans hg
  -- A name stands for one field, so the nested record is the one that the entry was checked for.
  exact hnested next hnext

end Declared

end NameSelection

namespace RecordSelection

open NameSelection (NamesFields)

/-! ## Binding field by field -/

/-- What is named at a field by its name is bound to what is named there by its index. -/
inductive BindsAt (reg : Registry) (f : Field) :
    Option NameSelection → Option (Option RecordSelection) → Prop
  | absent : BindsAt reg f none none
  | leaf (plain : f.record reg = none) : BindsAt reg f (some .undefined) (some none)
  | nested {next : Schema} {sub : NameSelection} {child : RecordSelection}
      (nested : f.record reg = some next) (bind : ofNames reg next sub = .ok child) :
      BindsAt reg f (some sub) (some (some child))

/-- Named fields are bound to fields by index, one by one. -/
structure BindsFields (reg : Registry) (record : Schema)
    (fields : OrderedMap String NameSelection) (bound : OrderedMap Nat (Option RecordSelection)) :
    Prop where
  at_field : ∀ i f, record.lookup? f.name = some (i, f) →
    BindsAt reg f (fields.get? f.name) (bound.get? i)
  declared : ∀ i child, bound.get? i = some child → ∃ f, record.lookup? f.name = some (i, f)

/-- An entry of a map binds at the field that it is bound to. -/
theorem Binds.bindsAt {record : Schema} {i : Nat} {f : Field} {sub : NameSelection}
    {child : Option RecordSelection} (h : Binds reg record (f.name, sub) (i, child))
    (hf : record.lookup? f.name = some (i, f)) : BindsAt reg f (some sub) (some child) := by
  cases h with
  | leaf found plain =>
    cases hf.symm.trans found
    exact .leaf plain
  | nested found nested bind =>
    cases hf.symm.trans found
    exact .nested nested bind

/-- What binds at a field is an entry that can be bound. -/
theorem BindsAt.exists_binds {record : Schema} {i : Nat} {f : Field} {sub : NameSelection}
    {y : Option (Option RecordSelection)} (h : BindsAt reg f (some sub) y)
    (hf : record.lookup? f.name = some (i, f)) : ∃ q, Binds reg record (f.name, sub) q := by
  cases h with
  | leaf plain => exact ⟨_, .leaf hf plain⟩
  | nested nested bind => exact ⟨_, .nested hf nested bind⟩

/-- What is named at a field is bound in one way. -/
theorem BindsAt.unique {f : Field} {x : Option NameSelection}
    {y y' : Option (Option RecordSelection)} (h : BindsAt reg f x y) (h' : BindsAt reg f x y') :
    y = y' := by
  cases h with
  | absent =>
    cases h'
    rfl
  | leaf plain =>
    cases h' with
    | leaf plain' => rfl
    | nested nested bind => cases plain.symm.trans nested
  | nested nested bind =>
    cases h' with
    | leaf plain => cases plain.symm.trans nested
    | nested nested' bind' =>
      cases nested.symm.trans nested'
      cases bind.symm.trans bind'
      rfl

/-- Named fields are bound in one way. -/
theorem BindsFields.unique {record : Schema} {fields : OrderedMap String NameSelection}
    {bound bound' : OrderedMap Nat (Option RecordSelection)}
    (h : BindsFields reg record fields bound) (h' : BindsFields reg record fields bound') :
    bound = bound' := by
  -- An index that either map has is that of a declared field, and there both are bound alike.
  refine Entries.ext_get? fun i => ?_
  cases hget : bound.get? i with
  | some child =>
    obtain ⟨f, hf⟩ := h.declared i child hget
    rw [← hget, (h.at_field i f hf).unique (h'.at_field i f hf)]
  | none =>
    cases hget' : bound'.get? i with
    | none => rfl
    | some child =>
      obtain ⟨f, hf⟩ := h'.declared i child hget'
      rw [← hget, ← hget', (h.at_field i f hf).unique (h'.at_field i f hf)]

section Fields

variable {record : Schema} {fields : OrderedMap String NameSelection}

/-- A name that is bound is the name of the field that it is bound to. -/
theorem Binds.lookup_name (hnames : NamesFields record fields)
    {name : String} {sub : NameSelection} {i : Nat} {child : Option RecordSelection}
    (hsub : fields.get? name = some sub) (h : Binds reg record (name, sub) (i, child)) :
    ∃ f, record.lookup? f.name = some (i, f) ∧ f.name = name := by
  obtain ⟨j, f, hf, hname⟩ := hnames name sub hsub
  obtain ⟨g, hg⟩ := h.lookup
  cases hf.symm.trans hg
  exact ⟨f, hname ▸ hf, hname⟩

/-- What named fields are bound to. -/
theorem bindsFields_of_ofNames (hnames : NamesFields record fields)
    {bound : OrderedMap Nat (Option RecordSelection)}
    (h : ofNames reg record (.defined fields) = .ok (defined record bound)) :
    BindsFields reg record fields bound := by
  have hbinds : ∀ i child, bound.get? i = some child ↔ _ := fun i child => explicit?_ofNames h
  -- Two declared names of one field are the same.
  have hsame : ∀ {name sub i child f}, fields.get? name = some sub →
      Binds reg record (name, sub) (i, child) → record.lookup? f.name = some (i, f) →
        name = f.name := by
    intro name sub i child f hsub hbind hf
    obtain ⟨g, hg, rfl⟩ := hbind.lookup_name hnames hsub
    cases (Schema.getElem?_of_lookup? hf).symm.trans (Schema.getElem?_of_lookup? hg)
    rfl
  refine ⟨fun i f hf => ?_, fun i child hchild => ?_⟩
  · cases hsub : fields.get? f.name with
    | none =>
      -- Anything at the index would come from an entry of the same name, and there is none.
      have hnone : bound.get? i = none := by
        refine Option.eq_none_iff_forall_ne_some.2 fun child hchild => ?_
        obtain ⟨name, sub, hname, hbind, -⟩ := (hbinds i child).1 hchild
        rw [← hsame hname hbind hf] at hsub
        cases hsub.symm.trans hname
      rw [hnone]
      exact .absent
    | some sub =>
      obtain ⟨child, hbind⟩ := exists_binds_of_ofNames h hsub hf
      -- The entry of this name prevails: any other one for the index would have the same name.
      rw [(hbinds i child).2 ⟨f.name, sub, hsub, hbind, fun other sub' hother hindex => ?_⟩]
      · exact hbind.bindsAt hf
      · obtain ⟨j, g, hg, -⟩ := hnames other sub' hother
        obtain ⟨child', hbind'⟩ := exists_binds_of_ofNames h hother hg
        rw [hbind.indexOf?, hbind'.indexOf?] at hindex
        cases hindex
        exact Std.le_of_eq (hsame hother hbind' hf)
  · obtain ⟨name, sub, hsub, hbind, -⟩ := (hbinds i child).1 hchild
    obtain ⟨f, hf, -⟩ := hbind.lookup_name hnames hsub
    exact ⟨f, hf⟩

/-- Named fields that are all bound are bound together. -/
theorem exists_ofNames_of_binds {bound : Option String}
    {fields : Entries String NameSelection bound}
    (h : ∀ p ∈ fields.toList, ∃ q, Binds reg record p q) :
    ∃ found, ofNamesEach reg record fields = .ok (found, []) := by
  -- The entries that are bound are collected along the list of the map.
  obtain ⟨found, hfound⟩ : ∃ found, List.Forall₂ (Binds reg record) fields.toList found := by
    generalize fields.toList = named at h
    induction named with
    | nil => exact ⟨[], .nil⟩
    | cons p rest ih =>
      obtain ⟨q, hq⟩ := h p List.mem_cons_self
      obtain ⟨found, hfound⟩ := ih fun p' hp' => h p' (List.mem_cons_of_mem p hp')
      exact ⟨q :: found, .cons hq hfound⟩
  exact ⟨found, ofNamesEach_of_forall₂ hfound⟩

/-- Declared names are bound field by field. -/
theorem ofNames_defined_iff (hnames : NamesFields record fields)
    {bound : OrderedMap Nat (Option RecordSelection)} :
    ofNames reg record (.defined fields) = .ok (defined record bound) ↔
      BindsFields reg record fields bound := by
  refine ⟨bindsFields_of_ofNames hnames, fun h => ?_⟩
  have hnamed : ∀ p ∈ fields.toList, ∃ q, Binds reg record p q := by
    rintro ⟨name, sub⟩ hmem
    have hsub := Entries.mem_toList_iff_get?_eq_some.1 hmem
    obtain ⟨i, f, hf, rfl⟩ := hnames name sub hsub
    exact (hsub ▸ h.at_field i f hf).exists_binds hf
  obtain ⟨found, hfound⟩ := exists_ofNames_of_binds hnamed
  -- Binding field by field determines the map, so it is the one that binding gives.
  have hall : ofNames reg record (.defined fields) =
      .ok (defined record (Entries.ofList found)) := by
    rw [ofNames, hfound]
    rfl
  rw [hall, (bindsFields_of_ofNames hnames hall).unique h]

end Fields

/-! ## Operations on an open selection -/

/-- Without marked fields all fields are named by default, each in full. -/
theorem explicit?_ensureDefined_of_unmarked {record : Schema} (hmarkers : record.hasMarkers = false)
    {i : Nat} {f : Field} (hf : record.fields[i]? = some f) :
    ((undefined record).ensureDefined reg).explicit? i = some (fullChild reg f) := by
  have hdefault : record.isDefault f = true := by rw [Schema.isDefault, hmarkers]; rfl
  exact explicit?_ensureDefined_undefined (Schema.mem_defaultFields_iff.2 ⟨hf, hdefault⟩)

/-- What fits a field is fitted by nothing but the selection of its record that is left open. -/
theorem Fits.fullChild_eq {record : Schema} {i : Nat} {f : Field} {child : Option RecordSelection}
    (h : Fits reg record i child) (hf : record.fields[i]? = some f) :
    fullChild reg f = child.map fun c => undefined c.record := by
  obtain ⟨g, hg, hmap⟩ := h.suits
  cases hf.symm.trans hg
  rw [fullChild, ← hmap, Option.map_map]
  rfl

/-- Picking a selection from the open one of its record gives the selection. -/
theorem pick_of_open (u : RecordSelection) (hu : u.WellFormed reg)
    (hunmarked : u.record.Unmarked reg) : (undefined u.record).pick reg u = .ok u := by
  -- By induction on the picked selection: the open one has every field in full, with an open
  -- selection, from which the one below is picked.
  induction u using RecordSelection.induction with
  | undefined record =>
    have hsame : (undefined record).sameRecord (undefined record) = .ok () := sameRecord_eq rfl
    simp only [RecordSelection.record, pick, hsame]
    rfl
  | defined record fields ih =>
    obtain ⟨t, ht, -⟩ := pick_total (defined record fields) (undefined record) hu trivial rfl
    obtain ⟨picked, rfl, hpicked⟩ := pick_defined_eq_ok ht
    have heq : picked = fields := by
      refine Entries.ext_get? fun i => ?_
      have hi := hpicked i
      cases hget : fields.get? i with
      | none =>
        rw [hget, pickAt_none_right] at hi
        exact (Except.ok.inj hi).symm
      | some child =>
        have hfits : Fits reg record i child := hu.fits hget
        obtain ⟨f, hf, hmap⟩ := hfits.suits
        -- The field is named in full by the open selection, so below it the hypothesis is about the
        -- open selection of the nested record.
        rw [hget, explicit?_ensureDefined_of_unmarked (hunmarked record .refl) hf,
          hfits.fullChild_eq hf] at hi
        cases child with
        | none => exact (Except.ok.inj hi).symm
        | some c =>
          have hc := ih i c hget hfits.child (hunmarked.nested hf hmap.symm)
          rw [Option.map_some, pickAt, hc] at hi
          cases c <;> exact (Except.ok.inj hi).symm
    rw [show (defined record fields).record = record from rfl, ht, heq]
    rfl

/-- The open selection of a record contains all selections of it. -/
theorem contains_of_open (u : RecordSelection) (hu : u.WellFormed reg)
    (hunmarked : u.record.Unmarked reg) : (undefined u.record).contains reg u = true := by
  induction u using RecordSelection.induction with
  | undefined record => simp [RecordSelection.record, contains, isUndefined]
  | defined record fields ih =>
    -- What is asked for at a field is contained in the open selection that stands for it.
    refine contains_defined_iff.2 fun i => ?_
    cases hget : fields.get? i with
    | none => exact containsAt_none_right _
    | some child =>
      have hfits : Fits reg record i child := hu.fits hget
      obtain ⟨f, hf, hmap⟩ := hfits.suits
      have hopen : (undefined record).WellFormed reg := trivial
      show containsAt reg ((undefined record).selectedAt reg i) (some child) = true
      rw [selectedAt_eq hopen, explicit?_ensureDefined_of_unmarked (hunmarked record .refl) hf,
        hfits.fullChild_eq hf]
      cases child with
      | none => rfl
      | some c =>
        have hc := ih i c hget hfits.child (hunmarked.nested hf hmap.symm)
        rw [Option.map_some, containsAt, hc, Bool.or_true]

/-- A defined selection, assigned to the open one of its record, replaces it. -/
theorem assign_of_open (u : RecordSelection) (hu : u.WellFormed reg)
    (hdefined : u.isUndefined = false) : (undefined u.record).assign reg u = .ok u := by
  cases u with
  | undefined record => cases hdefined
  | defined record fields =>
    obtain ⟨t, ht, -⟩ := assign_total (defined record fields) (undefined record) hu trivial rfl
    obtain ⟨merged, rfl, hmerged⟩ := assign_defined_eq_ok ht
    -- The open selection names nothing, so at every index only the other one counts.
    have heq : merged = fields := by
      refine Entries.ext_get? fun i => ?_
      have hi : assignAt reg none (fields.get? i) = .ok (merged.get? i) := hmerged i
      rcases hget : fields.get? i with _ | child <;> rw [hget] at hi <;>
        exact (Except.ok.inj hi).symm
    rw [show (defined record fields).record = record from rfl, ht, heq]
    rfl

/-- Without marked fields, picking an open selection changes nothing. -/
theorem pick_undefined_eq_self {t : RecordSelection} (ht : t.WellFormed reg)
    (hmarkers : t.record.hasMarkers = false) : t.pick reg (undefined t.record) = .ok t := by
  have hsame : t.sameRecord (undefined t.record) = .ok () := sameRecord_eq rfl
  cases t with
  | undefined record =>
    simp only [RecordSelection.record] at hsame
    simp only [RecordSelection.record, pick, hsame]
    rfl
  | defined record fields =>
    simp only [RecordSelection.record] at hsame hmarkers
    simp only [RecordSelection.record, pick, hsame]
    -- Every field that is named is one that is selected by default.
    rw [List.filter_eq_self.2 ?_, Entries.ofList_of_perm (.refl fields.toList)]
    · rfl
    · intro p hmem
      obtain ⟨i, child⟩ := p
      have hfits : Fits reg record i child := ht.fits (Entries.mem_toList_iff_get?_eq_some.1 hmem)
      obtain ⟨f, hf, -⟩ := hfits.suits
      simp only [hf, Schema.isDefault, hmarkers]
      rfl

/-! ## Two selections at one field -/

section BindsAt

variable {f : Field} {x x' : Option NameSelection} {y y' z : Option (Option RecordSelection)}
  (h : BindsAt reg f x y) (h' : BindsAt reg f x' y')

include h h'

/-- Inclusion at a field is the same before and after binding if it is below the field. -/
theorem BindsAt.containsAt
    (below : ∀ next sub sub' c c', f.record reg = some next → x = some sub → x' = some sub' →
      ofNames reg next sub = .ok c → ofNames reg next sub' = .ok c' → sub'.isUndefined = false →
      sub.contains sub' = c.contains reg c') :
    NameSelection.containsAt x x' = RecordSelection.containsAt reg y y' := by
  -- The two kinds of names go together: a leaf with a leaf, a nested one with a nested one. A field
  -- that is both cannot be.
  cases h' with
  | absent => cases h <;> rfl
  | leaf plain' =>
    cases h with
    | absent => rfl
    | leaf plain => rfl
    | nested nested bind => cases plain'.symm.trans nested
  | @nested next sub' c' nested' bind' =>
    cases h with
    | absent => rfl
    | leaf plain => cases plain.symm.trans nested'
    | @nested _ sub c nested bind =>
      cases nested.symm.trans nested'
      -- An open query below is contained in any selection, before and after binding.
      rw [NameSelection.containsAt, RecordSelection.containsAt, isUndefined_of_ofNames bind']
      cases sub' with
      | undefined => rfl
      | defined fields => exact below next sub _ c c' nested rfl rfl bind bind' rfl

/-- Picking at a field commutes with binding if it does below the field. -/
theorem BindsAt.pickAt (hz : RecordSelection.pickAt reg y y' = .ok z)
    (below : ∀ next sub sub' c c', f.record reg = some next → x = some sub → x' = some sub' →
      ofNames reg next sub = .ok c → ofNames reg next sub' = .ok c' →
      ∃ p, ofNames reg next (sub.pick sub') = .ok p ∧ c.pick reg c' = .ok p) :
    BindsAt reg f (NameSelection.pickAt x x') z := by
  cases h' with
  | absent =>
    rw [pickAt_none_right] at hz
    cases hz
    cases x <;> exact .absent
  | leaf plain' =>
    cases h with
    | absent =>
      cases hz
      exact .absent
    | leaf plain =>
      cases hz
      exact .leaf plain
    | nested nested bind => cases plain'.symm.trans nested
  | @nested next sub' c' nested' bind' =>
    cases h with
    | absent =>
      cases hz
      exact .absent
    | leaf plain => cases plain.symm.trans nested'
    | @nested _ sub c nested bind =>
      -- What is nested at the field is of one record, so that the two selections below can be
      -- compared.
      cases nested.symm.trans nested'
      rw [RecordSelection.pickAt, isUndefined_of_ofNames bind'] at hz
      cases sub' with
      | undefined =>
        cases hz
        exact .nested nested bind
      | defined fields =>
        obtain ⟨p, hp, hpick⟩ := below next sub _ c c' nested rfl rfl bind bind'
        rw [hpick] at hz
        cases hz
        exact .nested nested hp

/-- Putting together what is named at a field commutes with binding if it does below the field for
    two selections that are defined there. -/
theorem BindsAt.assignAt (hz : RecordSelection.assignAt reg y y' = .ok z)
    (below : ∀ next sub sub' c c', f.record reg = some next → x = some sub → x' = some sub' →
      ofNames reg next sub = .ok c → ofNames reg next sub' = .ok c' → sub.isUndefined = false →
      sub'.isUndefined = false →
      ∃ merged, ofNames reg next (sub.assign sub') = .ok merged ∧ c.assign reg c' = .ok merged) :
    BindsAt reg f (NameSelection.assignAt x x') z := by
  cases h' with
  | absent =>
    rw [assignAt_none_right] at hz
    cases hz
    cases x <;> exact h
  | leaf plain' =>
    cases h with
    | absent =>
      cases hz
      exact .leaf plain'
    | leaf plain =>
      cases hz
      exact .leaf plain
    | nested nested bind => cases plain'.symm.trans nested
  | @nested next sub' c' nested' bind' =>
    cases h with
    | absent =>
      cases hz
      exact .nested nested' bind'
    | leaf plain => cases plain.symm.trans nested'
    -- Below the field an open selection gives way to the other one, before and after binding alike.
    | @nested _ sub c nested bind =>
      cases nested.symm.trans nested'
      rw [RecordSelection.assignAt, RecordSelection.merge, isUndefined_of_ofNames bind,
        isUndefined_of_ofNames bind'] at hz
      cases sub' with
      | undefined =>
        cases hz
        exact .nested nested bind
      | defined fields' =>
        cases sub with
        | undefined =>
          cases hz
          exact .nested nested bind'
        | defined fields =>
          obtain ⟨merged, hmerged, hassign⟩ := below next _ _ c c' nested rfl rfl bind bind' rfl rfl
          simp only [NameSelection.isUndefined, Bool.false_eq_true, if_false, hassign] at hz
          cases hz
          exact .nested nested hmerged

end BindsAt

/-! ## Two selections that are bound -/

/-- A defined selection is bound field by field. -/
theorem exists_bindsFields {record : Schema} {fields : OrderedMap String NameSelection}
    {t : RecordSelection} (hnames : NamesFields record fields)
    (h : ofNames reg record (.defined fields) = .ok t) :
    ∃ bound, t = defined record bound ∧ BindsFields reg record fields bound := by
  obtain ⟨found, -, rfl⟩ := exists_of_ofNames_defined h
  exact ⟨_, rfl, bindsFields_of_ofNames hnames h⟩

/-- Inclusion is the same before and after binding, field by field. -/
theorem contains_eq_of_ofNames (q s : NameSelection) {record : Schema} {t u : RecordSelection}
    (hrecord : record.Unmarked reg) (hs : s.Declared reg record) (hq : q.Declared reg record)
    (ht : ofNames reg record s = .ok t) (hu : ofNames reg record q = .ok u)
    (hdefined : q.isUndefined = false) : s.contains q = t.contains reg u := by
  -- By induction on the query. An open receiver contains it, as the record has no marked fields.
  induction q using NameSelection.induction generalizing record s t u with
  | undefined => cases hdefined
  | defined query ih =>
    obtain ⟨-, hwell⟩ := ofNames_isOf _ record u hu
    obtain ⟨bound', rfl, hbinds'⟩ := exists_bindsFields hq.namesFields hu
    cases s with
    | undefined =>
      cases ht
      exact (contains_of_open (defined record bound') hwell hrecord).symm
    | defined fields =>
      obtain ⟨bound, rfl, hbinds⟩ := exists_bindsFields hs.namesFields ht
      -- At one field the two inclusions agree; what is below comes from the induction hypothesis.
      have hfield : ∀ i f, record.lookup? f.name = some (i, f) →
          NameSelection.containsAt (fields.get? f.name) (query.get? f.name) =
            containsAt reg ((defined record bound).selectedAt reg i) (bound'.get? i) := by
        intro i f hf
        rw [selectedAt_of_defined (ofNames_isOf _ record _ ht).2 rfl]
        refine (hbinds.at_field i f hf).containsAt (hbinds'.at_field i f hf) ?_
        intro next sub sub' c c' hnext hsub hsub' hc hc' hdefined'
        exact ih f.name sub' hsub' sub (hrecord.nested (Schema.getElem?_of_lookup? hf) hnext)
          (hs.child hsub hf hnext) (hq.child hsub' hf hnext) hc hc' hdefined'
      -- Indices and names are not the same, so the quantifiers are compared through the declared
      -- fields.
      have hnamed : (NameSelection.defined fields).contains (.defined query) = true ↔
          (defined record bound).contains reg (defined record bound') = true := by
        refine (NameSelection.contains_defined_iff fields query).trans
          (Iff.trans ?_ contains_defined_iff.symm)
        constructor
        · intro hall i
          cases hget : bound'.get? i with
          | none => exact containsAt_none_right _
          | some child =>
            obtain ⟨f, hf⟩ := hbinds'.declared i child hget
            rw [← hget, ← hfield i f hf]
            exact hall f.name
        · intro hall name
          cases hget : query.get? name with
          | none => exact NameSelection.containsAt_none_right _
          | some child =>
            obtain ⟨i, f, hf, rfl⟩ := hq.namesFields name child hget
            rw [← hget, hfield i f hf]
            exact hall i
      rwa [Bool.eq_iff_iff]

/-- Picking and then binding is binding and then picking, field by field. -/
theorem exists_pick_of_ofNames (q s : NameSelection) {record : Schema} {t u : RecordSelection}
    (hrecord : record.Unmarked reg) (hs : s.Declared reg record) (hq : q.Declared reg record)
    (ht : ofNames reg record s = .ok t) (hu : ofNames reg record q = .ok u) :
    ∃ p, ofNames reg record (s.pick q) = .ok p ∧ t.pick reg u = .ok p := by
  -- By induction on the query; what is picked is compared at each field, with what is bound there.
  induction q using NameSelection.induction generalizing record s t u with
  | undefined =>
    cases hu
    obtain ⟨rfl, hwell⟩ := ofNames_isOf s record t ht
    exact ⟨t, ht, pick_undefined_eq_self hwell (hrecord t.record .refl)⟩
  | defined query ih =>
    obtain ⟨-, hwell⟩ := ofNames_isOf _ record u hu
    obtain ⟨bound', rfl, hbinds'⟩ := exists_bindsFields hq.namesFields hu
    cases s with
    | undefined =>
      cases ht
      exact ⟨_, hu, pick_of_open (defined record bound') hwell hrecord⟩
    | defined fields =>
      obtain ⟨-, hwell'⟩ := ofNames_isOf _ record t ht
      obtain ⟨bound, rfl, hbinds⟩ := exists_bindsFields hs.namesFields ht
      obtain ⟨p, hp, -⟩ :=
        pick_total (defined record bound') (defined record bound) hwell hwell' rfl
      obtain ⟨picked, rfl, hpicked⟩ := pick_defined_eq_ok hp
      refine ⟨_, (ofNames_defined_iff hs.namesFields.pickFields).2 ⟨?_, ?_⟩, hp⟩
      · intro i f hf
        rw [NameSelection.get?_pickFields]
        refine (hbinds.at_field i f hf).pickAt (hbinds'.at_field i f hf) (hpicked i) ?_
        intro next sub sub' c c' hnext hsub hsub' hc hc'
        exact ih f.name sub' hsub' sub (hrecord.nested (Schema.getElem?_of_lookup? hf) hnext)
          (hs.child hsub hf hnext) (hq.child hsub' hf hnext) hc hc'
      -- Every index of what is picked is one of the receiver.
      · intro i child hchild
        have hi : pickAt reg (bound.get? i) (bound'.get? i) = .ok (picked.get? i) := hpicked i
        cases hget : bound.get? i with
        | none =>
          rw [hget, hchild] at hi
          cases hi
        | some current => exact hbinds.declared i current hget

end RecordSelection

/-! ### Selections of a record that refers to itself -/

/-- A selection of an id and of a parent in full. -/
def NameSelection.idAndParent : NameSelection := undefined.add ["id", "parent"]

/-- A selection of the id of a parent. -/
def NameSelection.idOfParent : NameSelection := empty.set "parent" (undefined.add ["id"])

theorem Schema.unmarked_node : Schema.node.Unmarked Registry.ofNode := fun _ hr =>
  Schema.Everywhere.of_hasBelow (P := fun r => r.hasMarkers = false)
    (Registry.everywhere_ofNode rfl) (Schema.everywhere_node rfl) hr

theorem NameSelection.declared_idAndParent :
    idAndParent.Declared Registry.ofNode Schema.node :=
  ⟨⟨0, _, rfl, rfl, fun _ _ => trivial⟩, ⟨2, _, rfl, rfl, fun _ _ => trivial⟩, trivial⟩

theorem NameSelection.declared_idOfParent : idOfParent.Declared Registry.ofNode Schema.node := by
  refine ⟨⟨2, _, rfl, rfl, fun r hr => ?_⟩, trivial⟩
  cases hr
  exact ⟨⟨0, _, rfl, rfl, fun _ _ => trivial⟩, trivial⟩

namespace RecordSelection

/-- The id of a node, and its parent in full. -/
def idAndParentOfNode : RecordSelection :=
  (empty Schema.node).put 2 (some (undefined Schema.node)) |>.put 0 none

/-- The id of the parent of a node. -/
def idOfParentOfNode : RecordSelection :=
  (empty Schema.node).put 2 (some ((empty Schema.node).put 0 none))

theorem ofNames_idAndParent :
    ofNames Registry.ofNode Schema.node NameSelection.idAndParent = .ok idAndParentOfNode := by
  rfl

theorem ofNames_idOfParent :
    ofNames Registry.ofNode Schema.node NameSelection.idOfParent = .ok idOfParentOfNode := by
  rfl

/-! ## The algebra before and after binding -/

/-- Without marked fields, what two selections have in common is bound to what the selections that
    they are bound to have in common, and a defined one of them is contained in the other before and
    after binding. -/
theorem ofNames_pick {record : Schema} (hrecord : record.Unmarked reg) {s q : NameSelection}
    (hs : s.Declared reg record) (hq : q.Declared reg record) {t u : RecordSelection}
    (ht : ofNames reg record s = .ok t) (hu : ofNames reg record q = .ok u) :
    (∃ p, ofNames reg record (s.pick q) = .ok p ∧ t.pick reg u = .ok p) ∧
      (q.isUndefined = false → s.contains q = t.contains reg u) :=
  ⟨exists_pick_of_ofNames q s hrecord hs hq ht hu,
    contains_eq_of_ofNames q s hrecord hs hq ht hu⟩

/-- The id of the parent is picked from a parent in full, before and after binding. -/
theorem ofNames_pick_idOfParent :
    (∃ p, ofNames Registry.ofNode Schema.node
        (NameSelection.idAndParent.pick NameSelection.idOfParent) = .ok p ∧
      idAndParentOfNode.pick Registry.ofNode idOfParentOfNode = .ok p) ∧
    NameSelection.idAndParent.contains NameSelection.idOfParent =
      idAndParentOfNode.contains Registry.ofNode idOfParentOfNode := by
  obtain ⟨hpick, hcontains⟩ := ofNames_pick Schema.unmarked_node NameSelection.declared_idAndParent
    NameSelection.declared_idOfParent ofNames_idAndParent ofNames_idOfParent
  exact ⟨hpick, hcontains rfl⟩

/-- Assigning a defined selection and then binding is binding and then assigning it. The exception
    is an open selection to which the selection of no field is assigned: by name it stays open,
    where that of a record selects nothing any more. -/
theorem ofNames_assign (o s : NameSelection) {record : Schema} {t u : RecordSelection}
    (hs : s.Declared reg record) (ho : o.Declared reg record)
    (ht : ofNames reg record s = .ok t) (hu : ofNames reg record o = .ok u)
    (hdefined : o.isUndefined = false) :
    ∃ merged, t.assign reg u = .ok merged ∧ ofNames reg record (s.assign o) =
      .ok (if s.isUndefined ∧ o.isEmpty then undefined record else merged) := by
  -- By induction on the other selection; the result is compared at each field.
  induction o using NameSelection.induction generalizing record s t u with
  | undefined => cases hdefined
  | defined other ih =>
    obtain ⟨-, hwell⟩ := ofNames_isOf _ record u hu
    obtain ⟨bound', rfl, hbinds'⟩ := exists_bindsFields ho.namesFields hu
    cases s with
    | undefined =>
      cases ht
      refine ⟨_, assign_of_open (defined record bound') hwell rfl, ?_⟩
      -- By name an open selection stays open if nothing is assigned to it.
      rw [NameSelection.assign]
      split
      · rename_i hempty
        rw [if_pos ⟨rfl, hempty⟩]
        rfl
      · rename_i hempty
        rw [if_neg fun h => hempty h.2, hu]
    | defined fields =>
      obtain ⟨-, hwell'⟩ := ofNames_isOf _ record t ht
      obtain ⟨bound, rfl, hbinds⟩ := exists_bindsFields hs.namesFields ht
      obtain ⟨p, hp, -⟩ :=
        assign_total (defined record bound') (defined record bound) hwell hwell' rfl
      obtain ⟨merged, rfl, hmerged⟩ := assign_defined_eq_ok hp
      refine ⟨_, hp, ?_⟩
      rw [if_neg fun h => Bool.false_ne_true h.1]
      refine (ofNames_defined_iff (hs.namesFields.assignFields ho.namesFields)).2 ⟨?_, ?_⟩
      · intro i f hf
        rw [NameSelection.get?_assignFields]
        refine (hbinds.at_field i f hf).assignAt (hbinds'.at_field i f hf) (hmerged i) ?_
        intro next sub sub' c c' hnext hsub hsub' hc hc' hdefined hdefined'
        obtain ⟨both, hboth, hbind⟩ := ih f.name sub' hsub' sub (hs.child hsub hf hnext)
          (ho.child hsub' hf hnext) hc hc' hdefined'
        -- Below a field, a defined selection is never taken for an open one.
        rw [if_neg fun h => Bool.false_ne_true (hdefined.symm.trans h.1)] at hbind
        exact ⟨both, hbind, hboth⟩
      -- Every index of the result is one of either selection.
      · intro i child hchild
        have hi : assignAt reg (bound.get? i) (bound'.get? i) = .ok (merged.get? i) := hmerged i
        cases hget : bound.get? i with
        | some current => exact hbinds.declared i current hget
        | none =>
          cases hget' : bound'.get? i with
          | some child' => exact hbinds'.declared i child' hget'
          | none =>
            rw [hget, hget', hchild] at hi
            cases hi

/-- The id of the parent replaces a parent in full, before and after binding. -/
theorem ofNames_assign_idOfParent : ∃ merged,
    idAndParentOfNode.assign Registry.ofNode idOfParentOfNode = .ok merged ∧
      ofNames Registry.ofNode Schema.node
        (NameSelection.idAndParent.assign NameSelection.idOfParent) = .ok merged := by
  obtain ⟨merged, hassign, hbind⟩ := ofNames_assign NameSelection.idOfParent
    NameSelection.idAndParent NameSelection.declared_idAndParent NameSelection.declared_idOfParent
    ofNames_idAndParent ofNames_idOfParent rfl
  exact ⟨merged, hassign, by rwa [if_neg fun h => Bool.false_ne_true h.1] at hbind⟩

/-- Assigned to an open selection, the selection of no field leaves it open by name. Bound to a
    record first, it replaces it. -/
theorem ofNames_assign_empty_open :
    ofNames Registry.ofNode Schema.node (NameSelection.undefined.assign .empty) =
        .ok (undefined Schema.node) ∧
      (undefined Schema.node).assign Registry.ofNode (empty Schema.node) =
        .ok (empty Schema.node) ∧
      undefined Schema.node ≠ empty Schema.node := by
  refine ⟨rfl, rfl, ?_⟩
  intro h
  cases h

end RecordSelection

end FieldMask
