import FieldMask.Proofs.ExpressionRoundTrip
import FieldMask.Proofs.FieldwiseAlgebra
import FieldMask.Proofs.SchemaInvariant
import FieldMask.Proofs.SelectionInvariant
import FieldMask.RecordSelection.Binding
import FieldMask.RecordSelection.Printer

/-!
# Expressions and the selections of a record

The canonical expression of a selection of a record is parsed as a selection by name, and bound
back to the record it is the selection again. In between stands `byName`, the selection with the
names of its fields in place of their indices. Rendering goes by index and parsing by name, so that
the entries are met in two different orders.

## Key results

- `IsViewBy.readsAs_render`: an expression by any choice of names is read as the selection by these
- `readsAs_render_name`: the canonical expression is read as the selection by name
- `ofNamesEach_of_forall₂` / `ofNames_ofList`: binding names that are all declared
- `ofNames_byName`: bound to its record, the selection by name is the selection
- `ofQuery_expr`: rendering and binding are inverse
-/

namespace FieldMask.RecordSelection

variable {reg : Registry}

/-! ## From indices to names -/

mutual

/-- The selection with its fields given by name. -/
def byName : RecordSelection → NameSelection
  | undefined _ => .undefined
  | defined record fields => .defined (Entries.ofList (eachByName record fields))
termination_by structural s => s

/-- The names of fields, with their selections by name. -/
def eachByName {bound : Option Nat} (record : Schema) :
    Entries Nat (Option RecordSelection) bound → List (String × NameSelection)
  | .nil => []
  | .cons i child _ rest =>
    let nested := match child with
      | some c => c.byName
      | none => .undefined
    match record.fields[i]? with
    | some f => (f.name, nested) :: eachByName record rest
    | none => eachByName record rest
termination_by structural es => es

end

/-- The names that are chosen for fields, with what a view makes of their selections. -/
def namedBy (nameOf : Field → Option String) (view : RecordSelection → NameSelection)
    (record : Schema) {bound : Option Nat} (fields : Entries Nat (Option RecordSelection) bound) :
    List (String × NameSelection) :=
  fields.toList.filterMap fun p =>
    (record.fields[p.1]? >>= nameOf).map fun name => (name, p.2.elim .undefined view)

/-- The fields by name are those that are named, with their selections by name. -/
theorem eachByName_eq {record : Schema} {bound : Option Nat}
    (fields : Entries Nat (Option RecordSelection) bound) :
    eachByName record fields = namedBy (fun f => some f.name) byName record fields := by
  induction fields with
  | nil => rfl
  | cons i child above rest ih =>
    rw [namedBy, Entries.toList_cons, List.filterMap_cons, ← namedBy, ← ih]
    cases child <;> simp only [eachByName] <;> cases record.fields[i]? <;> rfl

/-! ## Rendering and views by name -/

/-- What is rendered of fields, in the order of their indices. -/
theorem renderEach_eq {nameOf : Field → Option String} {record : Schema} {bound : Option Nat}
    (fields : Entries Nat (Option RecordSelection) bound) :
    renderEach nameOf record fields = fields.toList.filterMap fun p =>
      (record.fields[p.1]? >>= nameOf).map fun name =>
        (name.toList, p.2.elim [] (render nameOf)) := by
  induction fields with
  | nil => rfl
  | cons i child above rest ih =>
    rw [Entries.toList_cons, List.filterMap_cons, ← ih]
    cases child <;> simp only [renderEach] <;> cases record.fields[i]? >>= nameOf <;> rfl

/-- A view shows selections by names that are chosen for the fields, and all of these names can be
    spelt. It need do so only where a condition holds that is passed on to nested selections. -/
structure IsViewBy (nameOf : Field → Option String) (view : RecordSelection → NameSelection)
    (P : RecordSelection → Prop) : Prop where
  undefined : ∀ record, view (undefined record) = .undefined
  defined : ∀ record fields, P (defined record fields) →
    view (defined record fields) = .defined (Entries.ofList (namedBy nameOf view record fields))
  names : ∀ s, P s → ∀ f ∈ s.record.fields, ∀ name, nameOf f = some name → IsName name.toList
  nested : ∀ s, P s → ∀ i c, s.explicit? i = some (some c) → P c

/-- The expression by the chosen names is read as the view. -/
theorem IsViewBy.readsAs_render {nameOf : Field → Option String}
    {view : RecordSelection → NameSelection} {P : RecordSelection → Prop}
    (h : IsViewBy nameOf view P) : ∀ s, P s → ReadsAs (s.render nameOf) (view s) := by
  -- By induction along the fields, whose texts are read as their views by the hypothesis.
  refine RecordSelection.induction (fun record _ => ?_) fun record fields ih hs => ?_
  · rw [h.undefined]
    exact .nothing
  · rw [h.defined record fields hs]
    refine readsAs_renderFields ?_
    rw [renderEach_eq]
    -- Both go through the same entries, and leave out the same ones.
    refine List.rel_filterMap (R := fun p q => p = q ∧ p ∈ fields.toList) ?_
      (List.forall₂_same.2 fun p hp => ⟨rfl, hp⟩)
    rintro ⟨i, child⟩ - ⟨rfl, hmem⟩
    show Option.Rel FieldReadsAs ((record.fields[i]? >>= nameOf).map _)
      ((record.fields[i]? >>= nameOf).map _)
    cases hname : record.fields[i]? >>= nameOf with
    | none => exact .none
    | some name =>
      obtain ⟨f, hf, hfname⟩ := Option.bind_eq_some_iff.1 hname
      have hspelt := h.names _ hs f (List.mem_of_getElem? hf) name hfname
      have htext : ReadsAs (child.elim [] (render nameOf)) (child.elim .undefined view) := by
        cases child with
        | none => exact .nothing
        | some c =>
          have hget : fields.get? i = some (some c) := Entries.mem_toList_iff_get?_eq_some.1 hmem
          exact ih i c hget (h.nested _ hs i c hget)
      have hfield := FieldReadsAs.mk hspelt htext
      rw [String.ofList_toList] at hfield
      exact .some hfield

/-- The selection by name is such a view, as builders have checked the names. -/
theorem isViewBy_byName (hreg : reg.Everywhere Schema.IsBuilt) :
    IsViewBy (fun f => some f.name) byName
      fun s => s.record.Everywhere Schema.IsBuilt ∧ s.WellFormed reg where
  undefined _ := rfl
  defined record fields _ := by rw [byName, eachByName_eq]
  names s hs f hf name hname := by
    cases hname
    exact ((Schema.isBuilt_iff.1 (Schema.everywhere_iff.1 hs.1).1).2.1 f hf).1
  nested s hs i c hget := by
    have hfits := hs.2.fits hget
    obtain ⟨f, hf, hmap⟩ := hfits.suits
    -- The nested record is declared within the record or registered, and so built as well.
    exact ⟨hs.1.record hreg (List.mem_of_getElem? hf) hmap.symm, hfits.child⟩

/-- The canonical expression is read as the selection by name. -/
theorem readsAs_render_name (hreg : reg.Everywhere Schema.IsBuilt) (s : RecordSelection)
    (hrecord : s.record.Everywhere Schema.IsBuilt) (hs : s.WellFormed reg) :
    ReadsAs (s.render fun f => some f.name) s.byName :=
  (isViewBy_byName hreg).readsAs_render s ⟨hrecord, hs⟩

/-! ## Binding declared names -/

/-- A name with its selection is bound to the index of a field with a selection that suits it. -/
inductive Binds (reg : Registry) (record : Schema) :
    String × NameSelection → Nat × Option RecordSelection → Prop
  | leaf {name : String} {i : Nat} {f : Field} (found : record.lookup? name = some (i, f))
      (plain : f.record reg = none) : Binds reg record (name, .undefined) (i, none)
  | nested {name : String} {i : Nat} {f : Field} {r : Schema} {named : NameSelection}
      {child : RecordSelection} (found : record.lookup? name = some (i, f))
      (nested : f.record reg = some r) (bind : ofNames reg r named = .ok child) :
      Binds reg record (name, named) (i, some child)

/-- Names that are all declared are bound in their order, and none is left over. -/
theorem ofNamesEach_of_forall₂ {record : Schema} {bound : Option String}
    {es : Entries String NameSelection bound} {entries : List (Nat × Option RecordSelection)}
    (h : List.Forall₂ (Binds reg record) es.toList entries) :
    ofNamesEach reg record es = .ok (entries, []) := by
  induction es generalizing entries with
  | nil =>
    cases h
    rfl
  | cons name child above rest ih =>
    rw [Entries.toList_cons] at h
    cases h with
    | cons hfirst hmore =>
      have hrest := ih hmore
      -- The name is declared, so that the names left over are those of the rest: none.
      cases hfirst with
      | leaf found plain =>
        simp only [ofNamesEach, found, plain, hrest]
        rfl
      | nested found nested bind =>
        simp only [ofNamesEach, found, nested, bind, hrest]
        rfl

/-- Names that are bound to different fields differ. -/
theorem nodup_names {record : Schema} {named : List (String × NameSelection)}
    {entries : List (Nat × Option RecordSelection)}
    (h : List.Forall₂ (Binds reg record) named entries)
    (hentries : (entries.map Prod.fst).Nodup) : (named.map Prod.fst).Nodup := by
  -- So different fields cannot be bound to one name.
  -- The field that a name is bound to depends on nothing but the name.
  have hindex : (named.map Prod.fst).map (fun name => (record.lookup? name).map Prod.fst) =
      (entries.map Prod.fst).map some := by
    clear hentries
    induction h with
    | nil => rfl
    | cons hfirst _ ih =>
      cases hfirst with
      | leaf found _ => simpa [found] using ih
      | nested found _ _ => simpa [found] using ih
  refine List.Nodup.of_map (fun name => (record.lookup? name).map Prod.fst) ?_
  rw [hindex]
  exact hentries.map fun _ _ => Option.some.inj

/-- Names that are bound to all entries of a selection, in any order, are bound to the selection. -/
theorem ofNames_ofList {record : Schema} {fields : OrderedMap Nat (Option RecordSelection)}
    {named : List (String × NameSelection)}
    (h : List.Forall₂ (Binds reg record) named fields.toList) :
    ofNames reg record (.defined (Entries.ofList named)) = .ok (defined record fields) := by
  have hnames := nodup_names h (Entries.nodup_keys fields)
  -- The names are bound in their own order, which need not be that of the indices.
  obtain ⟨entries, hbound, hperm⟩ :=
    List.perm_comp_forall₂ (Entries.toList_ofList_perm hnames) h
  -- None of them is left over, and their order does not matter for the map.
  rw [ofNames, ofNamesEach_of_forall₂ hbound, ← Entries.ofList_of_perm hperm]
  rfl

mutual

/-- Bound to its record, the selection by name is the selection. -/
theorem ofNames_byName (hreg : reg.Everywhere Schema.IsBuilt) :
    ∀ s : RecordSelection, s.record.Everywhere Schema.IsBuilt → s.WellFormed reg →
      ofNames reg s.record s.byName = .ok s
  | undefined _, _, _ => rfl
  | defined record fields, hrecord, hs => by
    have hbinds := forall₂_binds hreg record hrecord fields hs
    exact ofNames_ofList hbinds
termination_by structural s => s

/-- Entries by name are bound to the fields that they are the names of. -/
theorem forall₂_binds (hreg : reg.Everywhere Schema.IsBuilt) (record : Schema)
    (hrecord : record.Everywhere Schema.IsBuilt) {bound : Option Nat} :
    ∀ es : Entries Nat (Option RecordSelection) bound, WellFormedEach reg record es →
      List.Forall₂ (Binds reg record) (eachByName record es) es.toList
  | .nil, _ => .nil
  | .cons i none above rest, h => by
    obtain ⟨⟨f, hf, hmap⟩, -, hrest⟩ := h
    have hfound := Schema.lookup?_name (Schema.everywhere_iff.1 hrecord).1 hf
    have hmore := forall₂_binds hreg record hrecord rest hrest
    simp only [eachByName, hf]
    exact .cons (.leaf hfound hmap.symm) hmore
  | .cons i (some c) above rest, h => by
    obtain ⟨⟨f, hf, hmap⟩, hchild, hrest⟩ := h
    have hfound := Schema.lookup?_name (Schema.everywhere_iff.1 hrecord).1 hf
    have hnested : c.record.Everywhere Schema.IsBuilt :=
      hrecord.record hreg (List.mem_of_getElem? hf) hmap.symm
    -- The selection of the field is bound to its nested record, which has been built as well.
    have hbind := ofNames_byName hreg c hnested hchild
    have hmore := forall₂_binds hreg record hrecord rest hrest
    simp only [eachByName, hf]
    exact .cons (.nested hfound hmap.symm hbind) hmore
termination_by structural es => es

end

/-! ## The round trip -/

/-- Rendering and binding are inverse: bound to its record, the canonical expression of a
    well-formed selection is the selection. -/
theorem ofQuery_expr (hreg : reg.Everywhere Schema.IsBuilt) {s : RecordSelection}
    (hrecord : s.record.Everywhere Schema.IsBuilt) (hs : s.WellFormed reg) :
    ofQuery reg s.record (.expr s.expr) = .ok s := by
  -- Parsing gives the selection by name, and binding gives back what it is the names of.
  have hparse : NameSelection.parse s.expr = .ok s.byName := by
    rw [NameSelection.parse, expr, String.toList_ofList]
    exact parseChars_of_readsAs (readsAs_render_name hreg s hrecord hs)
  show (NameSelection.parse s.expr >>= fun named => ofNames reg s.record named) = .ok s
  rw [hparse]
  exact ofNames_byName hreg s hrecord hs

/-- The sample is bound from its canonical expression. -/
theorem ofQuery_expr_sampleOfNode :
    ofQuery Registry.ofNode Schema.node (.expr sampleOfNode.expr) = .ok sampleOfNode :=
  ofQuery_expr (Registry.everywhere_ofNode Schema.isBuilt_node)
    (Schema.everywhere_node Schema.isBuilt_node) wellFormed_sampleOfNode

end FieldMask.RecordSelection
