import FieldMask.Proofs.BindingAlgebra
import FieldMask.Proofs.NamingRoundTrip

/-!
# Expressions by serialized names

A selection of a record is turned into one by serialized names in two ways: at once, or by writing
the expression by serialized names and parsing it. Both leave out the fields that are not
serialized, and both are left with the empty selection where nothing else was selected. The one
goes through the fields by index and the other one by name, which is the same if no two fields of
a record share a serialized name.

The first way spells out what is left open below the root, if its record has marked fields. The
expression does not, so there the two differ.

## Key results

- `isViewBy_byJsonName`: the selection by serialized names shows what the expression names
- `parse_jsonExpr_eq_byJsonName`: the expression is parsed as the selection by serialized names
- `parse_jsonExpr_eq_toNames`: the two ways agree
-/

namespace FieldMask

variable {reg : Registry}

namespace RecordSelection

/-! ## Selections below a selection -/

/-- What a selection names is well-formed, and bound to a record that is nested in its own. -/
theorem WellFormed.of_holds {s c : RecordSelection} (hs : s.WellFormed reg) (hc : s.Holds c) :
    c.WellFormed reg ∧ Schema.Nests reg s.record c.record := by
  obtain ⟨i, hget⟩ := hc
  have hfits := hs.fits hget
  exact ⟨hfits.child, hfits.nests⟩

/-- So is what stands below a selection, at any depth. -/
theorem WellFormed.of_isBelow {s c : RecordSelection} (hs : s.WellFormed reg) (hc : c.IsBelow s) :
    c.WellFormed reg ∧ Schema.HasBelow reg s.record c.record := by
  -- Down along the chain of selections; each is nested in the record of the one above.
  induction hc with
  | single hholds =>
    obtain ⟨hwell, hnests⟩ := hs.of_holds hholds
    exact ⟨hwell, .single hnests⟩
  | tail _ hholds ih =>
    obtain ⟨hwell, hnests⟩ := ih.1.of_holds hholds
    exact ⟨hwell, ih.2.tail hnests⟩

/-- Without marked fields there is nothing to spell out. -/
theorem speltOut_of_unmarked {s : RecordSelection} (hs : s.WellFormed reg)
    (hrecord : s.record.Unmarked reg) : s.SpeltOut :=
  fun c hc _ => hrecord c.record (hs.of_isBelow hc).2

/-- Where there is nothing to spell out, a selection is only renamed. -/
theorem toNames_eq_byJsonName {s : RecordSelection} (hs : s.SpeltOut) :
    s.toNames reg = s.byJsonName := by
  rw [toNames, expandNested_eq_self reg s [] hs]

/-! ## Two ways to serialized names -/

/-- The selection by serialized names is a view by these, if in each record below they differ. -/
theorem isViewBy_byJsonName :
    IsViewBy Field.json byJsonName fun s => s.WellFormed reg ∧
      ∀ r, Schema.HasBelow reg s.record r → r.IsBuilt ∧ r.NamesDistinct where
  undefined _ := rfl
  defined record fields hs := by
    -- No two fields are merged.
    have hnames := nodup_eachByJsonName (hs.2 record .refl).2 fields
    rw [byJsonName, mergeByName_eq_ofList hnames, eachByJsonName_eq]
    rfl
  names s hs f hf name hname :=
    ((Schema.isBuilt_iff.1 (hs.2 s.record .refl).1).2.1 f hf).2 name hname
  -- The builder has checked that serialized names can be spelt.
  nested s hs i c hget := by
    obtain ⟨hwell, hnests⟩ := hs.1.of_holds ⟨i, hget⟩
    exact ⟨hwell, fun r hr => hs.2 r (.head hnests hr)⟩

/-- The expression by serialized names is parsed as the selection by serialized names. -/
theorem parse_jsonExpr_eq_byJsonName {s : RecordSelection} (hs : s.WellFormed reg)
    (hrecord : ∀ r, Schema.HasBelow reg s.record r → r.IsBuilt ∧ r.NamesDistinct) :
    NameSelection.parse s.jsonExpr = .ok s.byJsonName := by
  rw [NameSelection.parse, jsonExpr, String.toList_ofList]
  exact parseChars_of_readsAs (isViewBy_byJsonName.readsAs_render s ⟨hs, hrecord⟩)

/-- A well-formed selection becomes one by serialized names as if its expression by serialized names
    were parsed, with what is left open below its root spelt out. If there is nothing to spell out,
    its own expression is parsed as what it becomes. -/
theorem parse_jsonExpr_eq_toNames {t : RecordSelection} (ht : t.WellFormed reg)
    (hrecord : ∀ r, Schema.HasBelow reg t.record r → r.IsBuilt ∧ r.NamesDistinct) :
    NameSelection.parse (t.expandNested reg []).jsonExpr = .ok (t.toNames reg) ∧
      (t.SpeltOut → NameSelection.parse t.jsonExpr = .ok (t.toNames reg)) := by
  -- Spelling out keeps the record, and with it what is known about the records below.
  obtain ⟨hsame, hwell⟩ := expandNested_isOf t [] ht
  refine ⟨parse_jsonExpr_eq_byJsonName hwell (by rwa [hsame]), fun hspelt => ?_⟩
  rw [toNames_eq_byJsonName hspelt]
  exact parse_jsonExpr_eq_byJsonName ht hrecord

/-- The title of the sample is not serialized, its parent is left open, and no field of its children
    is selected, which the expression says with an empty pair of braces. -/
theorem parse_jsonExpr_eq_toNames_sampleOfNode :
    sampleOfNode.jsonExpr = "\x7b parent, children \x7b\x7d \x7d" ∧
      NameSelection.parse sampleOfNode.jsonExpr = .ok (sampleOfNode.toNames Registry.ofNode) := by
  -- The node and all that is nested in it are built, and no two of its fields share a serialized
  -- name.
  refine ⟨rfl, (parse_jsonExpr_eq_toNames wellFormed_sampleOfNode fun r hr => ?_).2 ?_⟩
  · exact Schema.Everywhere.of_hasBelow (P := fun r => r.IsBuilt ∧ r.NamesDistinct)
      (Registry.everywhere_ofNode ⟨Schema.isBuilt_node, Value.namesDistinct_node⟩)
      (Schema.everywhere_node ⟨Schema.isBuilt_node, Value.namesDistinct_node⟩) hr
  · exact speltOut_of_unmarked wellFormed_sampleOfNode Schema.unmarked_node

end RecordSelection

end FieldMask
