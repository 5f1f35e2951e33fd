import FieldMask.Proofs.SchemaInvariant
import FieldMask.RecordSelection.Basic

/-!
# Well-formed selections of a record

Every index that a selection names is one of a field of its record, and a field has a selection of
its own exactly if it has a nested record: a well-formed selection of that record.

## Key results

- `wellFormedEach_iff`: the entries of a map are well-formed one by one
- `WellFormed.selectionOf`: the selection of a field is well-formed and bound to the nested record
-/

namespace FieldMask.RecordSelection

variable {reg : Registry}

/-- A selection, or none, suits the field at an index: it is bound to the nested record of the
    field, and there is none if the field has no nested record. -/
def Suits (reg : Registry) (record : Schema) (index : Nat) (child : Option RecordSelection) :
    Prop :=
  ∃ f, record.fields[index]? = some f ∧ child.map RecordSelection.record = f.record reg

mutual

/-- A selection names fields of its record only, with selections that suit them. -/
def WellFormed (reg : Registry) : RecordSelection → Prop
  | undefined _ => True
  | defined record fields => WellFormedEach reg record fields
termination_by structural s => s

/-- The entries of a map are at fields of a record, with selections that suit them. -/
def WellFormedEach {bound : Option Nat} (reg : Registry) (record : Schema) :
    Entries Nat (Option RecordSelection) bound → Prop
  | .nil => True
  | .cons i child _ rest =>
    Suits reg record i child ∧
      (match child with
        | some c => c.WellFormed reg
        | none => True) ∧ WellFormedEach reg record rest
termination_by structural es => es

end

/-- The entries of a map are well-formed one by one. -/
theorem wellFormedEach_iff {record : Schema} {bound : Option Nat}
    {m : Entries Nat (Option RecordSelection) bound} :
    WellFormedEach reg record m ↔
      ∀ i child, m.get? i = some child →
        Suits reg record i child ∧ ∀ c ∈ child, c.WellFormed reg := by
  rw [← Entries.forall_mem_toList_iff]
  -- Entries of a map are its look-ups, so the induction may go along the list of them.
  induction m with
  | nil => simp [WellFormedEach]
  | cons i child above rest ih =>
    cases child <;> simp [WellFormedEach, ih, and_assoc]

/-- The full child of a field suits it. -/
theorem suits_fullChild {record : Schema} {index : Nat} {f : Field}
    (hf : record.fields[index]? = some f) : Suits reg record index (fullChild reg f) := by
  refine ⟨f, hf, ?_⟩
  rw [fullChild, Option.map_map]
  exact Option.map_id'

/-- The selection of a field is well-formed and suits the field, also where it is left open. -/
theorem WellFormed.selectionOf {s : RecordSelection} (hs : s.WellFormed reg) {index : Nat}
    {f : Field} (hf : s.record.fields[index]? = some f) :
    (s.selectionOf reg index f).map RecordSelection.record = f.record reg ∧
      ∀ c ∈ s.selectionOf reg index f, c.WellFormed reg := by
  -- The record of a field that is not named is left open; one that is named has what suits it.
  cases hget : s.explicit? index with
  | none =>
    rw [RecordSelection.selectionOf, hget, Option.getD_none]
    have hfull : Suits reg s.record index (fullChild reg f) := suits_fullChild hf
    obtain ⟨g, hg, hmap⟩ := hfull
    rw [hf] at hg
    cases hg
    refine ⟨hmap, fun c hc => ?_⟩
    obtain ⟨r, -, rfl⟩ := Option.map_eq_some_iff.1 hc
    trivial
  | some child =>
    rw [RecordSelection.selectionOf, hget, Option.getD_some]
    cases s with
    | undefined record => cases hget
    | defined record fields =>
      obtain ⟨⟨g, hg, hmap⟩, hchild⟩ := wellFormedEach_iff.1 hs index child hget
      rw [show record.fields[index]? = some f from hf] at hg
      cases hg
      exact ⟨hmap, hchild⟩

/-- The selection of a field whose index exists. -/
theorem fieldSelection_eq {s : RecordSelection} {i : Nat} {f : Field}
    (hf : s.record.fields[i]? = some f) :
    s.fieldSelection reg i = .ok (s.selectionOf reg i f) := by
  rw [fieldSelection, Schema.fieldAt, hf]
  rfl

/-- A selected index is that of a field. -/
theorem exists_field_of_hasIndex {s : RecordSelection} {i : Nat} (h : s.hasIndex i = true) :
    ∃ f, s.record.fields[i]? = some f := by
  rw [hasIndex] at h
  split at h
  · cases h
  · rename_i f hf
    exact ⟨f, hf⟩

/-- A selection that is left open selects the default fields. -/
theorem hasIndex_undefined {record : Schema} {i : Nat} {f : Field}
    (hf : record.fields[i]? = some f) : (undefined record).hasIndex i = record.isDefault f := by
  rw [hasIndex, show (undefined record).record.fields[i]? = some f from hf]

/-- A defined selection selects the fields that it names. -/
theorem hasIndex_of_isUndefined_eq_false {s : RecordSelection} (hs : s.isUndefined = false)
    {i : Nat} {f : Field} (hf : s.record.fields[i]? = some f) :
    s.hasIndex i = (s.explicit? i).isSome := by
  cases s with
  | undefined record => cases hs
  | defined record fields =>
    rw [hasIndex, hf]
    exact Entries.contains_eq_isSome_get? fields i

/-- A selection of the title, the default fields of the parent and no field of the children. -/
def sampleOfNode : RecordSelection :=
  (empty Schema.node).put 3 (some (empty Schema.node))
    |>.put 2 (some (undefined Schema.node))
    |>.put 1 none

/-- Each field that it names is nested in the node as it should be. -/
theorem wellFormed_sampleOfNode : sampleOfNode.WellFormed Registry.ofNode :=
  ⟨⟨_, rfl, rfl⟩, trivial, ⟨_, rfl, rfl⟩, trivial, ⟨_, rfl, rfl⟩, trivial, trivial⟩

end FieldMask.RecordSelection
