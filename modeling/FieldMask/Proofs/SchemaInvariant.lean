import FieldMask.Proofs.ListReading
import FieldMask.Schema.Registry
import Mathlib.Data.List.Nodup

/-!
# What holds of declared schemas

Schemas come from `Schema.build`, which checks the names of their fields, and so do the schemas
nested in them and those of a registry. A property that holds of every schema that is built thus
holds of a schema and of all records that can be reached from it.

## Key results

- `Schema.Everywhere.record`: what holds everywhere in a schema holds in the nested record of a
  field
- `Schema.isBuilt_iff`: the schemas that the builder accepts
- `Schema.lookup?_name`: in such a schema each field is found under its own name
- `Schema.indexOf?_eq_map_lookup?`: an index that a name leads to is that of a field
-/

namespace FieldMask

/-! ## Records within records -/

mutual

/-- A property holds of every record that is declared within a type. -/
def FieldType.Everywhere (P : Schema → Prop) : FieldType → Prop
  | .array items => items.Everywhere P
  | .map values => values.Everywhere P
  | .record schema => schema.Everywhere P
  | _ => True
termination_by structural t => t

/-- A property holds of every record that is declared within the type of a field. -/
def Field.Everywhere (P : Schema → Prop) : Field → Prop
  | ⟨_, _, type, _, _⟩ => type.Everywhere P
termination_by structural f => f

/-- A property holds of a schema and of every record that is declared within it. -/
def Schema.Everywhere (P : Schema → Prop) : Schema → Prop
  | ⟨stamp, name, fields⟩ => P ⟨stamp, name, fields⟩ ∧ Schema.EachEverywhere P fields
termination_by structural s => s

/-- A property holds of every record that is declared within fields. -/
def Schema.EachEverywhere (P : Schema → Prop) : List Field → Prop
  | [] => True
  | f :: rest => f.Everywhere P ∧ Schema.EachEverywhere P rest
termination_by structural fs => fs

end

/-- A property holds of every registered record, and of every record that is declared within. -/
def Registry.Everywhere (P : Schema → Prop) (reg : Registry) : Prop :=
  ∀ name s, reg.get? name = some s → s.Everywhere P

section Everywhere

variable {P : Schema → Prop} {reg : Registry}

/-- A property holds everywhere within fields if it does within the type of each. -/
theorem Schema.eachEverywhere_iff {fields : List Field} :
    Schema.EachEverywhere P fields ↔ ∀ f ∈ fields, f.type.Everywhere P := by
  induction fields with
  | nil => simp [Schema.EachEverywhere]
  | cons f rest ih =>
    have hf : f.Everywhere P ↔ f.type.Everywhere P := by cases f; rfl
    simp [Schema.EachEverywhere, hf, ih]

/-- A property holds everywhere in a schema if it does here and within the types of the fields. -/
theorem Schema.everywhere_iff {s : Schema} :
    s.Everywhere P ↔ P s ∧ ∀ f ∈ s.fields, f.type.Everywhere P := by
  cases s
  rw [Schema.Everywhere, Schema.eachEverywhere_iff]

/-- What holds everywhere in a type holds everywhere in the record that its values hold. -/
theorem FieldType.Everywhere.recordOf (hreg : reg.Everywhere P) {r : Schema} :
    -- Arrays and maps hold what their values hold; a reference is answered by the registry.
    ∀ {t : FieldType}, t.Everywhere P → t.recordOf reg = some r → r.Everywhere P
  | .record schema, h, hr => by
    cases hr
    exact h
  | .array items, h, hr => FieldType.Everywhere.recordOf hreg (t := items) h hr
  | .map values, h, hr => FieldType.Everywhere.recordOf hreg (t := values) h hr
  | .ref name, _, hr => hreg name r hr
termination_by structural t => t

/-- What holds everywhere in a schema holds everywhere in the nested record of a field. -/
theorem Schema.Everywhere.record (hreg : reg.Everywhere P) {s r : Schema} {f : Field}
    (h : s.Everywhere P) (hf : f ∈ s.fields) (hr : f.record reg = some r) : r.Everywhere P :=
  FieldType.Everywhere.recordOf hreg ((Schema.everywhere_iff.1 h).2 f hf) hr

end Everywhere

/-! ## What the builder checks -/

namespace Schema

/-- An expression can spell a name if it is a name of a field, and conversely. -/
theorem isSpellable_iff {name : String} : isSpellable name = true ↔ IsName name.toList := by
  simp only [isSpellable, Bool.and_eq_true, Bool.not_eq_true', List.isEmpty_eq_false_iff,
    beq_iff_eq, List.any_eq_false, Bool.or_eq_true, not_or, and_assoc]
  constructor
  · rintro ⟨hne, htrim, hplain⟩
    exact ⟨hne, htrim, hplain⟩
  · rintro ⟨hne, htrim, hplain⟩
    exact ⟨hne, htrim, hplain⟩

/-- Both names of a field can be spelt. -/
def NamesSpellable (f : Field) : Prop :=
  IsName f.name.toList ∧ ∀ json ∈ f.json, IsName json.toList

/-- The check of a name passes for names that an expression can spell. -/
theorem checkName_eq_ok_iff {record name : String} {u : Unit} :
    checkName record name = .ok u ↔ IsName name.toList := by
  rw [checkName, ← isSpellable_iff]
  split <;> simp_all

/-- The check of fields passes if all names can be spelt, and no field has the name of another one
    or of those before. -/
theorem checkFields_eq_ok_iff {record : String} {before : List String} {fields : List Field} :
    checkFields record before fields = .ok () ↔
      (∀ f ∈ fields, NamesSpellable f) ∧ (fields.map Field.name).Nodup ∧
        ∀ f ∈ fields, f.name ∉ before := by
  induction fields generalizing before with
  | nil => simp [checkFields]
  | cons f rest ih =>
    -- The checks of a single field, one after the other.
    have hstep : checkFields record before (f :: rest) = .ok () ↔
        NamesSpellable f ∧ f.name ∉ before ∧
          checkFields record (f.name :: before) rest = .ok () := by
      rw [checkFields, bind_eq_ok_iff]
      simp only [checkName_eq_ok_iff, exists_const, NamesSpellable, and_assoc]
      refine and_congr_right fun _ => ?_
      -- A field has a serialized name or not, and its own name is new or not.
      by_cases hmem : f.name ∈ before <;>
        cases f.json <;> simp [hmem, bind_eq_ok_iff, checkName_eq_ok_iff]
    rw [hstep, ih]
    rw [List.forall_mem_cons, List.forall_mem_cons, List.map_cons, List.nodup_cons, List.mem_map]
    simp only [List.mem_cons, not_or]
    constructor
    · rintro ⟨hf, hnew, hrest, hnodup, hother⟩
      refine ⟨⟨hf, hrest⟩, ⟨?_, hnodup⟩, hnew, fun g hg => (hother g hg).2⟩
      rintro ⟨g, hg, heq⟩
      exact (hother g hg).1 heq
    · rintro ⟨⟨hf, hrest⟩, ⟨hfresh, hnodup⟩, hnew, hother⟩
      exact ⟨hf, hnew, hrest, hnodup, fun g hg => ⟨fun heq => hfresh ⟨g, hg, heq⟩, hother g hg⟩⟩

/-- A schema that the builder accepts. -/
def IsBuilt (s : Schema) : Prop := build s.stamp s.name s.fields = .ok s

/-- The builder accepts a schema if its name is not blank, all names of its fields can be spelt,
    and the fields have different names. -/
theorem isBuilt_iff {s : Schema} :
    s.IsBuilt ↔ Text.trim s.name.toList ≠ [] ∧ (∀ f ∈ s.fields, NamesSpellable f) ∧
      (s.fields.map Field.name).Nodup := by
  have hcheck : checkFields s.name [] s.fields = .ok () ↔
      (∀ f ∈ s.fields, NamesSpellable f) ∧ (s.fields.map Field.name).Nodup := by
    rw [checkFields_eq_ok_iff]
    simp
  have hself : (⟨s.stamp, s.name, s.fields⟩ : Schema) = s := by cases s; rfl
  rw [IsBuilt, build, ← hcheck]
  -- A blank name is refused before the fields are looked at.
  by_cases hblank : Text.trim s.name.toList = []
  · simp [hblank, bind_eq_ok_iff]
  · simp only [List.isEmpty_iff, hblank, if_false, bind_eq_ok_iff, hself]
    constructor
    · rintro ⟨u, hu, -⟩
      exact ⟨hblank, hu⟩
    · rintro ⟨-, hu⟩
      exact ⟨(), hu, rfl⟩

/-- An index that a name leads to is that of a field. -/
theorem indexOf?_eq_map_lookup? (s : Schema) (name : String) :
    s.indexOf? name = (s.lookup? name).map Prod.fst := by
  rw [lookup?]
  cases hindex : s.indexOf? name with
  | none => rfl
  | some i =>
    -- What leads to an index is a search among the fields.
    have hi : i < s.fields.length := by
      rw [indexOf?] at hindex
      split at hindex
      · rename_i hname
        cases hindex
        exact (List.findIdx?_eq_some_iff_getElem.1 hname).1
      · exact (List.findIdx?_eq_some_iff_getElem.1 hindex).1
    simp [hi]

/-- Each field is found under its own name, also where that is a serialized name of another. -/
theorem lookup?_name {s : Schema} (h : s.IsBuilt) {i : Nat} {f : Field}
    (hf : s.fields[i]? = some f) : s.lookup? f.name = some (i, f) := by
  obtain ⟨hi, hfi⟩ := List.getElem?_eq_some_iff.1 hf
  have hnodup := (isBuilt_iff.1 h).2.2
  have hfind : s.fields.findIdx? (fun g => g.name == f.name) = some i := by
    -- The first field of the name is sought, and names differ.
    refine List.findIdx?_eq_some_iff_getElem.2 ⟨hi, by simp [hfi], fun j hj => ?_⟩
    -- A field further ahead has another name.
    have hjl : j < s.fields.length := Nat.lt_trans hj hi
    have hne : s.fields[j].name ≠ s.fields[i].name := by
      intro heq
      have hji := (hnodup.get_inj_iff (i := ⟨j, by simpa using hjl⟩)
        (j := ⟨i, by simpa using hi⟩)).1 (by simpa using heq)
      exact absurd (Fin.mk.inj hji) (by omega)
    simpa [hfi] using hne
  have hindex : s.indexOf? f.name = some i := by rw [indexOf?, hfind]
  rw [lookup?, hindex]
  simp [hf]

/-! ## A record that refers to itself -/

/-- A record with a parent and children of its own kind. The first field is serialized under the
    name of the second one, which is not serialized. -/
def node : Schema where
  stamp := 1
  name := "Node"
  fields := [(Field.of "id" .integer).withJson "title", (Field.of "title" .string).withJson "-",
    .of "parent" (.ref "Node"), .of "children" (.array (.ref "Node")), .of "note" .any]

/-- The builder accepts it. -/
theorem isBuilt_node : node.IsBuilt := rfl

/-- No record is declared within its fields, so what holds of it holds everywhere in it. -/
theorem everywhere_node {P : Schema → Prop} (h : P node) : node.Everywhere P :=
  ⟨h, trivial, trivial, trivial, trivial, trivial, trivial⟩

end Schema

/-- The registry of that record. -/
def Registry.ofNode : Registry := ⟨Entries.nil.insert "Node" Schema.node⟩

/-- Its name is the only one. -/
theorem Registry.everywhere_ofNode {P : Schema → Prop} (h : P Schema.node) :
    Registry.ofNode.Everywhere P := by
  intro name s hs
  rw [Registry.get?, ofNode, Entries.get?_insert] at hs
  split at hs
  · cases hs
    exact Schema.everywhere_node h
  · cases hs

end FieldMask
