import FieldMask.Proofs.RecordTyping

/-!
# Tables of names

A name may be that of a field or one that a field is serialized under, and a schema searches its
fields for the one and then for the other. Here a record is declared in one pass over its fields
instead. It gives each field its index, checks both of its names, and enters them into two tables: a
name that is taken is refused, and a serialized name that is taken stays with the field that has it.
The pass refuses what the builder refuses, for the same fault, and the tables lead where the search
does.

## Key results

- `Finds`: what a name finds in a record
- `lookup?_finds`: the search finds it in every record that the builder accepts
- `Directory.Indexes.insert` / `Directory.Indexes.skip`: two ways to treat a name of one more field
- `Directory.Lists.enter` / `Directory.Lists.enterAll`: the tables after a step and after the pass
- `Directory.build_eq_map_declare`: what the builder makes, and why it refuses
- `build_exact`: which records can be declared, and what any name finds in them
-/

namespace FieldMask.Schema

/-! ## What a name finds -/

/-- What a name finds in a record: the one field with the name if there is one, or else the first
    field that is serialized under it, or else nothing. -/
inductive Finds (s : Schema) (name : String) : Option (Nat × Field) → Prop where
  | named {i : Nat} {f : Field} (found : s.fields[i]? = some f) (name_eq : f.name = name)
      (only : ∀ j g, s.fields[j]? = some g → g.name = name → j = i) : Finds s name (some (i, f))
  | serialized {i : Nat} {f : Field} (unnamed : ∀ g ∈ s.fields, g.name ≠ name)
      (found : s.fields[i]? = some f) (json_eq : f.json = some name)
      (first : ∀ j g, s.fields[j]? = some g → g.json = some name → i ≤ j) :
      Finds s name (some (i, f))
  | nothing (unnamed : ∀ g ∈ s.fields, g.name ≠ name)
      (unserialized : ∀ g ∈ s.fields, g.json ≠ some name) : Finds s name none

/-- A name finds one thing only. -/
theorem Finds.unique {s : Schema} {name : String} {found found' : Option (Nat × Field)}
    (h : s.Finds name found) (h' : s.Finds name found') : found = found' := by
  -- By the two ways it was found: a field of the name excludes all others, a first one is the same.
  cases h with
  | named found name_eq only =>
    cases h' with
    | named found' name_eq' only' =>
      cases only _ _ found' name_eq'
      cases found.symm.trans found'
      rfl
    | serialized unnamed' => exact absurd name_eq (unnamed' _ (List.mem_of_getElem? found))
    | nothing unnamed' => exact absurd name_eq (unnamed' _ (List.mem_of_getElem? found))
  | serialized unnamed found json_eq first =>
    cases h' with
    | named found' name_eq' => exact absurd name_eq' (unnamed _ (List.mem_of_getElem? found'))
    | serialized unnamed' found' json_eq' first' =>
      cases Nat.le_antisymm (first _ _ found' json_eq') (first' _ _ found json_eq)
      cases found.symm.trans found'
      rfl
    | nothing _ unserialized' =>
      exact absurd json_eq (unserialized' _ (List.mem_of_getElem? found))
  | nothing unnamed unserialized =>
    cases h' with
    | named found' name_eq' => exact absurd name_eq' (unnamed _ (List.mem_of_getElem? found'))
    | serialized _ found' json_eq' =>
      exact absurd json_eq' (unserialized _ (List.mem_of_getElem? found'))
    | nothing => rfl

/-- In a record that the builder accepts, the search finds what a name finds. -/
theorem lookup?_finds {s : Schema} (h : s.IsBuilt) (name : String) :
    s.Finds name (s.lookup? name) := by
  by_cases hnamed : ∃ f ∈ s.fields, f.name = name
  · obtain ⟨f, hf, rfl⟩ := hnamed
    obtain ⟨i, hi⟩ := List.getElem?_of_mem hf
    rw [lookup?_name h hi]
    refine .named hi rfl fun j g hg heq => ?_
    -- A field of the same name is found under it as well.
    have hboth := (lookup?_name h hg).symm.trans (heq ▸ lookup?_name h hi)
    cases hboth
    rfl
  · have hunnamed : ∀ g ∈ s.fields, g.name ≠ name := fun g hg heq => hnamed ⟨g, hg, heq⟩
    -- Without a field of the name, the search goes on to the serialized names.
    have hindex : s.indexOf? name = s.fields.findIdx? fun f => f.json == some name := by
      rw [indexOf?, List.findIdx?_eq_none_iff.2 fun g hg => by simpa using hunnamed g hg]
    cases hjson : s.fields.findIdx? fun f => f.json == some name with
    | none =>
      have hlookup : s.lookup? name = none := by rw [lookup?, hindex, hjson]; rfl
      rw [hlookup]
      exact .nothing hunnamed fun g hg => by simpa using List.findIdx?_eq_none_iff.1 hjson g hg
    | some i =>
      obtain ⟨hi, hfound, hahead⟩ := List.findIdx?_eq_some_iff_getElem.1 hjson
      have hlookup : s.lookup? name = some (i, s.fields[i]) := by
        rw [lookup?, hindex, hjson]
        simp [hi]
      rw [hlookup]
      refine .serialized hunnamed (List.getElem?_eq_getElem hi) (by simpa using hfound) ?_
      intro j g hg hgj
      obtain ⟨hj, rfl⟩ := List.getElem?_eq_some_iff.1 hg
      -- What is ahead of the first one that is found does not have the serialized name.
      exact Nat.le_of_not_lt fun hji => hahead j hji (by simpa using hgj)

/-! ## Declaring in one pass -/

/-- Check both names of a field of a record. -/
def checkNames (record : String) (f : Field) : Except SchemaFault Unit := do
  checkName record f.name
  match f.json with
  | some json => checkName record json
  | none => .ok ()

/-- Both names of a field pass the check if they can be spelt. -/
theorem checkNames_eq_ok_iff {record : String} {f : Field} {u : Unit} :
    checkNames record f = .ok u ↔ NamesSpellable f := by
  rw [checkNames, bind_eq_ok_iff]
  simp only [checkName_eq_ok_iff, exists_const, NamesSpellable]
  refine and_congr_right fun _ => ?_
  cases f.json <;> simp [checkName_eq_ok_iff]

/-- The builder checks the names of the first field, then whether its name is new, then the rest. -/
theorem checkFields_cons (record : String) (names : List String) (f : Field) (rest : List Field) :
    checkFields record names (f :: rest) = checkNames record f >>= fun _ =>
      if f.name ∈ names then .error (.duplicateField f.name record)
      else checkFields record (f.name :: names) rest := by
  -- What is left to do once both names are checked.
  have hrest : (do
        if f.name ∈ names then throw (.duplicateField f.name record)
        checkFields record (f.name :: names) rest) =
      if f.name ∈ names then .error (.duplicateField f.name record)
      else checkFields record (f.name :: names) rest := by
    split <;> rfl
  rw [checkFields, checkNames]
  cases checkName record f.name with
  | error fault => rfl
  | ok u =>
    cases f.json with
    | none => exact hrest
    | some json =>
      simp only
      cases checkName record json with
      | error fault => rfl
      | ok u => exact hrest

/-- A declared record: its fields with their indices, and where names and serialized names lead. -/
structure Directory where
  fields : List (Nat × Field)
  byName : OrderedMap String Nat
  byJson : OrderedMap String Nat

namespace Directory

/-- The directory without fields. -/
def empty : Directory := ⟨[], .nil, .nil⟩

/-- Enter a serialized name that leads to an index, unless it leads to another one already. -/
def enterJson (table : OrderedMap String Nat) (json : Option String) (i : Nat) :
    OrderedMap String Nat :=
  match json with
  | some name => if table.contains name then table else table.insert name i
  | none => table

/-- Enter a field of a record at an index. Its names must be spellable, and its name not taken. -/
def enter (record : String) (d : Directory) (f : Field) (index : Nat) :
    Except SchemaFault Directory := do
  checkNames record f
  if d.byName.contains f.name then .error (.duplicateField f.name record)
  else .ok {
    fields := d.fields ++ [(index, f)]
    byName := d.byName.insert f.name index
    byJson := enterJson d.byJson f.json index }

/-- Enter fields of a record in order, the first at an index. -/
def enterAll (record : String) (d : Directory) (index : Nat) :
    List Field → Except SchemaFault Directory
  | [] => .ok d
  | f :: rest => do
    let d ← d.enter record f index
    d.enterAll record (index + 1) rest

/-- Declare a record in one pass over its fields. -/
def declare (name : String) (fields : List Field) : Except SchemaFault Directory := do
  if (Text.trim name.toList).isEmpty then throw .blankRecordName
  empty.enterAll name 0 fields

/-- The field that a name leads to, and its index: names of fields come before serialized names. -/
def lookup? (d : Directory) (name : String) : Option (Nat × Field) := do
  let i ← (d.byName.get? name).or (d.byJson.get? name)
  d.fields[i]?

/-- The schema of a declared record. -/
def toSchema (d : Directory) (stamp : Nat) (name : String) : Schema where
  stamp
  name
  fields := d.fields.map Prod.snd

/-! ### What the tables hold -/

/-- A table leads from each name to the first of the fields that have it. -/
def Indexes (table : OrderedMap String Nat) (has : String → Field → Bool) (fields : List Field) :
    Prop :=
  ∀ name, table.get? name = fields.findIdx? (has name)

section Indexes

variable {table : OrderedMap String Nat} {has : String → Field → Bool} {fields : List Field}
  {f : Field} {key : String}

/-- A field with a name that none before it has is entered. -/
theorem Indexes.insert (h : Indexes table has fields) (hnew : table.get? key = none)
    (hkey : ∀ name, has name f = true ↔ key = name) :
    Indexes (table.insert key fields.length) has (fields ++ [f]) := by
  intro name
  -- The new entry is behind all others, so it is only found if none of them is.
  rw [Entries.get?_insert, List.findIdx?_append, List.findIdx?_singleton, ← h name]
  by_cases hname : key = name
  · subst hname
    simp [hnew, (hkey key).2 rfl]
  -- Any other name is that of no field but those before.
  · have hnot : has name f = false := by
      rw [← Bool.not_eq_true, hkey]
      exact hname
    simp [hname, hnot]

/-- A field may be passed over if fields before it have all of its names. -/
theorem Indexes.skip (h : Indexes table has fields)
    (hold : ∀ name, has name f = true → (table.get? name).isSome) :
    Indexes table has (fields ++ [f]) := by
  intro name
  rw [List.findIdx?_append, List.findIdx?_singleton, ← h name]
  -- A name that is in the table already leads to the field before.
  cases hget : table.get? name with
  | some i => rfl
  | none =>
    have hnot : has name f = false := by
      rw [← Bool.not_eq_true]
      intro hf
      have := hold name hf
      rw [hget] at this
      cases this
    simp [hnot]

end Indexes

/-- Whether a field has a name. -/
def hasName (name : String) (f : Field) : Bool := f.name == name

/-- Whether a field has a serialized name. -/
def hasJson (name : String) (f : Field) : Bool := f.json == some name

/-- Of fields with one serialized name the first stays in the table. -/
theorem Indexes.enterJson {table : OrderedMap String Nat} {fields : List Field}
    (h : Indexes table hasJson fields) (f : Field) :
    Indexes (enterJson table f.json fields.length) hasJson (fields ++ [f]) := by
  cases hjson : f.json with
  | none => exact h.skip fun name hf => by simp [hasJson, hjson] at hf
  | some json =>
    have hkey : ∀ name, hasJson name f = true ↔ json = name := by simp [hasJson, hjson]
    rw [Directory.enterJson]
    -- A name that leads to a field already is passed over, and a new one is entered.
    split
    · rename_i hold
      refine h.skip fun name hf => ?_
      cases (hkey name).1 hf
      exact hold
    · rename_i hnew
      refine h.insert ?_ hkey
      simpa using hnew

/-- A directory is that of a list of fields. -/
structure Lists (d : Directory) (fields : List Field) : Prop where
  fields_eq : d.fields = fields.zipIdx.map Prod.swap
  byName : Indexes d.byName hasName fields
  byJson : Indexes d.byJson hasJson fields

theorem lists_empty : empty.Lists [] := ⟨rfl, fun _ => rfl, fun _ => rfl⟩

variable {record : String} {d d' : Directory} {before fields : List Field} {f : Field}

/-- A field is entered if its names can be spelt and its name is new. -/
theorem enter_eq_ok_iff {index : Nat} :
    d.enter record f index = .ok d' ↔ NamesSpellable f ∧ d.byName.get? f.name = none ∧
      d' = ⟨d.fields ++ [(index, f)], d.byName.insert f.name index,
        Directory.enterJson d.byJson f.json index⟩ := by
  rw [Directory.enter, bind_eq_ok_iff]
  simp only [checkNames_eq_ok_iff, exists_const]
  refine and_congr_right fun _ => ?_
  cases hget : d.byName.get? f.name <;> simp [hget, eq_comm]

/-- One more field is entered behind those that a directory lists. -/
theorem Lists.enter (h : d.Lists before) (hd : d.enter record f before.length = .ok d') :
    d'.Lists (before ++ [f]) := by
  obtain ⟨-, hnew, rfl⟩ := enter_eq_ok_iff.1 hd
  have hname : ∀ name, hasName name f = true ↔ f.name = name := by simp [hasName]
  exact {
    fields_eq := by simp [h.fields_eq, List.zipIdx_append]
    byName := h.byName.insert hnew hname
    byJson := h.byJson.enterJson f }

/-- The fields are entered one after the other. -/
theorem Lists.enterAll (h : d.Lists before)
    (hd : d.enterAll record before.length fields = .ok d') : d'.Lists (before ++ fields) := by
  -- By induction on the fields, with those that have been entered as the invariant.
  induction fields generalizing d before with
  | nil =>
    cases hd
    rw [List.append_nil]
    exact h
  | cons f rest ih =>
    obtain ⟨d₁, hf, hrest⟩ := bind_eq_ok_iff.1 hd
    have hlength : before.length + 1 = (before ++ [f]).length := by simp
    rw [hlength] at hrest
    rw [List.append_cons]
    exact ih (h.enter hf) hrest

/-- A field is checked as it is entered, if the names in the way are those in the table. -/
theorem checkFields_cons_eq {names : List String} {index : Nat} {rest : List Field}
    (hnames : f.name ∈ names ↔ d.byName.contains f.name = true) :
    checkFields record names (f :: rest) =
      d.enter record f index >>= fun _ => checkFields record (f.name :: names) rest := by
  rw [checkFields_cons, Directory.enter, bind_assoc]
  congr 1
  -- Only the test for the name is made in another way.
  funext _
  by_cases hmem : f.name ∈ names
  · rw [if_pos hmem, if_pos (hnames.1 hmem)]
    rfl
  · rw [if_neg hmem, if_neg fun h => hmem (hnames.2 h)]
    rfl

/-- Fields are checked as they are entered, with the same fault if there is one. -/
theorem checkFields_eq (h : d.Lists before) {names : List String}
    (hnames : ∀ name, name ∈ names ↔ name ∈ before.map Field.name) :
    checkFields record names fields =
      d.enterAll record before.length fields >>= fun _ => .ok () := by
  induction fields generalizing d before names with
  | nil => rfl
  | cons f rest ih =>
    -- The table has the names that the builder keeps in a list.
    have htaken : f.name ∈ names ↔ d.byName.contains f.name = true := by
      rw [hnames, Entries.contains_eq_isSome_get?, h.byName, List.findIdx?_isSome]
      simp [hasName]
    rw [checkFields_cons_eq htaken, Directory.enterAll, bind_assoc]
    -- From here on, both stop with the fault of the first field or go on behind it.
    cases hf : d.enter record f before.length with
    | error fault => rfl
    | ok d₁ =>
      have hlength : before.length + 1 = (before ++ [f]).length := by simp
      rw [hlength]
      exact ih (h.enter hf) fun name => by simp [hnames, or_comm]

/-- The fields of a directory have their positions for indices. -/
theorem Lists.getElem?_fields (h : d.Lists fields) (i : Nat) :
    d.fields[i]? = (fields[i]?).map fun f => (i, f) := by
  simp [h.fields_eq, List.getElem?_map, List.getElem?_zipIdx, Function.comp_def]

/-- The schema of a directory is that of the fields it was declared with. -/
theorem Lists.toSchema_eq (h : d.Lists fields) (stamp : Nat) (name : String) :
    d.toSchema stamp name = ⟨stamp, name, fields⟩ := by
  have hfields : (fields.zipIdx.map Prod.swap).map Prod.snd = fields := by
    rw [List.map_map]
    exact List.zipIdx_map_fst 0 fields
  rw [toSchema, h.fields_eq, hfields]

/-- The tables lead where the search does. -/
theorem Lists.lookup?_eq {s : Schema} (h : d.Lists s.fields) (name : String) :
    d.lookup? name = s.lookup? name := by
  have hindex : (d.byName.get? name).or (d.byJson.get? name) = s.indexOf? name := by
    rw [h.byName, h.byJson, indexOf?]
    show (s.fields.findIdx? fun f => f.name == name).or
      (s.fields.findIdx? fun f => f.json == some name) = _
    -- The two searches are alternatives of each other: the second is only made if the first fails.
    cases s.fields.findIdx? fun f => f.name == name <;> rfl
  rw [lookup?, hindex, Schema.lookup?]
  refine Option.bind_congr fun i _ => ?_
  rw [h.getElem?_fields]
  cases s.fields[i]? <;> rfl

/-- A declared record is a directory of its fields. -/
theorem lists_of_declare {name : String} (h : declare name fields = .ok d) : d.Lists fields := by
  rw [declare] at h
  split at h
  · cases h
  · exact lists_empty.enterAll h

/-- A record is declared as the builder builds its schema, with the same faults. -/
theorem build_eq_map_declare (stamp : Nat) (name : String) (fields : List Field) :
    build stamp name fields = (declare name fields).map fun d => d.toSchema stamp name := by
  have hcheck : checkFields name [] fields = empty.enterAll name 0 fields >>= fun _ => .ok () :=
    checkFields_eq lists_empty fun _ => Iff.rfl
  -- Both check the name of the record first.
  rw [build, declare, hcheck]
  by_cases hblank : (Text.trim name.toList).isEmpty = true
  · rw [if_pos hblank, if_pos hblank]
    rfl
  · rw [if_neg hblank, if_neg hblank]
    cases hall : empty.enterAll name 0 fields with
    | error fault => rfl
    | ok d => exact congrArg Except.ok ((lists_empty.enterAll hall).toSchema_eq stamp name).symm

/-- The schema that the builder makes is that of a directory of the fields. -/
theorem exists_declare_of_build {stamp : Nat} {name : String} {s : Schema}
    (h : build stamp name fields = .ok s) :
    s = ⟨stamp, name, fields⟩ ∧ ∃ d, declare name fields = .ok d ∧ d.Lists fields := by
  rw [build_eq_map_declare] at h
  cases hd : declare name fields with
  | error fault =>
    rw [hd] at h
    cases h
  | ok d =>
    rw [hd] at h
    cases h
    exact ⟨(lists_of_declare hd).toSchema_eq stamp name, d, rfl, lists_of_declare hd⟩

end Directory

/-! ## What is declared, and what is found -/

/-- Every way to look a name up in a schema, or in the directory that it was declared with, finds
    the same: the field, its index, and its value in a record. If nothing is found, that is a misuse
    where the field was promised to be declared, and an error where it was asked for. -/
structure AllFind (s : Schema) (d : Directory) (name : String) (found : Option (Nat × Field)) :
    Prop where
  tables : d.lookup? name = found
  field : s.lookup? name = found
  index : s.indexOf? name = found.map Prod.fst
  promised : s.fieldNamed name = found.elim (.error (.noFieldNamed s.name name)) .ok
  requested : s.resolveName name = found.elim (.error (.of (.unknownName name s.name))) .ok
  value : ∀ values, (Record.mk s values).get? name = found.bind fun p => values[p.1]?

/-- All look-ups in a schema find what the search does, and so do the tables of its directory. -/
theorem Directory.Lists.allFind {s : Schema} {d : Directory} (h : d.Lists s.fields)
    (name : String) : s.AllFind d name (s.lookup? name) where
  tables := h.lookup?_eq name
  field := rfl
  index := s.indexOf?_eq_map_lookup? name
  promised := by
    rw [fieldNamed]
    cases s.lookup? name <;> rfl
  requested := by
    rw [resolveName]
    cases s.lookup? name <;> rfl
  value values := Record.get?_eq_bind_lookup? ⟨s, values⟩ name

/-- A record can be declared exactly if its name is not blank, all names and serialized names of its
    fields can be spelt, and the names of the fields differ. Each field then has its position for an
    index. A name finds the field of that name if there is one, or else the first field in order
    that is serialized under it, or else nothing, however it is looked up. -/
theorem build_exact (stamp : Nat) (name : String) (fields : List Field) :
    ((∃ s, build stamp name fields = .ok s) ↔
      (¬ ∀ c ∈ name.toList, Text.isBlank c = true) ∧
        (∀ f ∈ fields, IsName f.name.toList ∧ ∀ json ∈ f.json, IsName json.toList) ∧
          (fields.map Field.name).Nodup) ∧
    ∀ s, build stamp name fields = .ok s → s = ⟨stamp, name, fields⟩ ∧
      ∃ d, Directory.declare name fields = .ok d ∧
        (∀ i : Nat, d.fields[i]? = (fields[i]?).map fun f => (i, f)) ∧
          ∀ n, ∃ found, s.AllFind d n found ∧ ∀ other, s.Finds n other ↔ other = found := by
  refine ⟨?_, fun s hs => ?_⟩
  -- That a record can be declared is what the builder accepts, said of the names.
  · have hbuilt := isBuilt_iff (s := ⟨stamp, name, fields⟩)
    rw [← Text.trim_eq_nil_iff]
    constructor
    · rintro ⟨s, hs⟩
      obtain ⟨rfl, -⟩ := Directory.exists_declare_of_build hs
      exact hbuilt.1 hs
    · intro h
      exact ⟨_, hbuilt.2 h⟩
  · obtain ⟨rfl, d, hd, hlists⟩ := Directory.exists_declare_of_build hs
    have hbuilt : (⟨stamp, name, fields⟩ : Schema).IsBuilt := hs
    have hall := Directory.Lists.allFind (s := ⟨stamp, name, fields⟩) hlists
    refine ⟨rfl, d, hd, hlists.getElem?_fields, fun n => ⟨_, hall n, fun other => ?_⟩⟩
    -- A name finds one thing only, and that is what the search finds.
    have hfinds := lookup?_finds hbuilt n
    constructor
    · intro h
      exact h.unique hfinds
    · rintro rfl
      exact hfinds

/-- A number that two fields are serialized under, the first of which has a name that the field
    ahead of it is serialized under. -/
def contact : Schema where
  stamp := 1
  name := "Contact"
  fields := [(Field.of "desk" .string).withJson "phone",
    (Field.of "phone" .string).withJson "number", (Field.of "mobile" .string).withJson "number"]

/-- Both names lead to the field in the middle. -/
theorem build_exact_contact :
    (∃ s, build 1 "Contact" contact.fields = .ok s) ∧
    contact.Finds "phone" (some (1, (Field.of "phone" .string).withJson "number")) ∧
    contact.Finds "number" (some (1, (Field.of "phone" .string).withJson "number")) := by
  have hbuild : build 1 "Contact" contact.fields = .ok contact := rfl
  obtain ⟨-, d, -, -, hfound⟩ := (build_exact 1 "Contact" contact.fields).2 contact hbuild
  obtain ⟨byName, hallName, hfindsName⟩ := hfound "phone"
  obtain ⟨byJson, hallJson, hfindsJson⟩ := hfound "number"
  exact ⟨⟨contact, hbuild⟩, (hfindsName _).2 hallName.field, (hfindsJson _).2 hallJson.field⟩

end FieldMask.Schema
