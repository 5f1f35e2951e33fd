import FieldMask.Proofs.BindingInvariant
import FieldMask.Proofs.FieldwiseAlgebra
import FieldMask.RecordSelection.Printer

/-!
# Looking up the fields that a selection names

Writing a selection, by names or by serialized names, listing its fields, looking for them in
another selection and combining the two takes each index that is named to be one of a field, and
passes over others. Here the same is done by looking each index up as one that is promised to exist,
so that any other one ends it in a misuse. That never happens on selections that name fields only,
as well-formed ones do.

## Key results

- `lookUpFields_eq`: all fields that are named are found
- `spell_render` / `spell_toNames`: so are those below, at any depth
- `lookUpContained_eq`: so are those that are looked for in another selection
- `lookUpPick_eq` / `lookUpExclude_eq` / `lookUpAssign_eq`: and those of two selections that are
  combined
- `Query.lookUpNames_eq`: so are those of all selections that a query holds
-/

namespace FieldMask

variable {reg : Registry}

namespace RecordSelection

/-- All that a selection names, at any depth, are fields. -/
inductive AllFound : RecordSelection → Prop
  | intro {s : RecordSelection}
      (found : ∀ i child, s.explicit? i = some child → ∃ f, s.record.fields[i]? = some f)
      (below : ∀ i c, s.explicit? i = some (some c) → AllFound c) : AllFound s

/-- A well-formed selection names fields only, and so do those below. -/
theorem WellFormed.allFound {s : RecordSelection} (hs : s.WellFormed reg) : s.AllFound := by
  induction s using RecordSelection.induction with
  | undefined record => exact .intro nofun nofun
  | defined record fields ih =>
    refine .intro (fun i child hi => ?_) fun i c hi => ih i c hi (hs.fits hi).child
    obtain ⟨f, hf, -⟩ := (hs.fits hi).suits
    exact ⟨f, hf⟩

/-- An index that is named, if it is, is that of a field of the record, with a selection that has a
    property. -/
def FoundAt (record : Schema) (Q : RecordSelection → Prop) (i : Nat)
    (named : Option (Option RecordSelection)) : Prop :=
  ∀ child ∈ named, (∃ f, record.fields[i]? = some f) ∧ ∀ c ∈ child, Q c

/-- Where all entries of a map are found, the first one is, and so are those behind it. -/
theorem foundAt_cons {record : Schema} {Q : RecordSelection → Prop} {bound : Option Nat} {i : Nat}
    {child : Option RecordSelection} {above : ∀ b ∈ bound, b < i}
    {rest : Entries Nat (Option RecordSelection) (some i)}
    (h : ∀ j, FoundAt record Q j ((Entries.cons i child above rest).get? j)) :
    (∃ f, record.fields[i]? = some f) ∧ (∀ c ∈ child, Q c) ∧
      ∀ j, FoundAt record Q j (rest.get? j) := by
  -- Nothing is asked of an index that is not named.
  have hnone : ∀ j, FoundAt record Q j none := fun j => nofun
  obtain ⟨hfirst, hrest⟩ := (Entries.forall_get?_cons_iff hnone).1 h
  obtain ⟨hfield, hchild⟩ := hfirst child rfl
  exact ⟨hfield, hchild, hrest⟩

/-- What is shown of selections that are left open, and of those whose named fields are found with
    selections that it is shown of, holds of all that name fields only. -/
@[elab_as_elim]
theorem AllFound.induction {Q : RecordSelection → Prop} {q : RecordSelection} (hq : q.AllFound)
    (undefined : ∀ record, Q (.undefined record))
    (defined : ∀ record fields, (RecordSelection.defined record fields).AllFound →
      (∀ i, FoundAt record Q i (fields.get? i)) → Q (.defined record fields)) : Q q := by
  induction hq with
  | @intro q found below ih =>
    cases q with
    | undefined record => exact undefined record
    | defined record fields =>
      refine defined record fields (.intro found below) fun i child hi => ⟨found i child hi, ?_⟩
      rintro c rfl
      exact ih i c hi

/-- What is left open stands for fields as well. -/
theorem AllFound.expandNested {s : RecordSelection} (hs : s.AllFound) (outer : List Schema) :
    (s.expandNested reg outer).AllFound := by
  induction hs generalizing outer with
  | @intro s found below ih =>
    cases s with
    | undefined record => exact .intro nofun nofun
    | defined record fields =>
      -- An entry that is expanded stands at the index where it stood before.
      have hentry : ∀ {i child}, (expandEach reg (record :: outer) fields).get? i = some child →
          ∃ before, fields.get? i = some before ∧
            before.map (expanded reg (record :: outer)) = child := fun hi => by
        rw [get?_expandEach] at hi
        exact Option.map_eq_some_iff.1 hi
      refine .intro (fun i child hi => ?_) fun i c hi => ?_
      · obtain ⟨before, hbefore, -⟩ := hentry hi
        exact found i before hbefore
      · obtain ⟨before, hbefore, hc⟩ := hentry hi
        obtain ⟨b, rfl, rfl⟩ := Option.map_eq_some_iff.1 hc
        rw [expanded]
        split
        -- Nested records are expanded anew where the entry was left open, and else from what it
        -- names.
        · split
          · exact (expandInside_isOf (record :: outer) b.record).2.allFound
          · exact below i b hbefore
        · exact ih i b hbefore (record :: outer)

/-- The named fields, looked up at indices that are promised to exist. -/
def lookUpFields (s : RecordSelection) :
    Except Misuse (List (Nat × Field × Option RecordSelection)) :=
  s.entries.toList.mapM fun (i, child) => do return (i, ← s.record.fieldAt i, child)

/-- All fields that a selection names are found. -/
theorem lookUpFields_eq {s : RecordSelection} (hs : s.AllFound) :
    s.lookUpFields = .ok s.explicitFields := by
  have hfound : ∀ p ∈ s.entries.toList, ∃ f, s.record.fields[p.1]? = some f := by
    intro p hp
    obtain ⟨found, -⟩ := hs
    exact found p.1 p.2 (Entries.mem_toList_iff_get?_eq_some.1 hp)
  rw [lookUpFields, explicitFields]
  -- By induction on the entries, with what is known of them and without the map they are from.
  generalize s.entries.toList = entries at hfound
  induction entries with
  | nil => rfl
  | cons p rest ih =>
    obtain ⟨i, child⟩ := p
    obtain ⟨f, hf⟩ := hfound (i, child) List.mem_cons_self
    simp only at hf
    rw [List.mapM_cons, ih fun q hq => hfound q (List.mem_cons_of_mem _ hq)]
    simp only [Schema.fieldAt_eq_ok_iff.2 hf, List.filterMap_cons, hf, Option.map_some]
    rfl

/-- A way to spell selections, with texts `α` that are made of spelt fields `β`. -/
structure Speller (α β : Type) where
  /-- The name of a field, if it is spelt at all. -/
  nameOf : Field → Option String
  field : String → α → β
  join : List β → α
  /-- Of what is left open, and of fields without a nested record. -/
  blank : α

variable {α β : Type}

mutual

/-- Spell a selection whose indices are promised to exist. -/
def spell (p : Speller α β) : RecordSelection → Except Misuse α
  | undefined _ => .ok p.blank
  | defined record fields => do return p.join (← spellEach p record fields)
termination_by structural s => s

/-- Spell fields of a record at indices that are promised to exist. -/
def spellEach {bound : Option Nat} (p : Speller α β) (record : Schema) :
    Entries Nat (Option RecordSelection) bound → Except Misuse (List β)
  | .nil => .ok []
  | .cons i child _ rest => do
    let f ← record.fieldAt i
    match p.nameOf f with
    | some name =>
      let nested ← match child with
        | some c => c.spell p
        | none => .ok p.blank
      return p.field name nested :: (← spellEach p record rest)
    | none => spellEach p record rest
termination_by structural fields => fields

end

/-- A writer does as a speller does, but passes over indices without a field. -/
structure Speller.Follows (p : Speller α β) (write : RecordSelection → α)
    (writeEach : {bound : Option Nat} → Schema → Entries Nat (Option RecordSelection) bound →
      List β) : Prop where
  undefined_eq (record : Schema) : write (.undefined record) = p.blank
  defined_eq (record : Schema) (fields : OrderedMap Nat (Option RecordSelection)) :
    write (.defined record fields) = p.join (writeEach record fields)
  nil_eq (record : Schema) (bound : Option Nat) :
    writeEach record (.nil : Entries Nat (Option RecordSelection) bound) = []
  cons_eq (record : Schema) {bound : Option Nat} (i : Nat) (child : Option RecordSelection)
    (above : ∀ b ∈ bound, b < i) (rest : Entries Nat (Option RecordSelection) (some i)) :
    writeEach record (.cons i child above rest) =
      ((record.fields[i]? >>= p.nameOf).elim (writeEach record rest) fun name =>
        p.field name (child.elim p.blank write) :: writeEach record rest)

section Follows

variable {p : Speller α β} {write : RecordSelection → α}
  {writeEach : {bound : Option Nat} → Schema → Entries Nat (Option RecordSelection) bound → List β}

/-- Fields are spelt one by one. -/
theorem Speller.Follows.spellEach_eq (hp : p.Follows write writeEach) {record : Schema}
    {bound : Option Nat} {fields : Entries Nat (Option RecordSelection) bound}
    (found : ∀ i, FoundAt record (fun c => c.spell p = .ok (write c)) i (fields.get? i)) :
    spellEach p record fields = .ok (writeEach record fields) := by
  induction fields with
  | nil =>
    rw [hp.nil_eq]
    rfl
  | cons i child above rest ih =>
    obtain ⟨⟨f, hf⟩, hchild, hrest⟩ := foundAt_cons found
    -- The first field is found, and then both go by whether it is spelt.
    rw [spellEach, Schema.fieldAt_eq_ok_iff.2 hf, ih hrest, hp.cons_eq, hf]
    simp only [Option.bind_some, bind, Except.bind]
    cases child with
    | none => cases p.nameOf f <;> rfl
    | some c =>
      simp only [hchild c rfl]
      cases p.nameOf f <;> rfl

/-- Where all that is named is found, the two write the same. -/
theorem Speller.Follows.spell_eq (hp : p.Follows write writeEach) {s : RecordSelection}
    (hs : s.AllFound) : s.spell p = .ok (write s) := by
  refine hs.induction (fun record => ?_) fun record fields _ found => ?_
  · rw [hp.undefined_eq]
    rfl
  · rw [spell, hp.spellEach_eq found, hp.defined_eq]
    rfl

end Follows

/-- The canonical expression, by a choice of names. -/
def renderer (nameOf : Field → Option String) : Speller (List Char) (List Char × List Char) where
  nameOf
  field name nested := (name.toList, nested)
  join := renderFields
  blank := []

/-- The selection by serialized names. -/
def namer : Speller NameSelection (String × NameSelection) where
  nameOf := Field.json
  field name nested := (name, nested)
  join fields := .defined (mergeByName fields)
  blank := .undefined

/-- Expressions are rendered field by field. -/
theorem renderer_follows (nameOf : Field → Option String) :
    (renderer nameOf).Follows (render nameOf) (renderEach nameOf) where
  undefined_eq _ := rfl
  defined_eq _ _ := rfl
  nil_eq _ _ := rfl
  -- The two matches of the writer are one, so both sides say what is done with a name if there is
  -- one.
  cons_eq record _ i child above rest := by
    show _ = (record.fields[i]? >>= nameOf).elim (renderEach nameOf record rest) fun name =>
      (name.toList, child.elim [] (render nameOf)) :: renderEach nameOf record rest
    cases child <;> simp only [renderEach] <;> cases record.fields[i]? >>= nameOf <;> rfl

/-- Selections by serialized names are collected field by field. -/
theorem namer_follows : namer.Follows byJsonName eachByJsonName where
  undefined_eq _ := rfl
  defined_eq _ _ := rfl
  nil_eq _ _ := rfl
  cons_eq record _ i child above rest := by
    show _ = (record.fields[i]? >>= Field.json).elim (eachByJsonName record rest) fun name =>
      (name, child.elim .undefined byJsonName) :: eachByJsonName record rest
    cases child <;> simp only [eachByJsonName] <;>
      cases record.fields[i]? >>= Field.json <;> rfl

/-- A selection is rendered by looking up fields that exist. -/
theorem spell_render {s : RecordSelection} (hs : s.AllFound)
    (nameOf : Field → Option String) : s.spell (renderer nameOf) = .ok (s.render nameOf) :=
  (renderer_follows nameOf).spell_eq hs

/-- A selection is named by looking up fields that exist, also where it was left open before. -/
theorem spell_toNames {s : RecordSelection} (hs : s.AllFound) :
    (s.expandNested reg []).spell namer = .ok (s.toNames reg) :=
  namer_follows.spell_eq (hs.expandNested [])

/-! ## Looking for fields -/

mutual

/-- Whether all that a query names is selected. The indices that the query names are promised to
    exist, and so are those that are selected. -/
def lookUpContained (reg : Registry) (s : RecordSelection) : RecordSelection → Except Misuse Bool
  | undefined record => .ok (s.contains reg (undefined record))
  | defined record query =>
    if s.record = record then lookUpEachContained reg s record query else .ok false
termination_by structural query => query

/-- Whether all fields of a query of a record are selected. -/
def lookUpEachContained {bound : Option Nat} (reg : Registry) (s : RecordSelection)
    (record : Schema) : Entries Nat (Option RecordSelection) bound → Except Misuse Bool
  | .nil => .ok true
  | .cons i none _ rest => do
    let _ ← record.fieldAt i
    return s.hasIndex i && (← lookUpEachContained reg s record rest)
  | .cons i (some query) _ rest => do
    let _ ← record.fieldAt i
    let here ← if s.hasIndex i then do
        match ← s.fieldSelection reg i with
        | some current =>
          if query.isUndefined then pure true else current.lookUpContained reg query
        | none => pure true
      else pure false
    return here && (← lookUpEachContained reg s record rest)
termination_by structural query => query

end

/-- Fields are looked for one by one. -/
theorem lookUpEachContained_eq {s : RecordSelection} {bound : Option Nat}
    {query : Entries Nat (Option RecordSelection) bound}
    (found : ∀ i, FoundAt s.record
      (fun q => ∀ c : RecordSelection, c.lookUpContained reg q = .ok (c.contains reg q)) i
      (query.get? i)) :
    lookUpEachContained reg s s.record query = .ok (containsEach reg s query) := by
  induction query with
  | nil => rfl
  | cons i child above rest ih =>
    obtain ⟨⟨f, hf⟩, hchild, hrest⟩ := foundAt_cons found
    have hlookup : s.record.fieldAt i = .ok f := Schema.fieldAt_eq_ok_iff.2 hf
    cases child with
    | none =>
      rw [lookUpEachContained, hlookup, ih hrest]
      rfl
    | some q =>
      -- Both look for the index first, then at what is selected there.
      rw [lookUpEachContained, hlookup, ih hrest, containsEach, fieldSelection_eq hf, hf]
      cases s.hasIndex i with
      | false => rfl
      | true =>
        cases hcurrent : s.selectionOf reg i f with
        | none => simp [hcurrent, bind, Except.bind, pure, Except.pure]
        | some current =>
          cases q.isUndefined <;>
            simp [hcurrent, hchild q rfl, bind, Except.bind, pure, Except.pure]

/-- All fields that a query names are found, and so are those that are selected. -/
theorem lookUpContained_eq {q : RecordSelection} (hq : q.AllFound) :
    ∀ s : RecordSelection, s.lookUpContained reg q = .ok (s.contains reg q) := by
  refine hq.induction (fun record s => rfl) fun record query _ found s => ?_
  rw [lookUpContained, contains]
  split
  · rename_i hrecord
    subst hrecord
    rw [lookUpEachContained_eq found, decide_eq_true rfl, Bool.true_and]
  · rename_i hrecord
    rw [decide_eq_false hrecord, Bool.false_and]

/-- Whether all that a query asks for is selected. The indices that are named by what the query is
    bound to are promised to exist. -/
def lookUpHas (reg : Registry) (s : RecordSelection) (query : Query) : Except Misuse Bool :=
  match ofQuery reg s.record query with
  | .ok q => s.lookUpContained reg q
  | .error _ => .ok false

/-- All that is looked up to find what a query asks for is there. -/
theorem lookUpHas_eq {s : RecordSelection} {query : Query}
    (hquery : ∀ q, ofQuery reg s.record query = .ok q → q.AllFound) :
    s.lookUpHas reg query = .ok (s.has reg query) := by
  rw [lookUpHas, has]
  cases hq : ofQuery reg s.record query with
  | error e => rfl
  | ok q => exact lookUpContained_eq (hquery q hq) s

/-! ## Combining selections -/

/-- The fields of a selection that one that is left open selects as well. The indices that it names
    are promised to exist. -/
def lookUpDefaults (s : RecordSelection) : Except Misuse RecordSelection :=
  match s with
  | undefined record => .ok (undefined record)
  | defined record fields => do
    let named ← (defined record fields).lookUpFields
    return defined record (Entries.ofList (named.filterMap fun (i, f, child) =>
      if record.isDefault f then some (i, child) else none))

mutual

/-- What is selected by both. The indices that the query names are promised to exist, and so are
    those of the selection where the query is left open. -/
def lookUpPick (reg : Registry) (s : RecordSelection) :
    RecordSelection → Except Misuse RecordSelection
  | undefined record => do
    s.sameRecord (undefined record)
    s.lookUpDefaults
  | defined record query => do
    s.sameRecord (defined record query)
    let _ ← (defined record query).lookUpFields
    return defined s.record (← lookUpPickEach reg (s.ensureDefined reg).entries query)
termination_by structural query => query

/-- The fields of a query that are among the given ones. -/
def lookUpPickEach {bound : Option Nat} (reg : Registry)
    (fields : OrderedMap Nat (Option RecordSelection)) :
    Entries Nat (Option RecordSelection) bound →
      Except Misuse (OrderedMap Nat (Option RecordSelection))
  | .nil => .ok .nil
  | .cons i none _ rest => do
    let picked ← lookUpPickEach reg fields rest
    match fields.get? i with
    | some current => return picked.insert i current
    | none => return picked
  | .cons i (some query) _ rest =>
    match fields.get? i with
    | some (some current) => do
      let child ← if query.isUndefined then pure current else current.lookUpPick reg query
      return (← lookUpPickEach reg fields rest).insert i (some child)
    | some none => do return (← lookUpPickEach reg fields rest).insert i none
    | none => lookUpPickEach reg fields rest
termination_by structural query => query

end

mutual

/-- The selection without what a query names. The indices that the query names are promised to
    exist. -/
def lookUpExclude (reg : Registry) (s : RecordSelection) :
    RecordSelection → Except Misuse RecordSelection
  | undefined record => do
    s.sameRecord (undefined record)
    return s
  | defined record query => do
    s.sameRecord (defined record query)
    if query.isEmpty then return s
    else
      let _ ← (defined record query).lookUpFields
      return defined s.record (← lookUpExcludeEach reg (s.ensureDefined reg).entries query)
termination_by structural query => query

/-- The given fields without those of a query. -/
def lookUpExcludeEach {bound : Option Nat} (reg : Registry)
    (fields : OrderedMap Nat (Option RecordSelection)) :
    Entries Nat (Option RecordSelection) bound →
      Except Misuse (OrderedMap Nat (Option RecordSelection))
  | .nil => .ok fields
  | .cons i none _ rest => do return (← lookUpExcludeEach reg fields rest).erase i
  | .cons i (some query) _ rest =>
    if query.isUndefined then do return (← lookUpExcludeEach reg fields rest).erase i
    else if query.isEmpty then lookUpExcludeEach reg fields rest
    else match fields.get? i with
      | some (some current) => do
        let remaining ← current.lookUpExclude reg query
        let left ← lookUpExcludeEach reg fields rest
        return if remaining.isEmpty then left.erase i else left.insert i (some remaining)
      | _ => lookUpExcludeEach reg fields rest
termination_by structural query => query

end

mutual

/-- What is named by either. The indices that the other selection names are promised to exist, and
    so are the default fields that it adds where it is left open. -/
def lookUpAssign (reg : Registry) (s : RecordSelection) :
    RecordSelection → Except Misuse RecordSelection
  | undefined record => do
    s.sameRecord (undefined record)
    match s with
    | undefined record => return undefined record
    | s => s.addExcluded reg (record.defaultFields.map Prod.fst)
  | defined record other => do
    s.sameRecord (defined record other)
    let _ ← (defined record other).lookUpFields
    return defined s.record (← lookUpAssignEach reg s.entries other)
termination_by structural other => other

/-- The given fields and those of another selection. -/
def lookUpAssignEach {bound : Option Nat} (reg : Registry)
    (fields : OrderedMap Nat (Option RecordSelection)) :
    Entries Nat (Option RecordSelection) bound →
      Except Misuse (OrderedMap Nat (Option RecordSelection))
  | .nil => .ok fields
  | .cons i none _ rest => do
    let merged ← lookUpAssignEach reg fields rest
    return if (fields.get? i).isSome then merged else merged.insert i none
  | .cons i (some other) _ rest => do
    let child ← match fields.get? i with
      | some (some current) =>
        if other.isUndefined then pure current
        else if current.isUndefined then pure other
        else current.lookUpAssign reg other
      | _ => pure other
    return (← lookUpAssignEach reg fields rest).insert i (some child)
termination_by structural other => other

end

section Combining

variable {record : Schema} {bound : Option Nat} {fields : OrderedMap Nat (Option RecordSelection)}
  {query : Entries Nat (Option RecordSelection) bound}

/-- The fields that are kept are found, and so are those that are not. -/
theorem lookUpDefaults_eq (hs : (defined record fields).AllFound) :
    (defined record fields).lookUpDefaults =
      .ok (defined record (Entries.ofList (fields.toList.filter fun (i, _) =>
        match record.fields[i]? with
        | some f => record.isDefault f
        | none => false))) := by
  rw [lookUpDefaults, lookUpFields_eq hs]
  -- Both go through the same entries: one finds the fields first and keeps some of them then.
  show Except.ok (defined record (Entries.ofList (List.filterMap _ (List.filterMap _ _)))) = _
  rw [List.filterMap_filterMap, ← List.filterMap_eq_filter]
  refine congrArg (fun kept => Except.ok (defined record (Entries.ofList kept))) ?_
  refine List.filterMap_congr fun p _ => ?_
  cases hf : record.fields[p.1]? <;> simp [RecordSelection.record, Option.guard, hf]

/-- Fields are picked one by one. A query below that is left open is not looked into, as it stands
    for the whole field. -/
theorem lookUpPickEach_eq
    (found : ∀ i, FoundAt record (fun q => q.isUndefined = false → ∀ s : RecordSelection,
      s.lookUpPick reg q = s.pick reg q) i (query.get? i)) :
    lookUpPickEach reg fields query = pickEach reg fields query := by
  induction query with
  | nil => rfl
  | cons i child above rest ih =>
    obtain ⟨-, hchild, hrest⟩ := foundAt_cons found
    cases child with
    | none =>
      cases hget : fields.get? i <;> simp only [lookUpPickEach, pickEach, ih hrest, hget]
    | some q =>
      -- At an index that is not selected, at one of a scalar field, and at one of a nested record.
      rcases hget : fields.get? i with _ | _ | current
      · simp only [lookUpPickEach, pickEach, ih hrest, hget]
      · simp only [lookUpPickEach, pickEach, ih hrest, hget]
      · cases hq : q.isUndefined with
        | true => simp only [lookUpPickEach, pickEach, ih hrest, hget, hq, if_true]
        | false => simp only [lookUpPickEach, pickEach, ih hrest, hget, hchild q rfl hq current]

/-- Fields are excluded one by one. -/
theorem lookUpExcludeEach_eq
    (found : ∀ i, FoundAt record (fun q => ∀ s : RecordSelection,
      s.lookUpExclude reg q = s.exclude reg q) i (query.get? i)) :
    lookUpExcludeEach reg fields query = excludeEach reg fields query := by
  induction query with
  | nil => rfl
  | cons i child above rest ih =>
    obtain ⟨-, hchild, hrest⟩ := foundAt_cons found
    cases child with
    | none => simp only [lookUpExcludeEach, excludeEach, ih hrest]
    | some q =>
      rcases hget : fields.get? i with _ | _ | current <;>
        simp only [lookUpExcludeEach, excludeEach, ih hrest, hget, hchild q rfl]

/-- Fields are added one by one. -/
theorem lookUpAssignEach_eq
    (found : ∀ i, FoundAt record (fun q => ∀ s : RecordSelection,
      s.lookUpAssign reg q = s.assign reg q) i (query.get? i)) :
    lookUpAssignEach reg fields query = assignEach reg fields query := by
  induction query with
  | nil => rfl
  | cons i child above rest ih =>
    obtain ⟨-, hchild, hrest⟩ := foundAt_cons found
    cases child with
    | none => simp only [lookUpAssignEach, assignEach, ih hrest]
    | some q =>
      rcases hget : fields.get? i with _ | _ | current <;>
        simp only [lookUpAssignEach, assignEach, ih hrest, hget, hchild q rfl]

/-- A query that is not left open picks what it names by looking it up. -/
theorem lookUpPick_eq_of_defined {q : RecordSelection} (hq : q.AllFound) :
    q.isUndefined = false → ∀ s : RecordSelection, s.lookUpPick reg q = s.pick reg q := by
  refine hq.induction (fun record => nofun) fun record query hq found _ s => ?_
  rw [lookUpPick, pick, lookUpPickEach_eq found, lookUpFields_eq hq]
  rfl

/-- All that is looked up to pick from a selection is found. -/
theorem lookUpPick_eq {s q : RecordSelection} (hs : s.AllFound) (hq : q.AllFound) :
    s.lookUpPick reg q = s.pick reg q := by
  -- A query is open only at the top, where the fields of the selection itself are gone through.
  cases q with
  | defined record query => exact lookUpPick_eq_of_defined hq rfl s
  | undefined record =>
    cases s with
    | undefined own => rfl
    | defined own fields =>
      simp only [lookUpPick, lookUpDefaults_eq hs]
      rfl

/-- All that is looked up to exclude fields from a selection is found. -/
theorem lookUpExclude_eq {q : RecordSelection} (hq : q.AllFound) :
    ∀ s : RecordSelection, s.lookUpExclude reg q = s.exclude reg q := by
  refine hq.induction (fun record s => rfl) fun record query hq found s => ?_
  rw [lookUpExclude, exclude, lookUpExcludeEach_eq found, lookUpFields_eq hq]
  rfl

/-- Fields of the record are added by looking them up. -/
theorem addExcluded_map_fst {s : RecordSelection} {fields : List (Nat × Field)}
    (h : ∀ p ∈ fields, s.record.fields[p.1]? = some p.2) :
    s.addExcluded reg (fields.map Prod.fst) = .ok (s.addMissing reg fields) := by
  induction fields generalizing s with
  | nil => rfl
  | cons p rest ih =>
    obtain ⟨hp, hrest⟩ := List.forall_mem_cons.1 h
    -- Adding a field leaves the record as it is, so the fields behind it are found as before.
    have hadded : (s.addMissing reg [p]).record = s.record := record_addMissing s [p]
    show (do let f ← s.record.fieldAt p.1; pure (s.addMissing reg [(p.1, f)])) >>=
      (fun t => t.addExcluded reg (rest.map Prod.fst)) = _
    rw [Schema.fieldAt_eq_ok_iff.2 hp]
    exact ih fun q hq => hadded ▸ hrest q hq

/-- All that is looked up to combine two selections is found. -/
theorem lookUpAssign_eq {q : RecordSelection} (hq : q.AllFound) :
    ∀ s : RecordSelection, s.lookUpAssign reg q = s.assign reg q := by
  refine hq.induction (fun record s => ?_) fun record query hq found s => ?_
  · cases s with
    | undefined own => rfl
    | defined own fields =>
      simp only [lookUpAssign, assign, sameRecord]
      -- Only an open query of the same record adds fields, and these are the record's own defaults.
      split
      · rename_i hsame
        cases hsame
        exact addExcluded_map_fst fun p hp => (Schema.mem_defaultFields_iff.1 hp).1
      · rfl
  · rw [lookUpAssign, assign, lookUpAssignEach_eq found, lookUpFields_eq hq]
    rfl

end Combining

end RecordSelection

/-! ## Selections in queries -/

mutual

/-- A property holds of the selections of a record that a query holds, at any depth. -/
def Query.Holds (P : RecordSelection → Prop) : Query → Prop
  | .map entries => HoldsEach P entries
  | .ofRecord s => P s
  | _ => True
termination_by structural query => query

/-- So it does of those that the queries of a map hold. -/
def Query.HoldsEach {bound : Option String} (P : RecordSelection → Prop) :
    Entries String Query bound → Prop
  | .nil => True
  | .cons _ query _ rest => query.Holds P ∧ HoldsEach P rest
termination_by structural entries => entries

end

namespace Query

mutual

/-- A sound query holds well-formed selections. -/
theorem Sound.holds : ∀ q : Query, q.Sound reg → q.Holds (·.WellFormed reg)
  | .map entries, h => SoundEach.holdsEach entries h
  | .ofRecord _, h => h
  | .open, _ | .expr _, _ | .names _, _ | .byName _, _ => trivial
termination_by structural q => q

/-- So do the queries of a map. -/
theorem SoundEach.holdsEach {bound : Option String} : ∀ entries : Entries String Query bound,
    SoundEach reg entries → HoldsEach (·.WellFormed reg) entries
  | .nil, _ => trivial
  | .cons _ query _ rest, h => ⟨Sound.holds query h.1, SoundEach.holdsEach rest h.2⟩
termination_by structural entries => entries

end

section Holds

variable {P Q : RecordSelection → Prop}

mutual

/-- What a query holds has every property that follows from one that it has. -/
theorem Holds.mono (h : ∀ s, P s → Q s) : ∀ q : Query, q.Holds P → q.Holds Q
  | .map entries, hq => HoldsEach.mono h entries hq
  | .ofRecord s, hq => h s hq
  | .open, _ | .expr _, _ | .names _, _ | .byName _, _ => trivial
termination_by structural q => q

/-- So do the queries of a map. -/
theorem HoldsEach.mono (h : ∀ s, P s → Q s) {bound : Option String} :
    ∀ entries : Entries String Query bound, HoldsEach P entries → HoldsEach Q entries
  | .nil, _ => trivial
  | .cons _ query _ rest, hq => ⟨Holds.mono h query hq.1, HoldsEach.mono h rest hq.2⟩
termination_by structural entries => entries

end

end Holds

mutual

/-- The selection by name that a query asks for. The indices that its selections of a record name
    are promised to exist. -/
def lookUpNames (reg : Registry) : Query → Except Failure NameSelection
  | .open => .ok .undefined
  | .expr text => (NameSelection.parse text : Except Error NameSelection)
  | .names ns => .ok (NameSelection.undefined.add ns)
  | .map entries => do return .defined (← lookUpEach reg entries)
  | .byName s => .ok s
  | .ofRecord s =>
    ((s.expandNested reg []).spell RecordSelection.namer : Except Misuse NameSelection)
termination_by structural q => q

/-- The selections that the queries of a map ask for. -/
def lookUpEach {bound : Option String} (reg : Registry) :
    Entries String Query bound → Except Failure (Entries String NameSelection bound)
  | .nil => .ok .nil
  | .cons name query above rest => do
    let child ← (query.lookUpNames reg).mapError (Failure.under name)
    return .cons name child above (← lookUpEach reg rest)
termination_by structural qs => qs

end

mutual

/-- The names that a query asks for are found by looking up fields that exist. -/
theorem lookUpNames_eq_of_holds : ∀ q : Query, q.Holds RecordSelection.AllFound →
    q.lookUpNames reg = liftM (q.toNames reg)
  | .open, _ => rfl
  | .expr _, _ => rfl
  | .names _, _ => rfl
  | .map entries, h => by
    rw [lookUpNames, lookUpEach_eq entries h, toNames]
    cases toNamesEach reg entries <;> rfl
  | .byName _, _ => rfl
  -- The selection that is spelt is the expanded one, which names fields only if the given one does.
  | .ofRecord s, h => by
    rw [lookUpNames, RecordSelection.spell_toNames h]
    rfl
termination_by structural q => q

/-- So are the names that the queries of a map ask for. -/
theorem lookUpEach_eq {bound : Option String} : ∀ entries : Entries String Query bound,
    HoldsEach RecordSelection.AllFound entries →
      lookUpEach reg entries = liftM (toNamesEach reg entries)
  | .nil, _ => rfl
  | .cons name query above rest, h => by
    rw [lookUpEach, lookUpNames_eq_of_holds query h.1, lookUpEach_eq rest h.2, toNamesEach]
    cases query.toNames reg with
    | error e => rfl
    | ok child => cases toNamesEach reg rest <;> rfl
termination_by structural entries => entries

end

/-- In a sound query, all fields that its selections of records name are found. -/
theorem lookUpNames_eq (q : Query) (hq : q.Sound reg) :
    q.lookUpNames reg = liftM (q.toNames reg) :=
  lookUpNames_eq_of_holds q
    (Holds.mono (fun _ => RecordSelection.WellFormed.allFound) q (Sound.holds q hq))

end Query

end FieldMask
