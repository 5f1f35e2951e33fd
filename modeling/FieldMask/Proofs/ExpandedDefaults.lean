import FieldMask.Proofs.NamingRoundTrip

/-!
# Expanding comes to an end

Expanding the default fields of a record goes on to the nested records with marked fields, and these
may lead back to the record. What makes an end of it is that the records that are being expanded are
kept on a stack, and that one of them is not expanded again. Only finitely many records can be
reached: those that are registered, and those that are declared in place.

Here this is said of the recursion itself. It is written out with a stack that is pushed to and
popped from, and gives up below a depth (`expandOnStack`). A depth that exceeds the number of
records is enough, and the stack is left as it was, so that what comes next starts from the same
stack. What is left open below a selection is spelt out on the same stack (`nestedOnStack`).

No record is expanded within itself, so that none is passed twice on a way down. What stays open
there selects what it would select if it was expanded.

## Key results

- `gives_expandOnStack` / `gives_nestedOnStack`: the recursions end, at a bounded depth
- `recordsAlong_expandWithin` / `adds_expanded`: the records on the way down
- `includes_expandWithin`: expanding a record changes no path that is selected
- `expand_exact`: the three together, for a record and below a selection
-/

namespace FieldMask

variable {reg : Registry}

/-! ## The records that can be reached -/

mutual

/-- The records that are declared within a type. -/
def FieldType.parts : FieldType → List Schema
  | .array items => items.parts
  | .map values => values.parts
  | .record schema => schema.parts
  | _ => []
termination_by structural t => t

/-- The records that are declared within the type of a field. -/
def Field.parts : Field → List Schema
  | ⟨_, _, type, _, _⟩ => type.parts
termination_by structural f => f

/-- A schema and the records that are declared within it. -/
def Schema.parts : Schema → List Schema
  | ⟨stamp, name, fields⟩ => ⟨stamp, name, fields⟩ :: Schema.partsOf fields
termination_by structural s => s

/-- The records that are declared within fields. -/
def Schema.partsOf : List Field → List Schema
  | [] => []
  | f :: rest => f.parts ++ Schema.partsOf rest
termination_by structural fs => fs

end

/-- A record, those that are registered, and those that are declared within them. -/
def Registry.recordsFrom (reg : Registry) (record : Schema) : List Schema :=
  record.parts ++ reg.records.values.flatMap Schema.parts

section Parts

variable {P : Schema → Prop}

mutual

/-- What holds of the records declared within a type holds everywhere in it. -/
theorem FieldType.everywhere_of_parts : ∀ t : FieldType, (∀ r ∈ t.parts, P r) → t.Everywhere P
  | .array items, h => FieldType.everywhere_of_parts items h
  | .map values, h => FieldType.everywhere_of_parts values h
  | .record schema, h => Schema.everywhere_of_parts schema h
  | .boolean, _ | .integer, _ | .number, _ | .string, _ | .any, _ | .ref _, _ => trivial
termination_by structural t => t

/-- What holds of the records declared within a field holds everywhere in it. -/
theorem Field.everywhere_of_parts : ∀ f : Field, (∀ r ∈ f.parts, P r) → f.Everywhere P
  | ⟨_, _, type, _, _⟩, h => FieldType.everywhere_of_parts type h
termination_by structural f => f

/-- What holds of a schema and the records that are declared within it holds everywhere in it. -/
theorem Schema.everywhere_of_parts : ∀ s : Schema, (∀ r ∈ s.parts, P r) → s.Everywhere P
  | ⟨_, _, fields⟩, h =>
    ⟨h _ List.mem_cons_self,
      Schema.eachEverywhere_of_parts fields fun r hr => h r (List.mem_cons_of_mem _ hr)⟩
termination_by structural s => s

/-- What holds of the records declared within fields holds everywhere in them. -/
theorem Schema.eachEverywhere_of_parts : ∀ fields : List Field,
    (∀ r ∈ Schema.partsOf fields, P r) → Schema.EachEverywhere P fields
  | [], _ => trivial
  | f :: rest, h =>
    ⟨Field.everywhere_of_parts f fun r hr => h r (List.mem_append_left _ hr),
      Schema.eachEverywhere_of_parts rest fun r hr => h r (List.mem_append_right _ hr)⟩
termination_by structural fs => fs

end

end Parts

/-- All records below a record are among them. -/
theorem Schema.HasBelow.mem_recordsFrom {record r : Schema} (h : Schema.HasBelow reg record r) :
    r ∈ reg.recordsFrom record := by
  -- A registered record brings all records that are declared within it.
  have hreg : reg.Everywhere (· ∈ reg.recordsFrom record) := by
    intro name s hs
    apply Schema.everywhere_of_parts
    intro part hpart
    apply List.mem_append_right
    exact List.mem_flatMap.2 ⟨s, Entries.mem_values_of_get?_eq_some hs, hpart⟩
  have hrecord : record.Everywhere (· ∈ reg.recordsFrom record) := by
    apply Schema.everywhere_of_parts
    intro part hpart
    exact List.mem_append_left _ hpart
  exact Schema.Everywhere.of_hasBelow hreg hrecord h

/-! ## Computations on a stack of records -/

/-- A computation with a stack of records. It may give up. -/
abbrev OnStack := StateT (List Schema) Option

namespace OnStack

variable {α β : Type} {outer : List Schema}

/-- Run a computation with another record on the stack. -/
def pushing (record : Schema) (x : OnStack α) : OnStack α := do
  modify (record :: ·)
  let a ← x
  modify List.tail
  return a

/-- A computation gives a result and leaves the stack as it was. -/
def Gives (outer : List Schema) (x : OnStack α) (a : α) : Prop := x.run outer = some (a, outer)

/-- What is given without computing leaves the stack alone. -/
theorem gives_pure (a : α) : Gives outer (pure a) a := rfl

/-- Computations in a row leave the stack as it was if each of them does. -/
theorem Gives.bind {x : OnStack α} {f : α → OnStack β} {a : α} {b : β} (hx : Gives outer x a)
    (hf : Gives outer (f a) b) : Gives outer (x >>= f) b := by
  have hrun : (x >>= f).run outer = x.run outer >>= fun p => (f p.1).run p.2 := rfl
  rw [Gives, hrun, show x.run outer = some (a, outer) from hx]
  exact hf

/-- What is pushed is popped again. -/
theorem Gives.pushing {record : Schema} {x : OnStack α} {a : α}
    (hx : Gives (record :: outer) x a) : Gives outer (OnStack.pushing record x) a := by
  have hrun : (OnStack.pushing record x).run outer =
      x.run (record :: outer) >>= fun p => some (p.1, p.2.tail) := rfl
  rw [Gives, hrun, show x.run (record :: outer) = some (a, record :: outer) from hx]
  rfl

/-- So do the computations for the elements of a list. -/
theorem gives_mapM {f : α → OnStack β} {g : α → β} {l : List α}
    (h : ∀ a ∈ l, Gives outer (f a) (g a)) : Gives outer (l.mapM f) (l.map g) := by
  induction l with
  | nil => exact gives_pure []
  | cons a rest ih =>
    have hrest := ih fun b hb => h b (List.mem_cons_of_mem a hb)
    rw [List.mapM_cons]
    exact (h a List.mem_cons_self).bind (hrest.bind (gives_pure _))

end OnStack

namespace RecordSelection

open OnStack (Gives pushing)

variable {root record : Schema} {outer : List Schema} {path : List Nat}

/-- The default fields of a record and of the nested records with marked fields, by a recursion that
    keeps the records it is in on a stack. It gives up below a depth. -/
def expandOnStack (reg : Registry) : Nat → Schema → OnStack RecordSelection
  | 0, _ => failure
  | depth + 1, record => do
    if record ∈ (← get) then return undefined record
    else pushing record do
      let fields ← record.defaultFields.mapM fun (i, f) => do
        match f.record reg with
        | none => return (i, none)
        | some nested =>
          if nested.hasMarkers then return (i, some (← expandOnStack reg depth nested))
          else return (i, some (undefined nested))
      return defined record (Entries.ofList fields)

mutual

/-- The selection with what is left open below its root expanded, with the records on the way down
    on the same stack. -/
def nestedOnStack (reg : Registry) (depth : Nat) : RecordSelection → OnStack RecordSelection
  | undefined record => return undefined record
  | defined record fields => pushing record do
    return defined record (← eachOnStack reg depth fields)
termination_by structural s => s

/-- The fields with what is left open in their selections expanded. -/
def eachOnStack {bound : Option Nat} (reg : Registry) (depth : Nat) :
    Entries Nat (Option RecordSelection) bound →
      OnStack (Entries Nat (Option RecordSelection) bound)
  | .nil => return .nil
  | .cons i none above rest => do return .cons i none above (← eachOnStack reg depth rest)
  | .cons i (some child) above rest => do
    let expanded ←
      if child.isUndefined then
        if child.record.hasMarkers then expandOnStack reg depth child.record else pure child
      else nestedOnStack reg depth child
    return .cons i (some expanded) above (← eachOnStack reg depth rest)
termination_by structural es => es

end

/-! ### The recursion ends -/

/-- Of some records, fewer are not on the stack once one of them has been pushed. -/
theorem length_filter_notMem_cons_lt {records : List Schema} (hmem : record ∈ records)
    (hnew : record ∉ outer) :
    (records.filter (· ∉ record :: outer)).length < (records.filter (· ∉ outer)).length := by
  have hfilter : records.filter (· ∉ record :: outer) =
      (records.filter (· ∉ outer)).filter (· ≠ record) := by
    simp [List.filter_filter]
  -- At least the record that is pushed is left out.
  rw [hfilter, List.length_filter_lt_length_iff_exists]
  exact ⟨record, by simp [hmem, hnew], by simp⟩

/-- A record is expanded if the depth exceeds the number of records that can be reached and are not
    on the stack. -/
theorem gives_expandOnStack {depth : Nat} (hrecord : Schema.HasBelow reg root record)
    (hdepth : ((reg.recordsFrom root).filter (· ∉ outer)).length < depth) :
    Gives outer (expandOnStack reg depth record) (expandInside reg outer record) := by
  -- By induction on the depth. What decreases with it is the number of records that are not on the
  -- stack.
  induction depth generalizing record outer with
  | zero => omega
  | succ depth ih =>
    rw [expandOnStack, expandInside]
    have hget : Gives outer (get : OnStack (List Schema)) outer := rfl
    apply hget.bind
    split
    -- The record is on the stack, so both leave it open.
    · exact OnStack.gives_pure _
    · rename_i hnew
      have hless := length_filter_notMem_cons_lt hrecord.mem_recordsFrom hnew
      rw [expandWithin_eq_expandedChild]
      apply Gives.pushing
      refine Gives.bind (OnStack.gives_mapM
        (g := fun p => (p.1, (p.2.record reg).map (expandedChild reg (record :: outer)))) ?_)
        (OnStack.gives_pure _)
      intro p hp
      obtain ⟨i, f⟩ := p
      cases hn : f.record reg with
      | none =>
        simp only [hn]
        exact OnStack.gives_pure _
      -- The nested record can be reached as well, and there is one record less that is not on the
      -- stack.
      | some nested =>
        have hnested : Schema.HasBelow reg root nested :=
          hrecord.tail ⟨f, Schema.mem_fields_of_mem_defaultFields hp, hn⟩
        have hchild : expandedChild reg (record :: outer) nested =
            if nested.hasMarkers then expandInside reg (record :: outer) nested
            else undefined nested := (expanded_undefined _ nested).symm
        simp only [hn, Option.map_some, hchild]
        split
        · exact (ih hnested (by omega)).bind (OnStack.gives_pure _)
        · exact OnStack.gives_pure _

mutual

/-- What is left open below a selection is expanded if the depth exceeds the number of records that
    can be reached. -/
theorem gives_nestedOnStack {depth : Nat} (hdepth : (reg.recordsFrom root).length < depth) :
    ∀ (s : RecordSelection) (outer : List Schema), Schema.HasBelow reg root s.record →
      s.WellFormed reg → Gives outer (nestedOnStack reg depth s) (s.expandNested reg outer)
  | undefined _, _, _, _ => OnStack.gives_pure _
  | defined record fields, outer, hrecord, hs =>
    Gives.pushing ((gives_eachOnStack hdepth fields (record :: outer) hrecord hs).bind
      (OnStack.gives_pure _))
termination_by structural s => s

/-- What is left open in fields of a record is expanded as well. -/
theorem gives_eachOnStack {depth : Nat} (hdepth : (reg.recordsFrom root).length < depth)
    {record : Schema} {bound : Option Nat} :
    ∀ (fields : Entries Nat (Option RecordSelection) bound) (outer : List Schema),
      Schema.HasBelow reg root record → WellFormedEach reg record fields →
      Gives outer (eachOnStack reg depth fields) (expandEach reg outer fields)
  | .nil, _, _, _ => OnStack.gives_pure _
  | .cons i none above rest, outer, hrecord, h => by
    have hrest := gives_eachOnStack hdepth rest outer hrecord (wellFormedEach_cons.1 h).2
    exact hrest.bind (OnStack.gives_pure _)
  -- With a child the cases of the definition are gone through: open and marked, open, or defined.
  | .cons i (some child) above rest, outer, hrecord, h => by
    obtain ⟨hfits, hrest⟩ := wellFormedEach_cons.1 h
    have hbelow : Schema.HasBelow reg root child.record := hrecord.tail hfits.nests
    have hchild := gives_nestedOnStack hdepth child outer hbelow hfits.child
    have hinside : Gives outer (expandOnStack reg depth child.record)
        (expandInside reg outer child.record) :=
      gives_expandOnStack hbelow ((List.length_filter_le _ _).trans_lt hdepth)
    have hrest := gives_eachOnStack hdepth rest outer hrecord hrest
    have hfields : expandEach reg outer (.cons i (some child) above rest) =
        .cons i (some (expanded reg outer child)) above (expandEach reg outer rest) := rfl
    have hcons : ∀ c : RecordSelection, Gives outer
        (do return Entries.cons i (some c) above (← eachOnStack reg depth rest))
        (Entries.cons i (some c) above (expandEach reg outer rest)) :=
      fun _ => hrest.bind (OnStack.gives_pure _)
    rw [eachOnStack, hfields, expanded]
    cases child.isUndefined with
    | true =>
      cases child.record.hasMarkers with
      | true => exact hinside.bind (hcons _)
      | false => exact (OnStack.gives_pure child).bind (hcons child)
    | false => exact hchild.bind (hcons _)
termination_by structural fields => fields

end

/-! ## No record is repeated on the way down -/

/-- The records of the selections along a path of indices, as far as these are defined. -/
def recordsAlong (s : RecordSelection) (path : List Nat) : List Schema :=
  match s, path with
  | undefined _, _ => []
  | defined record _, [] => [record]
  | defined record fields, i :: rest => record :: match fields.get? i with
    | some (some child) => child.recordsAlong rest
    | _ => []
termination_by structural path

/-- There are no records along a path where nothing is defined. -/
theorem recordsAlong_undefined (record : Schema) (path : List Nat) :
    (undefined record).recordsAlong path = [] := by
  cases path <;> rfl

/-- The records of what a field is named with. -/
def recordsBelow (found : Option (Option RecordSelection)) (path : List Nat) : List Schema :=
  match found with
  | some (some child) => child.recordsAlong path
  | _ => []

/-- A defined selection is the first one along a path. -/
theorem recordsAlong_cons {s : RecordSelection} (hs : s.isUndefined = false) (i : Nat)
    (rest : List Nat) :
    s.recordsAlong (i :: rest) = s.record :: recordsBelow (s.explicit? i) rest := by
  cases s with
  | undefined record => cases hs
  | defined record fields => rfl

/-- What is expanded is defined. -/
theorem isUndefined_expandWithin (expanding : List Schema) (record : Schema) :
    (expandWithin reg expanding record).isUndefined = false := by
  rw [expandWithin_eq]
  rfl

/-- A record is expanded to a selection of it. -/
theorem record_expandWithin (expanding : List Schema) (record : Schema) :
    (expandWithin reg expanding record).record = record :=
  (expandWithin_isOf expanding record).1

/-- What an expansion names a field with is the expansion of a nested record, or open. -/
theorem exists_eq_expandedChild {expanding : List Schema} {i : Nat} {c : RecordSelection}
    (h : (expandWithin reg expanding record).explicit? i = some (some c)) :
    ∃ nested, c = expandedChild reg expanding nested := by
  rw [expandWithin_eq_expandedChild] at h
  obtain ⟨p, -, hp⟩ := List.mem_map.1 (Entries.mem_of_get?_ofList h)
  obtain ⟨-, hchild⟩ := Prod.mk.inj hp
  obtain ⟨nested, -, hnested⟩ := Option.map_eq_some_iff.1 hchild
  exact ⟨nested, hnested.symm⟩

/-- Below a record that is expanded come records that are not being expanded further out, and no
    two are the same. -/
theorem recordsAlong_expandWithin (reg : Registry) (expanding : List Schema) (record : Schema)
    (path : List Nat) :
    ∃ added, (expandWithin reg expanding record).recordsAlong path = record :: added ∧
      added.Nodup ∧ ∀ r ∈ added, r ∉ expanding := by
  -- Along the path, each record is added to those that are being expanded.
  induction path generalizing expanding record with
  | nil => exact ⟨[], by rw [expandWithin_eq]; rfl, List.nodup_nil, by simp⟩
  | cons i rest ih =>
    rw [recordsAlong_cons (isUndefined_expandWithin expanding record), record_expandWithin]
    rcases hfield : (expandWithin reg expanding record).explicit? i with _ | _ | c
    · exact ⟨[], rfl, List.nodup_nil, by simp⟩
    · exact ⟨[], rfl, List.nodup_nil, by simp⟩
    · obtain ⟨nested, hc⟩ := exists_eq_expandedChild hfield
      have hbelow : recordsBelow (some (some c)) rest = c.recordsAlong rest := rfl
      rw [hbelow]
      -- The nested record is expanded if it is marked and is not being expanded; else it stays
      -- open.
      by_cases hmarked : nested.hasMarkers = true ∧ nested ∉ expanding
      · obtain ⟨added, hadded, hnodup, hnew⟩ := ih (nested :: expanding) nested
        rw [expandedChild, if_pos hmarked] at hc
        refine ⟨nested :: added, by rw [hc, hadded], ?_, ?_⟩
        · have hfresh : nested ∉ added := fun hmem => hnew nested hmem List.mem_cons_self
          exact List.nodup_cons.2 ⟨hfresh, hnodup⟩
        · intro r hr
          rcases List.mem_cons.1 hr with hr | hr
          · rw [hr]
            exact hmarked.2
          · exact fun hmem => hnew r hr (List.mem_cons_of_mem _ hmem)
      · rw [expandedChild, if_neg hmarked] at hc
        exact ⟨[], by rw [hc, recordsAlong_undefined], List.nodup_nil, by simp⟩

/-- To some records others are added, no two of which are the same, and none of which is one of them
    or of those around. -/
def Adds (outer before after : List Schema) : Prop :=
  ∃ added, after = before ++ added ∧ added.Nodup ∧ ∀ r ∈ added, r ∉ outer ∧ r ∉ before

/-- Nothing has to be added. -/
theorem adds_refl (outer before : List Schema) : Adds outer before before :=
  ⟨[], (List.append_nil before).symm, List.nodup_nil, by simp⟩

/-- A record around others is the first one on the way down. -/
theorem Adds.cons {before after : List Schema} (h : Adds (record :: outer) before after) :
    Adds outer (record :: before) (record :: after) := by
  obtain ⟨added, hafter, hnodup, hnew⟩ := h
  refine ⟨added, congrArg (record :: ·) hafter, hnodup, ?_⟩
  intro r hr
  obtain ⟨houter, hbefore⟩ := hnew r hr
  simp only [List.mem_cons, not_or] at houter ⊢
  exact ⟨houter.2, houter.1, hbefore⟩

/-- A nested record is left open, or expanded with the records below. -/
theorem adds_expanded_undefined (outer : List Schema) (record : Schema) (path : List Nat) :
    Adds outer [] ((expanded reg outer (undefined record)).recordsAlong path) := by
  rw [expanded_undefined, expandedChild]
  -- What is left open is expanded or not; in the second case no record follows.
  split
  · rename_i hmarked
    obtain ⟨added, hadded, hnodup, hnew⟩ :=
      recordsAlong_expandWithin reg (record :: outer) record path
    refine ⟨record :: added, hadded, ?_, ?_⟩
    · exact List.nodup_cons.2 ⟨fun hmem => hnew record hmem List.mem_cons_self, hnodup⟩
    · rw [List.forall_mem_cons]
      refine ⟨⟨hmarked.2, by simp⟩, ?_⟩
      intro r hr
      exact ⟨fun hmem => hnew r hr (List.mem_cons_of_mem _ hmem), by simp⟩
  · rw [recordsAlong_undefined]
    exact adds_refl outer []

/-- Below a selection that is spelt out come records that are neither on the way down to it nor
    around it, and no two are the same. -/
theorem adds_expanded (s : RecordSelection) (outer : List Schema) (path : List Nat) :
    Adds outer (s.recordsAlong path) ((expanded reg outer s).recordsAlong path) := by
  -- By induction on the path: a defined selection adds its record to those around.
  induction path generalizing s outer with
  | nil =>
    cases s with
    | undefined record => exact adds_expanded_undefined outer record []
    | defined record fields => exact adds_refl outer [record]
  | cons i rest ih =>
    cases s with
    | undefined record => exact adds_expanded_undefined outer record (i :: rest)
    | defined record fields =>
      have hexpanded : expanded reg outer (defined record fields) =
          defined record (expandEach reg (record :: outer) fields) := rfl
      have hfields : ∀ es, (defined record es).explicit? i = es.get? i := fun _ => rfl
      rw [hexpanded, recordsAlong_cons rfl, recordsAlong_cons rfl, hfields, hfields,
        get?_expandEach]
      apply Adds.cons
      rcases fields.get? i with _ | _ | c
      · exact adds_refl _ []
      · exact adds_refl _ []
      · exact ih c (record :: outer)

/-! ## Expanding selects nothing else -/

/-- A record that is expanded and its open selection select the same paths. -/
theorem includes_expandWithin (expanding : List Schema) (record : Schema) (path : List Nat) :
    (expandWithin reg expanding record).Includes reg path ↔
      (undefined record).Includes reg path := by
  cases path with
  | nil => exact Iff.rfl
  | cons i rest =>
    have hrecord : (expandWithin reg expanding record).record = record :=
      record_expandWithin expanding record
    cases hf : record.fields[i]? with
    | none =>
      -- Neither selects an index that is not of a field.
      have hnone : ∀ t : RecordSelection, t.record = record → ¬ t.Includes reg (i :: rest) := by
        intro t ht hincludes
        obtain ⟨f, hfield⟩ := exists_field_of_hasIndex hincludes.1
        rw [ht, hf] at hfield
        cases hfield
      exact iff_of_false (hnone _ hrecord) (hnone _ rfl)
    | some f =>
      have hf' : (expandWithin reg expanding record).record.fields[i]? = some f := by
        rw [hrecord]
        exact hf
      have hget : (expandWithin reg expanding record).explicit? i = _ :=
        explicit?_expandWithin expanding hf
      -- A field is selected by both exactly if it is one of the default fields.
      have hindex : (expandWithin reg expanding record).hasIndex i =
          (undefined record).hasIndex i := by
        rw [hasIndex_of_isUndefined_eq_false (isUndefined_expandWithin _ _) hf',
          hasIndex_undefined hf, hget]
        cases record.isDefault f <;> rfl
      rw [Includes, Includes, hindex]
      apply and_congr_right
      intro hi
      apply or_congr_right
      rw [hasIndex_undefined hf] at hi
      have hopen : (undefined record).record.fields[i]? = some f := hf
      rw [fieldSelection_eq hf', fieldSelection_eq hopen, selectionOf, hget, if_pos hi,
        Option.getD_some]
      -- The nested record is left open in the one, and spelt out or left open in the other.
      have hfull : (undefined record).selectionOf reg i f = (f.record reg).map undefined := rfl
      rw [hfull]
      cases f.record reg with
      | none => simp
      | some nested => simp [← expanded_undefined, includes_expanded]

/-! ## The expansions -/

/-- Defaults are expanded with the record on the stack. -/
theorem expandDefaults_eq (record : Schema) :
    expandDefaults reg record = expandWithin reg [record] record := by
  rw [expandDefaults, expandInside, if_neg List.not_mem_nil]

/-- No two of the records that the expansion of a record passes are the same. -/
theorem nodup_recordsAlong_expandDefaults (record : Schema) (path : List Nat) :
    ((expandDefaults reg record).recordsAlong path).Nodup := by
  obtain ⟨added, hadded, hnodup, hnew⟩ :=
    recordsAlong_expandWithin reg [record] record path
  -- The record itself is not among those below, as it is being expanded.
  rw [expandDefaults_eq, hadded, List.nodup_cons]
  exact ⟨fun hmem => hnew record hmem List.mem_cons_self, hnodup⟩

/-- What is left open below the root of a selection is spelt out with records that are not on the
    way down to it, each once. -/
theorem adds_expandNested (t : RecordSelection) (path : List Nat) :
    Adds [] (t.recordsAlong path) ((t.expandNested reg []).recordsAlong path) := by
  cases t with
  | undefined record => exact adds_refl [] _
  | defined record fields => exact adds_expanded (defined record fields) [] path

/-- Expanding comes to an end, also where records contain themselves: it goes no deeper than there
    are records that can be reached, and leaves the stack as it was. On the way down it passes no
    record twice, and it changes no path that is selected. So it is with a record, and with what is
    left open below the root of a selection. -/
theorem expand_exact (reg : Registry) :
    (∀ record : Schema,
      (∀ depth > (reg.recordsFrom record).length,
        (expandOnStack reg depth record).run [] = some (expandDefaults reg record, [])) ∧
      (∀ path, ((expandDefaults reg record).recordsAlong path).Nodup) ∧
      ∀ path, (expandDefaults reg record).Includes reg path ↔
        (undefined record).Includes reg path) ∧
    ∀ t : RecordSelection, t.WellFormed reg →
      (∀ depth > (reg.recordsFrom t.record).length,
        (nestedOnStack reg depth t).run [] = some (t.expandNested reg [], [])) ∧
      (∀ path, Adds [] (t.recordsAlong path) ((t.expandNested reg []).recordsAlong path)) ∧
      ∀ path, (t.expandNested reg []).Includes reg path ↔ t.Includes reg path := by
  constructor
  · intro record
    refine ⟨?_, nodup_recordsAlong_expandDefaults record, ?_⟩
    · intro depth hdepth
      apply gives_expandOnStack .refl
      exact (List.length_filter_le _ _).trans_lt hdepth
    · intro path
      rw [expandDefaults_eq]
      exact includes_expandWithin [record] record path
  · intro t ht
    refine ⟨?_, adds_expandNested t, includes_expandNested t⟩
    intro depth hdepth
    -- Nothing is on the stack at first, so that all records that can be reached count.
    exact gives_nestedOnStack hdepth t [] .refl ht

/-- A folder has a parent by default, which is a folder again. Three steps down are enough for what
    is left open below the root of a drive, and the names further up stay selected. -/
theorem expand_exact_rootOfDrive :
    ((expandDefaults Registry.ofFolder Schema.folder).recordsAlong [1, 1]).Nodup ∧
      (nestedOnStack Registry.ofFolder 3 rootOfDrive).run [] =
        some (rootOfDrive.expandNested Registry.ofFolder [], []) ∧
      (rootOfDrive.expandNested Registry.ofFolder []).Includes Registry.ofFolder [0, 1, 1, 0] := by
  obtain ⟨hrecord, hbelow⟩ := expand_exact Registry.ofFolder
  obtain ⟨hends, -, hincludes⟩ := hbelow rootOfDrive wellFormed_rootOfDrive
  refine ⟨(hrecord Schema.folder).2.1 [1, 1], hends 3 (by decide), (hincludes _).2 ?_⟩
  exact ⟨rfl, .inr ⟨_, rfl, rfl, .inr ⟨_, rfl, rfl, .inr ⟨_, rfl, rfl, .inl rfl⟩⟩⟩⟩

end RecordSelection

end FieldMask
