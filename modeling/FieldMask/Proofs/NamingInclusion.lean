import FieldMask.Proofs.PathInvariant
import FieldMask.Proofs.ProjectionMonotone
import Mathlib.Logic.Relation

/-!
# What a selection takes by name

A selection of a record, turned into one by serialized names, is meant to take the paths that it
selected. By name an open selection takes everything, so an open selection of a record with marked
fields is spelt out first. One of a record without any stays open. That is all of its fields, but
if there are records with marked fields further down, not all of theirs: there more is taken by name
than was selected.

## Key results

- `explicit?_expanded`: what a selection that is spelt out names
- `hasPath_expanded`: what is taken of it by a path of names
- `hasPath_toNames_of_markedOutward`: where exactly what was selected is taken
- `toNames_hasPath`: what is taken otherwise
-/

namespace FieldMask

variable {reg : Registry}

/-! ## Nested records -/

namespace Schema

/-- A record has a field with the other one as its nested record. -/
def Nests (reg : Registry) (r next : Schema) : Prop := ∃ f ∈ r.fields, f.record reg = some next

/-- Another record is nested in a record at any depth, or is the record itself. -/
def HasBelow (reg : Registry) : Schema → Schema → Prop := Relation.ReflTransGen (Nests reg)

/-- No record below contains itself, and in each all fields are serialized, under different
    names. -/
structure Nameable (reg : Registry) (record : Schema) : Prop where
  acyclic : ∀ r, HasBelow reg record r → ¬ Relation.TransGen (Nests reg) r r
  serialized : ∀ r, HasBelow reg record r → ∀ f ∈ r.fields, f.json ≠ none
  distinct : ∀ r, HasBelow reg record r → r.NamesDistinct

/-- A field with a nested record nests that record in its own. -/
theorem Nests.of_field {record next : Schema} {i : Nat} {f : Field}
    (hf : record.fields[i]? = some f) (hr : f.record reg = some next) : Nests reg record next :=
  ⟨f, List.mem_of_getElem? hf, hr⟩

/-- A nested record is nameable if the record around it is: what is below it is below both. -/
theorem Nameable.nested {record next : Schema} (h : record.Nameable reg)
    (hn : Nests reg record next) : next.Nameable reg where
  acyclic r hr := h.acyclic r (.head hn hr)
  serialized r hr := h.serialized r (.head hn hr)
  distinct r hr := h.distinct r (.head hn hr)

/-- Each field of a nameable record has a serialized name. -/
theorem Nameable.json_eq {record : Schema} (h : record.Nameable reg) {i : Nat} {f : Field}
    (hf : record.fields[i]? = some f) : ∃ name, f.json = some name :=
  Option.ne_none_iff_exists'.1 (h.serialized record .refl f (List.mem_of_getElem? hf))

/-- A record is not among those that it is nested in. -/
theorem Nameable.not_mem {record : Schema} (h : record.Nameable reg) {outer : List Schema}
    (houter : ∀ o ∈ outer, Relation.TransGen (Nests reg) o record) : record ∉ outer :=
  fun hmem => h.acyclic record .refl (houter record hmem)

/-- What holds of a record and those below it, in place or registered, holds of all below. -/
theorem Everywhere.of_hasBelow {P : Schema → Prop} (hreg : reg.Everywhere P) {s r : Schema}
    -- All records on the way down have the property everywhere, by induction on the way.
    (hs : s.Everywhere P) (h : HasBelow reg s r) : P r := by
  have hr : r.Everywhere P := by
    induction h with
    | refl => exact hs
    | tail _ hn ih =>
      obtain ⟨f, hf, hrecord⟩ := hn
      exact ih.record hreg hf hrecord
  exact (everywhere_iff.1 hr).1

/-- A record with a name has the name at one index only. -/
theorem NamesDistinct.index_eq {s : Schema} (h : s.NamesDistinct) {i j : Nat} {f g : Field}
    {name : String} (hf : s.fields[i]? = some f) (hg : s.fields[j]? = some g)
    (hfn : f.json = some name) (hgn : g.json = some name) : i = j := by
  have hpair := List.pairwise_iff_getElem.1 (List.pairwise_filterMap.1 h)
  -- Of two fields at different indices, the one ahead would have a name that the other one has not.
  obtain ⟨hi, rfl⟩ := List.getElem?_eq_some_iff.1 hf
  obtain ⟨hj, rfl⟩ := List.getElem?_eq_some_iff.1 hg
  rcases Nat.lt_trichotomy i j with hlt | heq | hlt
  · exact absurd rfl (hpair i j hi hj hlt name hfn name hgn)
  · exact heq
  · exact absurd rfl (hpair j i hj hi hlt name hgn name hfn)

end Schema

namespace RecordSelection

/-- A selection of a field is one of a nested record. -/
theorem Fits.nests {record : Schema} {i : Nat} {c : RecordSelection}
    (h : Fits reg record i (some c)) : Schema.Nests reg record c.record := by
  obtain ⟨f, hf, hrecord⟩ := h.suits
  exact .of_field hf hrecord.symm

/-! ## Fields by name -/

/-- Without two of one name there is nothing to merge. -/
theorem mergeByName_eq_ofList {pairs : List (String × NameSelection)}
    (h : (pairs.map Prod.fst).Nodup) : mergeByName pairs = Entries.ofList pairs := by
  induction pairs using List.reverseRecOn with
  | nil => rfl
  | append_singleton init last ih =>
    obtain ⟨name, child⟩ := last
    rw [List.map_append, List.nodup_append] at h
    obtain ⟨hinit, -, hnew⟩ := h
    -- The last name is new.
    have hnone : (Entries.ofList init).get? name = none := by
      refine Option.eq_none_iff_forall_ne_some.2 fun x hx => ?_
      exact hnew name (List.mem_map_of_mem (Entries.mem_of_get?_ofList hx)) name (by simp) rfl
    rw [mergeByName, List.foldl_append, ← mergeByName, ih hinit]
    simp only [List.foldl_cons, List.foldl_nil, hnone]
    rw [Entries.ofList, Entries.ofList, List.foldl_append]
    rfl

/-- The serialized names of fields, with what is selected of them. -/
theorem eachByJsonName_eq {record : Schema} {bound : Option Nat}
    -- By induction on the entries, as the other one is a list function over them.
    (fields : Entries Nat (Option RecordSelection) bound) :
    eachByJsonName record fields = fields.toList.filterMap fun p =>
      (record.fields[p.1]? >>= Field.json).map fun name =>
        (name, p.2.elim .undefined byJsonName) := by
  induction fields with
  | nil => rfl
  | cons i child above rest ih =>
    rw [Entries.toList_cons, List.filterMap_cons, ← ih]
    -- Spelt or not, and with a nested selection or not, the first entry is what the list function
    -- gives.
    cases child <;> simp only [eachByJsonName] <;>
      cases record.fields[i]? >>= Field.json <;> rfl

/-- The serialized names are those of the fields that are named, with what is selected of them. -/
theorem mem_eachByJsonName_iff {record : Schema} {bound : Option Nat}
    {fields : Entries Nat (Option RecordSelection) bound} {name : String} {x : NameSelection} :
    (name, x) ∈ eachByJsonName record fields ↔ ∃ i child f, fields.get? i = some child ∧
      record.fields[i]? = some f ∧ f.json = some name ∧ x = child.elim .undefined byJsonName := by
  rw [eachByJsonName_eq, List.mem_filterMap]
  constructor
  · rintro ⟨⟨i, child⟩, hmem, h⟩
    obtain ⟨name', hname, heq⟩ := Option.map_eq_some_iff.1 h
    obtain ⟨f, hf, hjson⟩ := Option.bind_eq_some_iff.1 hname
    cases heq
    exact ⟨i, child, f, Entries.mem_toList_iff_get?_eq_some.1 hmem, hf, hjson, rfl⟩
  · rintro ⟨i, child, f, hget, hf, hjson, rfl⟩
    refine ⟨(i, child), Entries.mem_toList_iff_get?_eq_some.2 hget, ?_⟩
    simp only [hf, Option.bind_eq_bind, Option.bind_some, hjson, Option.map_some]

/-- Where the serialized names of fields differ, so do those of what is selected. -/
theorem nodup_eachByJsonName {record : Schema} (h : record.NamesDistinct) {bound : Option Nat}
    (fields : Entries Nat (Option RecordSelection) bound) :
    ((eachByJsonName record fields).map Prod.fst).Nodup := by
  rw [eachByJsonName_eq, List.map_filterMap, List.Nodup, List.pairwise_filterMap]
  have hkeys : fields.toList.Pairwise fun p q => p.1 ≠ q.1 :=
    List.pairwise_map.1 (Entries.nodup_keys fields)
  -- Fields at different indices have different names.
  refine hkeys.imp fun {p q} hne name hp name' hq heq => ?_
  simp only [Option.map_map, Option.map_eq_some_iff, Option.bind_eq_bind,
    Option.bind_eq_some_iff] at hp hq
  obtain ⟨a, ⟨f, hf, hfn⟩, rfl⟩ := hp
  obtain ⟨b, ⟨g, hg, hgn⟩, rfl⟩ := hq
  have hab : a = b := heq
  exact hne (h.index_eq hf hg (hab ▸ hfn) hgn)

@[simp] theorem isUndefined_byJsonName (s : RecordSelection) :
    s.byJsonName.isUndefined = s.isUndefined := by
  cases s <;> rfl

/-- What is selected by the serialized name of a field is what is selected of the field. -/
theorem field?_byJsonName {s : RecordSelection} (h : s.record.NamesDistinct) {i : Nat} {f : Field}
    {name : String} (hf : s.record.fields[i]? = some f) (hname : f.json = some name) :
    s.byJsonName.field? name =
      (s.explicit? i).map fun child => child.elim .undefined byJsonName := by
  cases s with
  | undefined record => rfl
  | defined record fields =>
    have hnodup : ((eachByJsonName record fields).map Prod.fst).Nodup :=
      nodup_eachByJsonName h fields
    show (byJsonName (defined record fields)).field? name = (fields.get? i).map _
    rw [byJsonName, NameSelection.field?, NameSelection.fields, mergeByName_eq_ofList hnodup]
    refine Option.ext fun x => ?_
    -- A name that is found is that of one field, so what is found is its entry.
    rw [Entries.get?_ofList_eq_some_iff hnodup, mem_eachByJsonName_iff, Option.map_eq_some_iff]
    constructor
    · rintro ⟨j, child, g, hget, hg, hgn, rfl⟩
      obtain rfl := h.index_eq hf hg hname hgn
      exact ⟨child, hget, rfl⟩
    · rintro ⟨child, hget, rfl⟩
      exact ⟨i, child, f, hget, hf, hname, rfl⟩

/-! ## Spelling out what is left open -/

/-- A nested record is spelt out in the same way whether or not the record around it was. -/
theorem expanded_undefined (outer : List Schema) (record : Schema) :
    expanded reg outer (undefined record) = expandedChild reg outer record := by
  have heq : expanded reg outer (undefined record) =
      if record.hasMarkers then expandInside reg outer record else undefined record := rfl
  rw [heq, expandedChild]
  by_cases hmarkers : record.hasMarkers = true <;> by_cases houter : record ∈ outer <;>
    simp [hmarkers, houter, expandInside]

/-- A record that is spelt out names its default fields. -/
theorem explicit?_expandWithin (expanding : List Schema) {record : Schema} {i : Nat} {f : Field}
    (hf : record.fields[i]? = some f) :
    (expandWithin reg expanding record).explicit? i =
      if record.isDefault f then some ((f.record reg).map (expandedChild reg expanding))
      else none := by
  rw [expandWithin_eq_expandedChild]
  -- The entries are those of the default fields, and each of them has its own index.
  refine Option.ext fun child => ?_
  rw [explicit?, entries, Entries.get?_ofList_eq_some_iff, List.mem_map]
  swap
  · -- Each index occurs once.
    rw [List.map_map]
    exact record.nodup_defaultFields
  constructor
  · rintro ⟨⟨j, g⟩, hmem, heq⟩
    obtain ⟨hg, hdefault⟩ := Schema.mem_defaultFields_iff.1 hmem
    cases heq
    cases hf.symm.trans hg
    rw [if_pos hdefault]
  · intro h
    split at h
    · rename_i hdefault
      cases h
      exact ⟨(i, f), Schema.mem_defaultFields_iff.2 ⟨hf, hdefault⟩, rfl⟩
    · cases h

/-- A selection is left open and is not spelt out, since its record has no marked fields. -/
def StaysOpen (s : RecordSelection) : Prop := s.isUndefined = true ∧ s.record.hasMarkers = false

/-- What stays open is not spelt out. -/
theorem expanded_of_staysOpen {s : RecordSelection} (h : s.StaysOpen) (outer : List Schema) :
    expanded reg outer s = s := by
  rw [expanded, if_pos h.1, h.2]
  rfl

/-- A selection is otherwise spelt out: it names the fields that are selected, with what is
    selected of them spelt out in turn. -/
theorem explicit?_expanded {s : RecordSelection} (hs : ¬ s.StaysOpen) {outer : List Schema}
    (hnew : s.isUndefined = true → s.record ∉ outer) :
    (expanded reg outer s).isUndefined = false ∧ (expanded reg outer s).record = s.record ∧
      ∀ i f, s.record.fields[i]? = some f → (expanded reg outer s).explicit? i =
        if s.hasIndex i then
          some ((s.selectionOf reg i f).map (expanded reg (s.record :: outer)))
        else none := by
  cases s with
  | undefined record =>
    -- Left open and not staying open, the record has marked fields.
    have hmarkers : record.hasMarkers = true := by
      by_contra hnone
      exact hs ⟨rfl, Bool.eq_false_iff.2 hnone⟩
    have heq : expanded reg outer (undefined record) =
        expandWithin reg (record :: outer) record := by
      rw [expanded_undefined, expandedChild, if_pos ⟨hmarkers, hnew rfl⟩]
    rw [heq]
    refine ⟨by rw [expandWithin_eq]; rfl, (expandWithin_isOf _ record).1, ?_⟩
    intro i f (hf : record.fields[i]? = some f)
    have hfull : (undefined record).selectionOf reg i f = (f.record reg).map undefined := rfl
    have hchild : expanded reg (record :: outer) ∘ undefined =
        expandedChild reg (record :: outer) := funext (expanded_undefined (record :: outer))
    rw [hasIndex_undefined hf, hfull, Option.map_map]
    exact (explicit?_expandWithin (record :: outer) hf).trans (by rw [← hchild]; rfl)
  | defined record fields =>
    refine ⟨rfl, rfl, fun i f hf => ?_⟩
    have hindex : (defined record fields).hasIndex i = fields.contains i := by
      rw [hasIndex, hf]
    -- A defined selection is spelt out entry by entry.
    show (expandEach reg (record :: outer) fields).get? i = _
    rw [get?_expandEach, hindex, Entries.contains, selectionOf]
    show _ = if (fields.get? i).isSome = true then
      some (((fields.get? i).getD (fullChild reg f)).map (expanded reg (record :: outer))) else none
    cases fields.get? i <;> rfl

end RecordSelection

/-! ## Paths by name -/

/-- The serialized names of the fields along indices that lead somewhere from a record. -/
inductive Spells (reg : Registry) : Schema → List Nat → List String → Prop where
  | nil (record : Schema) : Spells reg record [] []
  | last {record : Schema} {i : Nat} {f : Field} {name : String}
      (found : record.fields[i]? = some f) (leaf : f.record reg = none)
      (spelt : f.json = some name) : Spells reg record [i] [name]
  | cons {record next : Schema} {i : Nat} {f : Field} {name : String} {rest : List Nat}
      {names : List String} (found : record.fields[i]? = some f)
      (nested : f.record reg = some next) (spelt : f.json = some name)
      (more : Spells reg next rest names) : Spells reg record (i :: rest) (name :: names)

/-- They are the serialized names of the path. -/
theorem Spells.jsonNames_eq {record : Schema} {path : List Nat} {names : List String}
    (h : Spells reg record path names) :
    (RecordPath.mk record path none).jsonNames reg = .ok (some names) := by
  induction h with
  | nil record => rfl
  | last found leaf spelt =>
    simp only [RecordPath.jsonNames, RecordPath.walk, RecordPath.walkFrom_of_leaf found leaf, bind,
      Except.bind, pure, Except.pure]
    rw [List.mapM_cons, spelt]
    rfl
  | cons found nested spelt more ih =>
    obtain ⟨steps, hsteps, hnames⟩ := bind_eq_ok_iff.1 ih
    simp only [RecordPath.walk] at hsteps
    simp only [RecordPath.jsonNames, RecordPath.walk, RecordPath.walkFrom_of_nested found nested,
      hsteps, bind, Except.bind, pure, Except.pure]
    rw [List.mapM_cons, spelt, Except.ok.inj hnames]
    rfl

/-- Where all fields are serialized, indices that lead somewhere have serialized names. -/
theorem Leads.exists_spells {record : Schema} {path : List Nat} {target : Option Schema}
    (h : Leads reg record path target) (hrecord : record.Nameable reg) :
    ∃ names, Spells reg record path names := by
  induction h with
  | nil record => exact ⟨[], .nil record⟩
  | last found leaf =>
    obtain ⟨name, hname⟩ := hrecord.json_eq found
    exact ⟨[name], .last found leaf hname⟩
  | cons found nested more ih =>
    obtain ⟨name, hname⟩ := hrecord.json_eq found
    obtain ⟨names, hnames⟩ := ih (hrecord.nested (.of_field found nested))
    exact ⟨name :: names, .cons found nested hname hnames⟩

namespace RecordSelection

/-- A path goes on from a selected field whose selection stays open. -/
def PassesOpen (reg : Registry) (s : RecordSelection) (path : List Nat) : Prop :=
  ∃ front rest part, path = front ++ rest ∧ rest ≠ [] ∧ s.Includes reg front ∧
    RecordPath.selectionAlong reg s front = .ok (some part) ∧ part.StaysOpen

/-- No path of no steps goes on. -/
theorem not_passesOpen_nil (s : RecordSelection) : ¬ s.PassesOpen reg [] := by
  rintro ⟨front, rest, part, heq, hrest, -⟩
  exact hrest (List.append_eq_nil_iff.1 heq.symm).2

/-- A path goes on from a selection that stays open, or does so further down. -/
theorem passesOpen_cons_iff {s : RecordSelection} {i : Nat} {rest : List Nat} :
    s.PassesOpen reg (i :: rest) ↔ s.StaysOpen ∨ s.hasIndex i = true ∧
      ∃ child, s.fieldSelection reg i = .ok (some child) ∧ child.PassesOpen reg rest := by
  constructor
  -- By the length of the front: none of it, or a first step that is that of the path.
  · rintro ⟨front, behind, part, heq, hbehind, hincludes, halong, hopen⟩
    cases front with
    | nil =>
      -- It is this selection that stays open.
      cases halong
      exact .inl hopen
    | cons j front =>
      cases heq
      obtain ⟨hi, hmore⟩ := hincludes
      obtain ⟨child?, hchild, halong⟩ := bind_eq_ok_iff.1 halong
      cases child? with
      | none => cases halong
      | some child =>
        refine .inr ⟨hi, child, hchild, front, behind, part, rfl, hbehind, ?_, halong, hopen⟩
        obtain rfl | ⟨child', hchild', hincludes⟩ := hmore
        · trivial
        · rw [hchild] at hchild'
          cases hchild'
          exact hincludes
  · rintro (hopen | ⟨hi, child, hchild, hpasses⟩)
    · exact ⟨[], i :: rest, s, rfl, List.cons_ne_nil i rest, trivial, rfl, hopen⟩
    · obtain ⟨front, behind, part, rfl, hbehind, hincludes, halong, hopen⟩ := hpasses
      -- One more step in front of what goes on is selected as well.
      have hfront : s.Includes reg (i :: front) := ⟨hi, .inr ⟨child, hchild, hincludes⟩⟩
      refine ⟨i :: front, behind, part, rfl, hbehind, hfront, ?_, hopen⟩
      rw [RecordPath.selectionAlong, hchild]
      exact halong

/-- Of a selection that is spelt out, a path is selected or goes on from what stays open if that
    is so of the rest, in what is selected of its first field. -/
theorem includes_or_passesOpen_cons_iff {s : RecordSelection} (hs : ¬ s.StaysOpen) {i : Nat}
    {rest : List Nat} :
    s.Includes reg (i :: rest) ∨ s.PassesOpen reg (i :: rest) ↔ s.hasIndex i = true ∧
      (rest = [] ∨ ∃ child, s.fieldSelection reg i = .ok (some child) ∧
        (child.Includes reg rest ∨ child.PassesOpen reg rest)) := by
  rw [Includes, passesOpen_cons_iff, or_iff_right hs, ← and_or_left, or_assoc, ← exists_or]
  simp only [and_or_left]

/-- From what stays open, every path of names is taken. -/
theorem hasPath_of_staysOpen {s : RecordSelection} (hs : s.StaysOpen) (outer : List Schema)
    (names : List String) : (expanded reg outer s).byJsonName.hasPath names = true := by
  rw [expanded_of_staysOpen hs]
  cases names with
  | nil => rfl
  | cons name rest => rw [NameSelection.hasPath, isUndefined_byJsonName, hs.1, Bool.true_or]

/-- A path of names goes on in what is selected of its first field. -/
theorem hasPath_cons_iff {s : RecordSelection} (hs : ¬ s.StaysOpen) {outer : List Schema}
    (hnew : s.record ∉ outer) (hdistinct : s.record.NamesDistinct) {i : Nat} {f : Field}
    (hf : s.record.fields[i]? = some f) {name : String} (hname : f.json = some name)
    (names : List String) :
    (expanded reg outer s).byJsonName.hasPath (name :: names) = true ↔ s.hasIndex i = true ∧
      (((s.selectionOf reg i f).map (expanded reg (s.record :: outer))).elim
        NameSelection.undefined byJsonName).hasPath names = true := by
  -- What is spelt out names what is selected, and a name leads to one field of it only.
  obtain ⟨hdefined, hrecord, hexplicit⟩ := @explicit?_expanded reg s hs outer fun _ => hnew
  rw [← hrecord] at hdistinct
  rw [NameSelection.hasPath, isUndefined_byJsonName, hdefined, Bool.false_or,
    field?_byJsonName hdistinct (hrecord ▸ hf) hname, hexplicit i f hf]
  by_cases hi : s.hasIndex i = true <;> simp [hi]

/-- What is taken by name of a selection that is spelt out is what is selected, or goes on from
    what stays open. -/
theorem hasPath_expanded {record : Schema} {path : List Nat} {names : List String}
    (hnames : Spells reg record path names) (hrecord : record.Nameable reg) {s : RecordSelection}
    (hs : IsOf reg record s) {outer : List Schema}
    (houter : ∀ o ∈ outer, Relation.TransGen (Schema.Nests reg) o record) :
    (expanded reg outer s).byJsonName.hasPath names = true ↔
      s.Includes reg path ∨ s.PassesOpen reg path := by
  -- Along the names, each record around has the present one below it. There are no cycles, so the
  -- present one is not among them and is spelt out where it is left open.
  have hnew : record ∉ outer := hrecord.not_mem houter
  have hdistinct : record.NamesDistinct := hrecord.distinct record .refl
  induction hnames generalizing s outer with
  | nil record => exact iff_of_true rfl (.inl trivial)
  | @last record i f name found leaf spelt =>
    obtain ⟨rfl, -⟩ := hs
    by_cases hopen : s.StaysOpen
    · exact iff_of_true (hasPath_of_staysOpen hopen outer _)
        (.inr (passesOpen_cons_iff.2 (.inl hopen)))
    · rw [hasPath_cons_iff hopen hnew hdistinct found spelt, includes_or_passesOpen_cons_iff hopen]
      simp [NameSelection.hasPath]
  | @cons record next i f name rest names found nested spelt more ih =>
    obtain ⟨rfl, hwell⟩ := hs
    by_cases hopen : s.StaysOpen
    · exact iff_of_true (hasPath_of_staysOpen hopen outer _)
        (.inr (passesOpen_cons_iff.2 (.inl hopen)))
    · obtain ⟨hchildren, hwell'⟩ := hwell.selectionOf found
      rw [nested] at hchildren
      obtain ⟨child, hchild, rfl⟩ := Option.map_eq_some_iff.1 hchildren
      -- The nested record is below all those that are around it.
      have hnests : Schema.Nests reg s.record child.record := .of_field found nested
      have houter' : ∀ o ∈ s.record :: outer,
          Relation.TransGen (Schema.Nests reg) o child.record := by
        intro o ho
        obtain rfl | ho := List.mem_cons.1 ho
        · exact .single hnests
        · exact (houter o ho).tail hnests
      have hnext := hrecord.nested hnests
      have hrest := ih hnext ⟨rfl, hwell' child hchild⟩ houter' (hnext.not_mem houter')
        (hnext.distinct _ .refl)
      -- At the end of the path, the nested selection is selected anyway.
      have hnil : rest = [] → child.Includes reg rest ∨ child.PassesOpen reg rest := by
        rintro rfl
        exact .inl trivial
      rw [hasPath_cons_iff hopen hnew hdistinct found spelt, includes_or_passesOpen_cons_iff hopen,
        fieldSelection_eq found, hchild]
      simp only [Option.map_some, Option.elim_some, Except.ok.injEq, Option.some.injEq,
        exists_eq_left', hrest, or_iff_right_of_imp hnil]

/-! ## What is taken by name -/

/-- What is taken of a defined selection by a path of names is what is selected, or goes on from a
    selection that stays open. -/
theorem hasPath_toNames_of_spells {t : RecordSelection} (ht : t.WellFormed reg)
    (hdefined : t.isUndefined = false) (hrecord : t.record.Nameable reg) {path : List Nat}
    {names : List String} (hnames : Spells reg t.record path names) :
    (t.toNames reg).hasPath names = true ↔ t.Includes reg path ∨ t.PassesOpen reg path := by
  have hexpanded : t.expandNested reg [] = expanded reg [] t := by
    rw [expanded, hdefined]
    rfl
  rw [toNames, hexpanded]
  exact hasPath_expanded hnames hrecord ⟨rfl, ht⟩ nofun

/-! ### Where nothing is widened -/

/-- Only records with marked fields have nested records with marked fields. -/
def MarkedOutward (reg : Registry) (record : Schema) : Prop :=
  ∀ r next, Schema.HasBelow reg record r → Schema.Nests reg r next → next.hasMarkers = true →
    r.hasMarkers = true

/-- What is said of all records below a record is said of those below a nested one. -/
theorem MarkedOutward.nested {record next : Schema} (h : MarkedOutward reg record)
    (hn : Schema.Nests reg record next) : MarkedOutward reg next :=
  fun r next' hr => h r next' (.head hn hr)

/-- A selection that is left open selects all that is below, if there are no marked fields. -/
theorem includes_undefined_of_markedOutward {record : Schema} {path : List Nat}
    {target : Option Schema} (hpath : Leads reg record path target)
    (hmarked : MarkedOutward reg record) (hmarkers : record.hasMarkers = false) :
    (undefined record).Includes reg path := by
  have hindex : ∀ {r : Schema} {i : Nat} {f : Field}, r.hasMarkers = false →
      r.fields[i]? = some f → (undefined r).hasIndex i = true := by
    intro r i f hr hf
    rw [hasIndex_undefined hf, Schema.isDefault, hr]
    rfl
  induction hpath with
  | nil record => trivial
  -- A record without marked fields selects all fields when it is left open.
  | @last record i f found leaf => exact ⟨hindex hmarkers found, .inl rfl⟩
  | @cons record next i f rest target found nested more ih =>
    have hnests : Schema.Nests reg record next := .of_field found nested
    -- Without marked fields around it, the nested record has none either.
    have hnext : next.hasMarkers = false := by
      refine Bool.eq_false_iff.2 fun hnext => ?_
      rw [hmarked record next .refl hnests hnext] at hmarkers
      cases hmarkers
    have hsel : (undefined record).fieldSelection reg i = .ok (some (undefined next)) := by
      rw [fieldSelection_eq (s := undefined record) found]
      exact congrArg (fun r : Option Schema => Except.ok (r.map undefined)) nested
    exact ⟨hindex hmarkers found, .inr ⟨_, hsel, ih (hmarked.nested hnests) hnext⟩⟩

/-- What stays open selects all that is below, if there are no marked fields there. -/
theorem includes_of_staysOpen {s : RecordSelection} {path : List Nat} {target : Option Schema}
    (hpath : Leads reg s.record path target) (hmarked : MarkedOutward reg s.record)
    (hopen : s.StaysOpen) : s.Includes reg path := by
  cases s with
  | undefined record => exact includes_undefined_of_markedOutward hpath hmarked hopen.2
  | defined record fields => cases hopen.1

/-- What goes on from a selection that stays open is selected. -/
theorem includes_of_passesOpen {record : Schema} {path : List Nat} {target : Option Schema}
    (hpath : Leads reg record path target) (hmarked : MarkedOutward reg record)
    {s : RecordSelection} (hs : IsOf reg record s) (h : s.PassesOpen reg path) :
    s.Includes reg path := by
  induction hpath generalizing s with
  | nil record => trivial
  | @last record i f found leaf =>
    obtain ⟨rfl, -⟩ := hs
    -- The path ends at this field, so it can only go on from the selection itself.
    obtain hopen | ⟨-, child, -, hnone⟩ := passesOpen_cons_iff.1 h
    · exact includes_of_staysOpen (.last found leaf) hmarked hopen
    · exact absurd hnone (not_passesOpen_nil child)
  | @cons record next i f rest target found nested more ih =>
    obtain ⟨rfl, hwell⟩ := hs
    obtain hopen | ⟨hi, child, hchild, hrest⟩ := passesOpen_cons_iff.1 h
    · exact includes_of_staysOpen (.cons found nested more) hmarked hopen
    -- Further down it is the selection of the field, which is one of the nested record.
    · have hsel : s.selectionOf reg i f = some child :=
        Except.ok.inj ((fieldSelection_eq found).symm.trans hchild)
      obtain ⟨hrecord, hwell'⟩ := hwell.selectionOf found
      rw [hsel, nested] at hrecord
      have hof : IsOf reg next child := ⟨Option.some.inj hrecord, hwell' child hsel⟩
      have hmarked' := hmarked.nested (.of_field found nested)
      exact ⟨hi, .inr ⟨child, hchild, ih hmarked' hof hrest⟩⟩

/-- What is taken by name of a defined selection is what is selected, where only records with
    marked fields have nested records with marked fields. -/
theorem hasPath_toNames_of_markedOutward {t : RecordSelection} (ht : t.WellFormed reg)
    (hdefined : t.isUndefined = false) (hrecord : t.record.Nameable reg)
    (hmarked : MarkedOutward reg t.record) {path : List Nat} {target : Option Schema}
    (hpath : Leads reg t.record path target) {names : List String}
    (hnames : Spells reg t.record path names) :
    (t.toNames reg).hasPath names = true ↔ t.Includes reg path := by
  rw [hasPath_toNames_of_spells ht hdefined hrecord hnames]
  exact or_iff_left_of_imp (includes_of_passesOpen hpath hmarked ⟨rfl, ht⟩)

end RecordSelection

/-! ### A selection that is left open too far out -/

namespace Schema

/-- Without registered records, nested ones are declared in place and make no cycles. -/
theorem nameable_empty {record : Schema}
    (h : record.Everywhere fun r => (∀ f ∈ r.fields, f.json ≠ none) ∧ r.NamesDistinct) :
    record.Nameable Registry.empty := by
  -- A record is larger than those nested in it, which rules out cycles.
  have hlt : ∀ {r next : Schema}, Nests Registry.empty r next → sizeOf next < sizeOf r := by
    rintro r next ⟨f, hf, hr⟩
    exact (Field.mem_values_or_sizeOf_lt hf hr).resolve_left (by nofun)
  have hbelow : ∀ {r next : Schema}, Relation.TransGen (Nests Registry.empty) r next →
      sizeOf next < sizeOf r := by
    intro r next hn
    induction hn with
    | single hn => exact hlt hn
    | tail _ hn ih => exact Nat.lt_trans (hlt hn) ih
  have hreg : Registry.empty.Everywhere
      fun r => (∀ f ∈ r.fields, f.json ≠ none) ∧ r.NamesDistinct := nofun
  exact ⟨fun r _ hr => Nat.lt_irrefl _ (hbelow hr), fun r hr => (h.of_hasBelow hreg hr).1,
    fun r hr => (h.of_hasBelow hreg hr).2⟩

/-- A point with one coordinate that is selected by default. -/
def point : Schema where
  stamp := 1
  name := "Point"
  fields := [(Field.of "x" .integer).marked, .of "y" .integer]

/-- A shape without marked fields around such a point. -/
def shape : Schema where
  stamp := 2
  name := "Shape"
  fields := [.of "center" (.record point)]

/-- A drawing of a shape. -/
def drawing : Schema where
  stamp := 3
  name := "Drawing"
  fields := [.of "shape" (.record shape)]

/-- All fields of a drawing and of what is in it are serialized under different names. -/
theorem nameable_drawing : drawing.Nameable Registry.empty := by
  have hpoint : point.Everywhere fun r => (∀ f ∈ r.fields, f.json ≠ none) ∧ r.NamesDistinct :=
    ⟨by decide, trivial, trivial, trivial⟩
  have hshape : shape.Everywhere fun r => (∀ f ∈ r.fields, f.json ≠ none) ∧ r.NamesDistinct :=
    ⟨by decide, hpoint, trivial⟩
  exact nameable_empty ⟨by decide, hshape, trivial⟩

end Schema

namespace RecordSelection

/-- The shape of a drawing, left open. -/
def shapeOfDrawing : RecordSelection :=
  (empty Schema.drawing).put 0 (some (undefined Schema.shape))

/-- The selection of the shape fits its field. -/
theorem wellFormed_shapeOfDrawing : shapeOfDrawing.WellFormed Registry.empty :=
  ⟨⟨_, rfl, rfl⟩, trivial, trivial⟩

/-- The path leads from the drawing to a coordinate of the center. -/
theorem leads_drawing : Leads Registry.empty Schema.drawing [0, 0, 1] none :=
  .cons rfl rfl (.cons rfl rfl (.last rfl rfl))

/-- A coordinate of the center is not selected by default. -/
theorem not_includes_shapeOfDrawing : ¬ shapeOfDrawing.Includes Registry.empty [0, 0, 1] := by
  -- Along the path, the selections of the shape and of its center are left open.
  rintro ⟨-, hnil | ⟨shape, hshape, -, hnil | ⟨center, hcenter, hy, -⟩⟩⟩
  · cases hnil
  · cases hnil
  · cases hshape
    cases hcenter
    exact absurd hy (by decide)

/-- Of a selection of a record without cycles, whose fields are all serialized under different
    names, what is taken by name is what is selected, or goes on from a selection that is left open
    because its record has no marked fields. -/
theorem toNames_hasPath {t : RecordSelection} (ht : t.WellFormed reg)
    (hdefined : t.isUndefined = false) (hrecord : t.record.Nameable reg) {path : List Nat}
    {target : Option Schema} (hpath : Leads reg t.record path target) :
    ∃ names, (RecordPath.mk t.record path none).jsonNames reg = .ok (some names) ∧
      ((t.toNames reg).hasPath names = true ↔ t.Includes reg path ∨ t.PassesOpen reg path) := by
  obtain ⟨names, hnames⟩ := hpath.exists_spells hrecord
  exact ⟨names, hnames.jsonNames_eq, hasPath_toNames_of_spells ht hdefined hrecord hnames⟩

/-- By name it is taken nevertheless. -/
theorem toNames_shapeOfDrawing_widened :
    shapeOfDrawing.WellFormed Registry.empty ∧ shapeOfDrawing.isUndefined = false ∧
      Schema.drawing.Nameable Registry.empty ∧
      Leads Registry.empty Schema.drawing [0, 0, 1] none ∧
      (RecordPath.mk Schema.drawing [0, 0, 1] none).jsonNames Registry.empty =
        .ok (some ["shape", "center", "y"]) ∧
      (shapeOfDrawing.toNames Registry.empty).hasPath ["shape", "center", "y"] = true ∧
      ¬ shapeOfDrawing.Includes Registry.empty [0, 0, 1] :=
  ⟨wellFormed_shapeOfDrawing, rfl, Schema.nameable_drawing, leads_drawing, rfl, rfl,
    not_includes_shapeOfDrawing⟩

/-- So the way to it goes on from a selection that stays open. -/
theorem toNames_hasPath_shapeOfDrawing :
    (RecordPath.mk Schema.drawing [0, 0, 1] none).jsonNames Registry.empty =
        .ok (some ["shape", "center", "y"]) ∧
      shapeOfDrawing.PassesOpen Registry.empty [0, 0, 1] := by
  obtain ⟨names, hnames, hiff⟩ := toNames_hasPath (t := shapeOfDrawing) wellFormed_shapeOfDrawing
    rfl Schema.nameable_drawing leads_drawing
  have heq : names = ["shape", "center", "y"] := by
    cases hnames
    rfl
  subst heq
  exact ⟨hnames, (hiff.1 rfl).resolve_left not_includes_shapeOfDrawing⟩

end RecordSelection

end FieldMask
