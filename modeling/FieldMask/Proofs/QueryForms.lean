import FieldMask.Proofs.ExpressionRoundTrip
import FieldMask.Query

/-!
# Forms of a query

One and the same selection can be asked for in several ways: it is left open, spelt as an
expression, given by a list of names or by a map of names, and in a map each selection is written in
any of these ways again. `Writing` is what is common to queries and to JSON data that is written so.
How a selection is written makes no difference for what is read: not the form, and not the order or
the repetition of names in a list.

Open and empty selections are kept apart in each form. What is left open is written as nothing,
which differs from a list or a map without a name.

## Key results

- `Writing.ofValue_toData`: data is read as the query that is written in the same way
- `NameSelection.field?_add`: what a list of names selects
- `Writes.toNames_toQuery`: what a query is read as that a selection is written as
- `toNames_written`: all ways to write a selection are read as the selection
-/

namespace FieldMask

/-- A way to write a selection. -/
inductive Writing where
  | open
  | expr (text : String)
  | names (list : List String)
  | map (entries : Entries String Writing none)

namespace Writing

/-! ## Queries and data -/

mutual

/-- The query that is written so. -/
def toQuery : Writing → Query
  | .open => .open
  | .expr text => .expr text
  | .names list => .names list
  | .map entries => .map (toQueryEach entries)
termination_by structural w => w

/-- The queries that are written so. -/
def toQueryEach {bound : Option String} :
    Entries String Writing bound → Entries String Query bound
  | .nil => .nil
  | .cons name w above rest => .cons name w.toQuery above (toQueryEach rest)
termination_by structural ws => ws

end

mutual

/-- The JSON data that is written so: `null`, a text, an array of texts, or an object. -/
def toData : Writing → Value
  | .open => .null
  | .expr text => .string text
  | .names list => .array (list.map .string)
  | .map entries => .object (toDataEach entries)
termination_by structural w => w

/-- The values of an object that is written so. -/
def toDataEach {bound : Option String} :
    Entries String Writing bound → Entries String Value bound
  | .nil => .nil
  | .cons name w above rest => .cons name w.toData above (toDataEach rest)
termination_by structural ws => ws

end

/-- An array of texts lists these. -/
theorem namesOfItems_map_string (list : List String) :
    Query.namesOfItems (list.map .string) = .ok list := by
  induction list with
  | nil => rfl
  | cons name rest ih =>
    rw [List.map_cons, Query.namesOfItems, ih]
    rfl

mutual

/-- Data is read as the query that is written in the same way. -/
theorem ofValue_toData : ∀ w : Writing, Query.ofValue w.toData = .ok w.toQuery
  | .open => rfl
  | .expr _ => rfl
  | .names list => by
    rw [toData, Query.ofValue, namesOfItems_map_string]
    rfl
  | .map entries => by
    rw [toData, Query.ofValue, ofEntries_toDataEach entries]
    rfl
termination_by structural w => w

/-- The members of an object are read as the queries that are written in the same way. -/
theorem ofEntries_toDataEach {bound : Option String} :
    ∀ ws : Entries String Writing bound, Query.ofEntries (toDataEach ws) = .ok (toQueryEach ws)
  | .nil => rfl
  | .cons name w above rest => by
    rw [toDataEach, Query.ofEntries, ofValue_toData w, ofEntries_toDataEach rest]
    rfl
termination_by structural ws => ws

end

end Writing

namespace NameSelection

/-! ## Lists of names -/

/-- Adding names selects them, those that are not selected yet in full. -/
theorem field?_add (s : NameSelection) (list : List String) (name : String) :
    (s.add list).field? name =
      if name ∈ list then some ((s.field? name).getD undefined) else s.field? name := by
  -- Whatever is named before, the names are added one by one.
  have hfields : ∀ m : OrderedMap String NameSelection, ((defined m).add list).field? name =
      if name ∈ list then some ((m.get? name).getD undefined) else m.get? name := by
    induction list with
    | nil => exact fun m => rfl
    | cons first rest ih =>
      intro m
      show ((defined (if m.contains first then m else m.insert first undefined)).add rest).field?
        name = _
      rw [ih, Entries.contains_eq_isSome_get?]
      by_cases hfirst : first = name
      · subst hfirst
        -- A name that is there already stays with what it has, and only a new one is put in.
        cases hget : m.get? first <;> simp [hget]
      · cases m.get? first <;> simp [hfirst, Ne.symm hfirst, Entries.get?_insert]
  exact hfields s.fields

/-- A selection of names in full is what adding these names, in any order and any number of times,
    makes of an open one. -/
theorem undefined_add_eq {fields : OrderedMap String NameSelection} {list : List String}
    (full : ∀ name child, fields.get? name = some child → child = undefined)
    (listed : ∀ name, name ∈ list ↔ ∃ child, fields.get? name = some child) :
    undefined.add list = defined fields := by
  -- Maps with the same entries are the same, in whatever order these were put in.
  refine congrArg defined (Entries.ext_get? fun name => ?_)
  have hadd := field?_add undefined list name
  show (undefined.add list).field? name = fields.get? name
  rw [hadd]
  cases hget : fields.get? name with
  | none =>
    have hnot : name ∉ list := fun h => by
      obtain ⟨child, hchild⟩ := (listed name).1 h
      rw [hget] at hchild
      cases hchild
    rw [if_neg hnot]
    rfl
  | some child =>
    -- In full is what the name is added with.
    rw [if_pos ((listed name).2 ⟨child, hget⟩), full name child hget]
    rfl

/-! ## Ways to write a selection -/

mutual

/-- The selection written down plainly: nothing where it is left open, and else a map. -/
def plain : NameSelection → Writing
  | undefined => .open
  | defined fields => .map (plainEach fields)
termination_by structural s => s

/-- The selections of a map written down plainly. -/
def plainEach {bound : Option String} :
    Entries String NameSelection bound → Entries String Writing bound
  | .nil => .nil
  | .cons name s above rest => .cons name s.plain above (plainEach rest)
termination_by structural es => es

end

end NameSelection

mutual

/-- A selection may be written in a way. It is given as nothing or as a map, or by its expression
    if its names can be spelt, or by a list of its names if all of them are selected in full. -/
inductive Writes : NameSelection → Writing → Prop
  | open : Writes .undefined .open
  | expr {s : NameSelection} (spellable : s.Spellable) : Writes s (.expr s.expr)
  | names {fields : OrderedMap String NameSelection} {list : List String}
      (full : ∀ name child, fields.get? name = some child → child = .undefined)
      (listed : ∀ name, name ∈ list ↔ ∃ child, fields.get? name = some child) :
      Writes (.defined fields) (.names list)
  | map {fields : OrderedMap String NameSelection} {entries : OrderedMap String Writing}
      (each : WritesEach fields entries) : Writes (.defined fields) (.map entries)

/-- The selections of a map may be written in a way, each under its name. -/
inductive WritesEach : {bound : Option String} → Entries String NameSelection bound →
    Entries String Writing bound → Prop
  | nil {bound : Option String} : WritesEach (.nil : Entries String NameSelection bound) .nil
  | cons {bound : Option String} {name : String} {s : NameSelection} {w : Writing}
      {above : ∀ b ∈ bound, b < name} {rest : Entries String NameSelection (some name)}
      {more : Entries String Writing (some name)} (first : Writes s w)
      (others : WritesEach rest more) :
      WritesEach (.cons name s above rest) (.cons name w above more)

end

mutual

/-- To write a selection down plainly is one of the ways, whatever its names are. -/
theorem writes_plain : ∀ s : NameSelection, Writes s s.plain
  | .undefined => .open
  | .defined fields => .map (writesEach_plain fields)
termination_by structural s => s

/-- Each selection of a map is written plainly. -/
theorem writesEach_plain {bound : Option String} :
    ∀ es : Entries String NameSelection bound, WritesEach es (NameSelection.plainEach es)
  | .nil => .nil
  | .cons _ s _ rest => .cons (writes_plain s) (writesEach_plain rest)
termination_by structural es => es

end

/-- What a list of names selects is written by every list of the same names. -/
theorem writes_add {list list' : List String} (h : ∀ name, name ∈ list ↔ name ∈ list') :
    Writes (NameSelection.undefined.add list') (.names list) := by
  have hadd := NameSelection.field?_add .undefined list'
  refine .names (fun name child hget => ?_) fun name => ?_
  -- What a list of names selects is selected in full, and it is selected if it is listed.
  · have hfield := (hadd name).symm.trans hget
    split at hfield
    · cases hfield
      rfl
    · cases hfield
  · rw [h name]
    constructor
    · intro hmem
      exact ⟨.undefined, (hadd name).trans (if_pos hmem)⟩
    · rintro ⟨child, hget⟩
      have hfield := (hadd name).symm.trans hget
      split at hfield
      · assumption
      · cases hfield

/-! ## What is read -/

section

variable (reg : Registry)

mutual

-- The induction is on the way: an expression or a list ends it, and a map goes on in its entries.
/-- Whatever way a selection is written in, the query is read as the selection. -/
theorem Writes.toNames_toQuery : ∀ {s : NameSelection} (w : Writing), Writes s w →
    w.toQuery.toNames reg = .ok s
  | _, .open, h => by
    cases h
    rfl
  | _, .expr text, h => by
    cases h with
    | expr spellable => exact NameSelection.parse_expr spellable
  | _, .names list, h => by
    cases h with
    | names full listed => exact congrArg Except.ok (NameSelection.undefined_add_eq full listed)
  | _, .map entries, h => by
    cases h with
    | map each =>
      rw [Writing.toQuery, Query.toNames, WritesEach.toNamesEach_toQueryEach entries each]
      rfl
termination_by structural _ w => w

/-- Each query of a map is read as the selection that it writes. -/
theorem WritesEach.toNamesEach_toQueryEach {bound : Option String} :
    ∀ {es : Entries String NameSelection bound} (ws : Entries String Writing bound),
      WritesEach es ws → Query.toNamesEach reg (Writing.toQueryEach ws) = .ok es
  | _, .nil, h => by
    cases h
    rfl
  | _, .cons name w above rest, h => by
    cases h with
    | cons first others =>
      rw [Writing.toQueryEach, Query.toNamesEach, Writes.toNames_toQuery w first,
        WritesEach.toNamesEach_toQueryEach rest others]
      rfl
termination_by structural _ ws => ws

end

/-- All ways to write a selection are read as the selection, from a query and from JSON data: in
    particular to write it down plainly. -/
theorem toNames_written (t : NameSelection) :
    (t.plain.toQuery.toNames reg = .ok t ∧
      (Query.ofValue t.plain.toData >>= Query.toNames reg) = .ok t) ∧
    ∀ w, Writes t w → w.toQuery.toNames reg = .ok t ∧
      (Query.ofValue w.toData >>= Query.toNames reg) = .ok t := by
  have hread : ∀ w, Writes t w → w.toQuery.toNames reg = .ok t ∧
      (Query.ofValue w.toData >>= Query.toNames reg) = .ok t := by
    intro w hw
    have hquery := Writes.toNames_toQuery reg w hw
    refine ⟨hquery, ?_⟩
    -- The data is read as this query first.
    rw [Writing.ofValue_toData]
    exact hquery
  exact ⟨hread t.plain (writes_plain t), hread⟩

end

/-! ### A list and an expression in a map -/

/-- A selection of an author by two names, and of no field of a note. -/
def NameSelection.namesOfAuthor : NameSelection :=
  (empty.set "author" (undefined.add ["First", "Last"])).set "note" empty

/-- It is written as an object, with the names in an array and the note as an expression. -/
def Writing.namesOfAuthor : Writing :=
  .map (.cons "author" (.names ["Last", "First", "Last"]) nofun
    (.cons "note" (.expr NameSelection.empty.expr) (by decide) .nil))

/-- The object is read as the selection. -/
theorem toNames_written_namesOfAuthor :
    (Query.ofValue Writing.namesOfAuthor.toData >>= Query.toNames .empty) =
      .ok NameSelection.namesOfAuthor := by
  have hauthor : Writes (NameSelection.undefined.add ["First", "Last"])
      (.names ["Last", "First", "Last"]) := writes_add fun name => by simp; tauto
  have hnote : Writes .empty (.expr NameSelection.empty.expr) := .expr trivial
  exact ((toNames_written .empty NameSelection.namesOfAuthor).2 Writing.namesOfAuthor
    (.map (.cons hauthor (.cons hnote .nil)))).2

end FieldMask
