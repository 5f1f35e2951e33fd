import FieldMask.Proofs.BindingPaths
import FieldMask.Proofs.FieldwiseAlgebra

/-!
# The errors of binding

A selection by name is bound to a record if nothing in it is at fault. A node of it is the selection
that is named at the end of declared fields with nested records. It is at fault if it names what its
record does not declare, `__typename` aside, or if it is one of a field without a nested record and
is not left open. Nothing is reached below a name that is not declared.

Of several faults the one is reported that is visited first: the fields of a node are visited in the
order of their names, each with all that is below it, and the node itself comes after them. So all
names that a node should not have are reported together, and only if nothing below it is at fault.
The path of an error holds the declared names of fields, whichever name they are selected by.

## Key results

- `faultAt_iff`: the faults of a selection are its own and those of its fields
- `Reports.bind`: computations in a row report the faults of the first one, then of the second one
- `ofNames_reports`: binding reports the fault that is visited first
- `ofNames_exact`: what can be bound, and the error of what cannot
-/

namespace FieldMask

open RecordSelection (ofNames ofNamesEach typename)

variable {reg : Registry}

/-! ## Nodes and their faults -/

namespace NameSelection

/-- Names lead from a selection of a record to a node in it, through fields with nested records. The
    declared names of these fields are the path to the node. -/
inductive Reaches (reg : Registry) :
    Schema → NameSelection → List String → List String → Schema → NameSelection → Prop where
  | here (record : Schema) (s : NameSelection) : Reaches reg record s [] [] record s
  | step {record next r : Schema} {s child node : NameSelection} {name : String} {i : Nat}
      {f : Field} {names path : List String} (named : s.field? name = some child)
      (found : record.lookup? name = some (i, f)) (nested : f.record reg = some next)
      (more : Reaches reg next child names path r node) :
      Reaches reg record s (name :: names) (f.name :: path) r node

/-- The names of a selection that a record does not declare, in their order. `__typename` may be
    selected on any record. -/
def undeclared (record : Schema) (s : NameSelection) : List String :=
  s.names.filter fun name => (record.lookup? name).isNone && name != typename

/-- A node is at fault, given by the names that lead to it, with an error. -/
inductive FaultAt (reg : Registry) (record : Schema) (s : NameSelection) :
    List String → Error → Prop where
  /-- There are names that its record does not declare. -/
  | unrecognized {names path : List String} {r : Schema} {node : NameSelection}
      (reached : Reaches reg record s names path r node) (unknown : undeclared r node ≠ []) :
      FaultAt reg record s names ⟨path, .unrecognizedFields (undeclared r node)⟩
  /-- There is nothing to select from, and it is not left open. -/
  | notFragmentable {names path : List String} {r : Schema} {node child : NameSelection}
      {name : String} {i : Nat} {f : Field} (reached : Reaches reg record s names path r node)
      (named : node.field? name = some child) (found : r.lookup? name = some (i, f))
      (leaf : f.record reg = none) (closed : child.isUndefined = false) :
      FaultAt reg record s (names ++ [name])
        ⟨path ++ [f.name], .notFragmentable f.name child.expr⟩

/-- At each node that is reached, each name is that of a field, or it is `__typename` and stands for
    none. The selection of a field without a nested record is left open. -/
def Resolvable (reg : Registry) (record : Schema) (s : NameSelection) : Prop :=
  ∀ names path r node, Reaches reg record s names path r node →
    ∀ name child, node.field? name = some child →
      (r.lookup? name = none ∧ name = typename) ∨
        ∃ i f, r.lookup? name = some (i, f) ∧ (f.record reg = none → child.isUndefined = true)

/-- The names of a selection are those under which it has a field. -/
theorem mem_names_iff {s : NameSelection} {name : String} :
    name ∈ s.names ↔ ∃ child, s.field? name = some child := by
  constructor
  · intro h
    obtain ⟨⟨key, child⟩, hmem, hkey⟩ := List.mem_map.1 h
    cases hkey
    exact ⟨child, Entries.mem_toList_iff_get?_eq_some.1 hmem⟩
  · rintro ⟨child, hchild⟩
    exact List.mem_map_of_mem (Entries.mem_toList_iff_get?_eq_some.2 hchild)

/-- An undeclared name is one of the selection, is not found in the record, and is not `__typename`.
    -/
theorem mem_undeclared_iff {record : Schema} {s : NameSelection} {name : String} :
    name ∈ undeclared record s ↔
      (∃ child, s.field? name = some child) ∧ record.lookup? name = none ∧ name ≠ typename := by
  rw [undeclared, List.mem_filter, mem_names_iff]
  simp

/-- A selection can be resolved if it has no faults. -/
theorem resolvable_iff {record : Schema} {s : NameSelection} :
    Resolvable reg record s ↔ ∀ names e, ¬ FaultAt reg record s names e := by
  constructor
  -- A fault contradicts what the node is known to resolve to.
  · intro h names e hfault
    cases hfault with
    | unrecognized reached unknown =>
      obtain ⟨name, hname⟩ := List.exists_mem_of_ne_nil _ unknown
      obtain ⟨⟨child, hchild⟩, hnone, htypename⟩ := mem_undeclared_iff.1 hname
      obtain ⟨-, heq⟩ | ⟨i, f, hf, -⟩ := h _ _ _ _ reached name child hchild
      · exact htypename heq
      · cases hnone.symm.trans hf
    | notFragmentable reached named found leaf closed =>
      obtain ⟨hnone, -⟩ | ⟨i, f, hf, hopen⟩ := h _ _ _ _ reached _ _ named
      · cases hnone.symm.trans found
      · cases found.symm.trans hf
        rw [hopen leaf] at closed
        cases closed
  -- Conversely a name that does not resolve would make a fault, of one kind or the other.
  · intro h names path r node reached name child named
    cases hlookup : r.lookup? name with
    | none =>
      refine .inl ⟨rfl, ?_⟩
      by_contra htypename
      have hname := mem_undeclared_iff.2 ⟨⟨child, named⟩, hlookup, htypename⟩
      exact h _ _ (.unrecognized reached (List.ne_nil_of_mem hname))
    | some found =>
      refine .inr ⟨found.1, found.2, rfl, ?_⟩
      intro leaf
      by_contra hclosed
      exact h _ _ (.notFragmentable reached named hlookup leaf (Bool.eq_false_iff.2 hclosed))

/-- A field is at fault, itself or in what is below it. -/
def FieldFaultAt (reg : Registry) (record : Schema) (name : String) (child : NameSelection)
    (names : List String) (e : Error) : Prop :=
  ∃ i f e', record.lookup? name = some (i, f) ∧ e = e'.under f.name ∧
    ((f.record reg = none ∧ child.isUndefined = false ∧ names = [] ∧
        e' = .of (.notFragmentable f.name child.expr)) ∨
      ∃ next, f.record reg = some next ∧ FaultAt reg next child names e')

/-- The faults of a selection are its own and those of its fields. -/
theorem faultAt_iff {record : Schema} {s : NameSelection} {names : List String} {e : Error} :
    FaultAt reg record s names e ↔
      (names = [] ∧ undeclared record s ≠ [] ∧
          e = .of (.unrecognizedFields (undeclared record s))) ∨
        ∃ name child rest, s.field? name = some child ∧ names = name :: rest ∧
          FieldFaultAt reg record name child rest e := by
  constructor
  · intro h
    -- The first step of the way to the node decides whether the fault is below a field.
    cases h with
    | unrecognized reached unknown =>
      cases reached with
      | here => exact .inl ⟨rfl, unknown, rfl⟩
      | step named found nested more =>
        exact .inr ⟨_, _, _, named, rfl, _, _, _, found, rfl,
          .inr ⟨_, nested, .unrecognized more unknown⟩⟩
    | notFragmentable reached named found leaf closed =>
      cases reached with
      | here =>
        exact .inr ⟨_, _, _, named, rfl, _, _, _, found, rfl, .inl ⟨leaf, closed, rfl, rfl⟩⟩
      | step named' found' nested' more =>
        exact .inr ⟨_, _, _, named', rfl, _, _, _, found', rfl,
          .inr ⟨_, nested', .notFragmentable more named found leaf closed⟩⟩
  · rintro (⟨rfl, hunknown, rfl⟩ | ⟨name, child, rest, hchild, rfl, i, f, e', hf, rfl, hfault⟩)
    · exact .unrecognized (.here record s) hunknown
    · obtain ⟨hleaf, hclosed, rfl, rfl⟩ | ⟨next, hnext, hfault⟩ := hfault
      · exact .notFragmentable (.here record s) hchild hf hleaf hclosed
      · cases hfault with
        | unrecognized reached unknown =>
          exact .unrecognized (.step hchild hf hnext reached) unknown
        | notFragmentable reached named found leaf closed =>
          exact .notFragmentable (.step hchild hf hnext reached) named found leaf closed

/-- At one node there is one fault. -/
theorem FaultAt.unique {record : Schema} {s : NameSelection} {names : List String} {e e' : Error}
    -- By induction on the names that lead to the node.
    (h : FaultAt reg record s names e) (h' : FaultAt reg record s names e') : e = e' := by
  induction names generalizing record s e e' with
  | nil =>
    obtain ⟨-, -, rfl⟩ | ⟨name, child, rest, -, hnil, -⟩ := faultAt_iff.1 h
    · obtain ⟨-, -, rfl⟩ | ⟨name, child, rest, -, hnil, -⟩ := faultAt_iff.1 h'
      · rfl
      · cases hnil
    · cases hnil
  | cons name rest ih =>
    obtain ⟨hnil, -⟩ | ⟨_, child, _, hchild, heq, i, f, cause, hf, rfl, hfault⟩ := faultAt_iff.1 h
    · cases hnil
    cases heq
    obtain ⟨hnil, -⟩ | ⟨_, child', _, hchild', heq, i', f', cause', hf', rfl, hfault'⟩ :=
      faultAt_iff.1 h'
    · cases hnil
    cases heq
    cases hchild.symm.trans hchild'
    cases hf.symm.trans hf'
    -- Whether the field has a nested record tells which kind of fault it is.
    obtain ⟨hleaf, -, -, rfl⟩ | ⟨next, hnext, hfault⟩ := hfault
    · obtain ⟨-, -, -, rfl⟩ | ⟨next, hnext, -⟩ := hfault'
      · rfl
      · cases hleaf.symm.trans hnext
    · obtain ⟨hleaf, -⟩ | ⟨next', hnext', hfault'⟩ := hfault'
      · cases hleaf.symm.trans hnext
      · cases hnext.symm.trans hnext'
        rw [ih hfault hfault']

end NameSelection

/-! ## The order of visiting -/

/-- A node is visited before another one, each given by the names that lead to it: nodes come before
    the one that they are below, and otherwise the first names that differ decide. -/
inductive VisitedBefore : List String → List String → Prop where
  | deeper (name : String) (rest : List String) : VisitedBefore (name :: rest) []
  | earlier {name other : String} (rest rest' : List String) (lt : name < other) :
      VisitedBefore (name :: rest) (other :: rest')
  | within (name : String) {rest rest' : List String} (before : VisitedBefore rest rest') :
      VisitedBefore (name :: rest) (name :: rest')

/-- No node is visited both before and after another one. -/
theorem VisitedBefore.asymm {a b : List String} (h : VisitedBefore a b) : ¬ VisitedBefore b a := by
  induction h with
  | deeper name rest =>
    intro h
    cases h
  | earlier rest rest' lt =>
    intro h
    cases h with
    | earlier _ _ gt => exact Std.lt_irrefl (Std.lt_trans lt gt)
    | within _ _ => exact Std.lt_irrefl lt
  | within name _ ih =>
    intro h
    cases h with
    | earlier _ _ lt => exact Std.lt_irrefl lt
    | within _ before => exact ih before

/-- An error is that of the node which is visited first, of all that are at fault. -/
def FirstVisited (faults : List String → Error → Prop) (e : Error) : Prop :=
  ∃ first, faults first e ∧ ∀ names e', faults names e' → names = first ∨ VisitedBefore first names

/-- There is one node that is visited first. -/
theorem FirstVisited.unique {faults : List String → Error → Prop} {e e' : Error}
    (hunique : ∀ names e e', faults names e → faults names e' → e = e')
    (h : FirstVisited faults e) (h' : FirstVisited faults e') : e = e' := by
  obtain ⟨first, hfault, hfirst⟩ := h
  obtain ⟨first', hfault', hfirst'⟩ := h'
  -- Each of the two is visited no later than the other, so they are at the same node.
  rcases hfirst first' e' hfault' with rfl | hbefore
  · exact hunique _ _ _ hfault hfault'
  · rcases hfirst' first e hfault with rfl | hbefore'
    · exact hunique _ _ _ hfault hfault'
    · exact absurd hbefore' hbefore.asymm

/-! ## Computations that report faults -/

section Reports

variable {α β : Type} {P Q : List String → Error → Prop} {x : Except Error α}

/-- A computation succeeds if there are no faults, and otherwise fails with the one that is visited
    first. -/
def Reports (faults : List String → Error → Prop) : Except Error α → Prop
  | .ok _ => ∀ names e, ¬ faults names e
  | .error e => FirstVisited faults e

/-- Faults that are described in another way are reported all the same. -/
theorem Reports.congr (h : Reports P x) (hiff : ∀ names e, P names e ↔ Q names e) :
    Reports Q x := by
  have heq : P = Q := by
    funext names e
    exact propext (hiff names e)
  rwa [← heq]

/-- Two computations in a row, if all faults of the first one are visited before those of the
    second one. -/
theorem Reports.bind {f : α → Except Error β} (hx : Reports P x)
    (hf : ∀ a, x = .ok a → Reports Q (f a))
    (hbefore : ∀ names e names' e', P names e → Q names' e' → VisitedBefore names names') :
    Reports (fun names e => P names e ∨ Q names e) (x >>= f) := by
  cases x with
  | error e =>
    -- The first computation fails: its first fault comes before all of the second one.
    obtain ⟨first, hfault, hfirst⟩ := hx
    refine ⟨first, .inl hfault, ?_⟩
    rintro names e' (hP | hQ)
    · exact hfirst names e' hP
    · exact .inr (hbefore first e names e' hfault hQ)
  | ok a =>
    have hnone : ∀ names e, ¬ P names e := hx
    refine (hf a rfl).congr fun names e => ?_
    rw [or_iff_right (hnone names e)]

/-- What is done at last with a result is not at fault. -/
theorem Reports.bind_pure (hx : Reports P x) (g : α → β) :
    Reports P (x >>= fun a => pure (g a)) := by
  cases x with
  | error e => exact hx
  | ok a => exact hx

/-- Faults are reported as seen from an enclosing field. -/
theorem Reports.within (field : String) (hx : Reports P x) :
    Reports (fun names e => ∃ e', P names e' ∧ e = e'.under field) (within field x) := by
  cases x with
  | error e =>
    obtain ⟨first, hfault, hfirst⟩ := hx
    refine ⟨first, ⟨e, hfault, rfl⟩, ?_⟩
    rintro names _ ⟨e', he', -⟩
    exact hfirst names e' he'
  | ok a =>
    rintro names _ ⟨e', he', -⟩
    exact hx names e' he'

/-- Below a name, nodes are visited in the same order. -/
theorem Reports.below (name : String) (hx : Reports P x) :
    Reports (fun names e => ∃ rest, names = name :: rest ∧ P rest e) x := by
  cases x with
  | error e =>
    obtain ⟨first, hfault, hfirst⟩ := hx
    refine ⟨name :: first, ⟨first, rfl, hfault⟩, ?_⟩
    rintro _ e' ⟨rest, rfl, he'⟩
    rcases hfirst rest e' he' with rfl | hbefore
    · exact .inl rfl
    · exact .inr (.within name hbefore)
  | ok a =>
    rintro _ e' ⟨rest, -, he'⟩
    exact hx rest e' he'

end Reports

/-! ## Binding reports faults -/

namespace RecordSelection

open NameSelection (FaultAt FieldFaultAt faultAt_iff undeclared Resolvable resolvable_iff)

/-- Binding the selection of a field reports the faults of the field, if binding it to a record does
    so. -/
theorem bind_reports {record : Schema} {name : String} {i : Nat} {f : Field}
    {child : NameSelection} (found : record.lookup? name = some (i, f))
    (ih : ∀ next, Reports (FaultAt reg next child) (ofNames reg next child)) :
    Reports (FieldFaultAt reg record name child) (f.bind reg (.byName child)) := by
  cases hr : f.record reg with
  | some next =>
    have hbind : f.bind reg (.byName child) =
        within f.name (ofNames reg next child >>= fun s => pure (some s)) := by
      rw [Field.bind, hr]
      rfl
    rw [hbind]
    -- The faults of the field are those below it, as seen from the field.
    refine (((ih next).bind_pure some).within f.name).congr fun names e => ?_
    constructor
    · rintro ⟨e', hfault, rfl⟩
      exact ⟨i, f, e', found, rfl, .inr ⟨next, hr, hfault⟩⟩
    · rintro ⟨j, g, e', found', rfl, hfault⟩
      cases found.symm.trans found'
      obtain ⟨hleaf, -⟩ | ⟨next', hnext', hfault⟩ := hfault
      · cases hr.symm.trans hleaf
      · cases hr.symm.trans hnext'
        exact ⟨e', hfault, rfl⟩
  | none =>
    -- Of a field without a nested record only the one fault is possible.
    have hleaf : ∀ names e, FieldFaultAt reg record name child names e →
        child.isUndefined = false ∧ names = [] := by
      rintro names e ⟨j, g, e', found', -, hfault⟩
      cases found.symm.trans found'
      obtain ⟨-, hclosed, hnames, -⟩ | ⟨next, hnext, -⟩ := hfault
      · exact ⟨hclosed, hnames⟩
      · cases hr.symm.trans hnext
    cases child with
    | undefined =>
      have hbind : f.bind reg (.byName .undefined) = .ok none := by
        rw [Field.bind, hr]
        rfl
      rw [hbind]
      intro names e hfault
      cases (hleaf names e hfault).1
    | defined fields =>
      have hbind : f.bind reg (.byName (.defined fields)) = .error (Error.under f.name
          (.of (.notFragmentable f.name (NameSelection.defined fields).expr))) := by
        rw [Field.bind, hr]
        rfl
      rw [hbind]
      -- The one fault is at the field itself, so it is the first one.
      refine ⟨[], ⟨i, f, _, found, rfl, .inl ⟨hr, rfl, rfl, rfl⟩⟩, fun names e hfault => ?_⟩
      exact .inl (hleaf names e hfault).2

/-- Binding named fields reports the faults of the fields, if binding their selections does so. -/
theorem ofNamesEach_reports {record : Schema} {bound : Option String}
    (fields : Entries String NameSelection bound)
    (ih : ∀ p ∈ fields.toList, ∀ next, Reports (FaultAt reg next p.2) (ofNames reg next p.2)) :
    Reports (fun names e => ∃ p ∈ fields.toList, ∃ rest, names = p.1 :: rest ∧
      FieldFaultAt reg record p.1 p.2 rest e) (ofNamesEach reg record fields) := by
  -- By induction on the entries. Names stand in order, so what is below one comes before the next.
  induction fields with
  | nil =>
    rintro names e ⟨p, hp, -⟩
    cases hp
  | cons name child above rest ihrest =>
    obtain ⟨hfirst, hmore⟩ := List.forall_mem_cons.1 ih
    have hrest := ihrest hmore
    rw [ofNamesEach]
    simp only [Entries.toList_cons, List.exists_mem_cons_iff]
    cases hlookup : record.lookup? name with
    | none =>
      -- What is below a name that is not declared is not looked at.
      refine (hrest.bind_pure _).congr fun names e => ?_
      rw [or_iff_right]
      rintro ⟨_, -, i, f, e', hf, -⟩
      cases hlookup.symm.trans hf
    | some found =>
      obtain ⟨i, f⟩ := found
      refine ((bind_reports hlookup hfirst).below name).bind
        (fun nested _ => hrest.bind_pure _) ?_
      rintro _ e _ e' ⟨below, rfl, -⟩ ⟨p, hp, below', rfl, -⟩
      exact .earlier below below' (Entries.lt_of_mem_toList hp)

/-- Where named fields are bound, what is left over are the names that are not declared. -/
theorem eq_undeclared_of_ofNamesEach {record : Schema} {bound : Option String}
    {fields : Entries String NameSelection bound} {found : List (Nat × Option RecordSelection)}
    {unknown : List String} (h : ofNamesEach reg record fields = .ok (found, unknown)) :
    unknown =
      fields.keys.filter fun name => (record.lookup? name).isNone && name != typename := by
  -- By induction on the entries: a name is left over, is `__typename`, or is bound.
  induction fields generalizing found unknown with
  | nil =>
    cases h
    rfl
  | cons name child above rest ih =>
    have hkeys : (Entries.cons name child above rest).keys = name :: rest.keys := rfl
    obtain ⟨found', unknown', hrest, ⟨hlookup, -, rfl⟩ | ⟨q, hbind, -, rfl⟩⟩ :=
      ofNamesEach_cons_eq_ok h
    · rw [hkeys, List.filter_cons, ← ih hrest, hlookup]
      by_cases htypename : name = typename <;> simp [htypename]
    · obtain ⟨f, hf⟩ := hbind.lookup
      have hf : record.lookup? name = some (q.1, f) := hf
      rw [hkeys, List.filter_cons, ← ih hrest, hf]
      rfl

/-- Binding a selection reports the fault that is visited first. -/
theorem ofNames_reports (s : NameSelection) (record : Schema) :
    Reports (FaultAt reg record s) (ofNames reg record s) := by
  -- By induction on the selection, with the entries in between.
  induction s using NameSelection.induction generalizing record with
  | undefined =>
    intro names e hfault
    obtain ⟨-, hunknown, -⟩ | ⟨name, child, rest, hchild, -⟩ := faultAt_iff.1 hfault
    · exact hunknown rfl
    · cases hchild
  | defined fields ih =>
    have hfields : Reports _ (ofNamesEach reg record fields) :=
      ofNamesEach_reports fields fun p hp next =>
        ih p.1 p.2 (Entries.mem_toList_iff_get?_eq_some.1 hp) next
    rw [ofNames]
    -- The names that are not declared are looked at after all fields.
    refine (hfields.bind (Q := fun names e =>
      names = [] ∧ undeclared record (.defined fields) ≠ [] ∧
        e = .of (.unrecognizedFields (undeclared record (.defined fields)))) ?_ ?_).congr ?_
    · rintro ⟨found, unknown⟩ hok
      have hunknown : unknown = undeclared record (.defined fields) :=
        eq_undeclared_of_ofNamesEach hok
      simp only [← hunknown]
      cases unknown with
      | nil =>
        rintro names e ⟨-, hne, -⟩
        exact hne rfl
      | cons name more =>
        refine ⟨[], ⟨rfl, List.cons_ne_nil name more, rfl⟩, ?_⟩
        rintro names e ⟨hnames, -⟩
        exact .inl hnames
    -- A fault below any field comes before the record itself.
    · rintro _ e _ e' ⟨p, -, rest, rfl, -⟩ ⟨rfl, -⟩
      exact .deeper p.1 rest
    · intro names e
      rw [faultAt_iff, or_comm]
      apply or_congr_right
      constructor
      · rintro ⟨p, hp, rest, hnames, hfault⟩
        exact ⟨p.1, p.2, rest, Entries.mem_toList_iff_get?_eq_some.1 hp, hnames, hfault⟩
      · rintro ⟨name, child, rest, hchild, hnames, hfault⟩
        exact ⟨(name, child), Entries.mem_toList_iff_get?_eq_some.2 hchild, rest, hnames, hfault⟩

/-- A selection by name is bound to a record exactly if each of its nodes that is reached resolves.
    If not, the error is that of the node which is visited first, of all that are at fault. -/
theorem ofNames_exact (reg : Registry) (record : Schema) (s : NameSelection) :
    ((∃ t, ofNames reg record s = .ok t) ↔ Resolvable reg record s) ∧
      ∀ e, ofNames reg record s = .error e ↔ FirstVisited (FaultAt reg record s) e := by
  have hreports : Reports (FaultAt reg record s) (ofNames reg record s) := ofNames_reports s record
  rw [resolvable_iff]
  cases hbind : ofNames reg record s with
  | ok t =>
    -- If binding succeeds there is no fault at all, and so none that is the first.
    rw [hbind] at hreports
    have hnone : ∀ names e, ¬ FaultAt reg record s names e := hreports
    refine ⟨iff_of_true ⟨t, rfl⟩ hnone, fun e => iff_of_false ?_ ?_⟩
    · intro h
      cases h
    · rintro ⟨first, hfault, -⟩
      exact hnone first e hfault
  | error e =>
    rw [hbind] at hreports
    have hfirst : FirstVisited (FaultAt reg record s) e := hreports
    refine ⟨iff_of_false ?_ ?_, fun e' => ?_⟩
    · rintro ⟨t, h⟩
      cases h
    · obtain ⟨first, hfault, -⟩ := hfirst
      intro hnone
      exact hnone first e hfault
    -- An error of binding is that of the first fault, of which there is only one.
    · constructor
      · intro h
        cases h
        exact hfirst
      · intro hfirst'
        have hunique : ∀ names e e', FaultAt reg record s names e → FaultAt reg record s names e' →
            e = e' := fun names e e' h h' => h.unique h'
        rw [hfirst.unique hunique hfirst']

-- A fault below a field comes before the names that the record itself does not declare.
example : ofNames Registry.ofNode Schema.node
      ((NameSelection.empty.add ["author"]).set "parent"
        (.set .empty "title" (.add .empty ["name"]))) =
    .error ⟨["parent", "title"], .notFragmentable "title" "{ name }"⟩ :=
  rfl

end RecordSelection

end FieldMask
