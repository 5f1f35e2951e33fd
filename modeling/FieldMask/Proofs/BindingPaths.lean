import FieldMask.Proofs.BindingInvariant
import FieldMask.Proofs.RecordRoundTrip

/-!
# What binding keeps

A selection by name names paths of names, and what it is bound to names paths of indices. Nothing is
named by index that was not named before: each path of indices comes from one of names, whose names
are looked up step by step. All names are found, except for `__typename` where a record does not
declare it.

In the other direction, two names of one selection may stand for the same field: the name of the
field and its serialized name. Both are bound, one after the other in the order of names, and what
was bound first is replaced. So the later name prevails, and what is named below the earlier one is
lost.

## Key results

- `forall₂_ofNamesEach`: the declared names are bound one by one
- `explicit?_ofNames`: a field has what the prevailing one of its names is bound to
- `resolve?_of_ofNames`: the names that are bound are found, step by step
- `namesPath_iff_of_ofNames`: the paths of indices are those of names that prevail at each step
- `namesPath_ofNames`: the two together
-/

namespace FieldMask

variable {reg : Registry}

/-! ## Paths that are named -/

/-- A path of names is named, step by step. -/
def NameSelection.NamesPath (s : NameSelection) : List String → Prop
  | [] => True
  | name :: rest => ∃ child, s.field? name = some child ∧ child.NamesPath rest
termination_by structural path => path

/-- A path of indices is named, step by step. -/
def RecordSelection.NamesPath (s : RecordSelection) : List Nat → Prop
  | [] => True
  | i :: rest =>
    ∃ child, s.explicit? i = some child ∧ (rest = [] ∨ ∃ c, child = some c ∧ c.NamesPath rest)
termination_by structural path => path

/-- The indices that names stand for, looked up step by step in nested records. -/
def Schema.resolve? (reg : Registry) (record : Schema) : List String → Option (List Nat)
  | [] => some []
  | name :: rest => do
    let (i, f) ← record.lookup? name
    if rest = [] then some [i]
    else
      let next ← f.record reg
      let path ← next.resolve? reg rest
      some (i :: path)
termination_by structural names => names

/-- The first name stands for a field, and the others go on in its nested record. -/
theorem Schema.resolve?_cons_eq_some_iff {record : Schema} {name : String} {rest : List String}
    {path : List Nat} :
    record.resolve? reg (name :: rest) = some path ↔
      ∃ i f, record.lookup? name = some (i, f) ∧
        (rest = [] ∧ path = [i] ∨
          ∃ next more, rest ≠ [] ∧ f.record reg = some next ∧ next.resolve? reg rest = some more ∧
            path = i :: more) := by
  rw [resolve?]
  cases hlookup : record.lookup? name with
  | none => simp
  | some found =>
    obtain ⟨i, f⟩ := found
    by_cases hrest : rest = []
    · subst hrest
      simp [eq_comm]
    -- The field is nested, so the path goes on in its record.
    · cases hrecord : f.record reg with
      | none => simp [hrest, hrecord]
      | some next =>
        simp only [Option.bind_eq_bind, Option.bind_some, if_neg hrest, hrecord,
          Option.bind_eq_some_iff, Option.some.injEq, Prod.mk.injEq]
        constructor
        · rintro ⟨more, hmore, rfl⟩
          exact ⟨i, f, ⟨rfl, rfl⟩, .inr ⟨next, more, hrest, hrecord, hmore, rfl⟩⟩
        · rintro ⟨j, g, ⟨rfl, rfl⟩, ⟨hnil, -⟩ | ⟨next', more, -, hnext, hmore, rfl⟩⟩
          · exact absurd hnil hrest
          · rw [hrecord] at hnext
            cases hnext
            exact ⟨more, hmore, rfl⟩

/-- A name by itself stands for its field. -/
theorem Schema.resolve?_singleton {record : Schema} {name : String} {i : Nat} {f : Field}
    (hf : record.lookup? name = some (i, f)) : record.resolve? reg [name] = some [i] :=
  resolve?_cons_eq_some_iff.2 ⟨i, f, hf, .inl ⟨rfl, rfl⟩⟩

/-- Names go on in the nested record of the first one. -/
theorem Schema.resolve?_cons_of_nested {record next : Schema} {name : String} {rest : List String}
    {i : Nat} {f : Field} {path : List Nat} (hf : record.lookup? name = some (i, f))
    (hnext : f.record reg = some next) (h : next.resolve? reg rest = some path) :
    record.resolve? reg (name :: rest) = some (i :: path) := by
  refine resolve?_cons_eq_some_iff.2 ⟨i, f, hf, ?_⟩
  cases rest with
  | nil =>
    cases h
    exact .inl ⟨rfl, rfl⟩
  | cons other more => exact .inr ⟨next, path, List.cons_ne_nil other more, hnext, h, rfl⟩

/-- A path of names leads to `__typename` in a record that does not declare it. -/
def Schema.ReachesTypename (reg : Registry) (record : Schema) : List String → Prop
  | [] => False
  | name :: rest => (record.lookup? name = none ∧ name = RecordSelection.typename) ∨
    ∃ i f next, record.lookup? name = some (i, f) ∧ f.record reg = some next ∧
      next.ReachesTypename reg rest
termination_by structural names => names

namespace NameSelection

/-- No later name of the selection stands for the field that the name stands for. -/
def Prevails (s : NameSelection) (record : Schema) (name : String) : Prop :=
  ∀ other child, s.field? other = some child → record.indexOf? other = record.indexOf? name →
    other ≤ name

/-- Each name of a path prevails, in what is named by those before it. -/
def PathPrevails (reg : Registry) (record : Schema) (s : NameSelection) : List String → Prop
  | [] => True
  | name :: rest => s.Prevails record name ∧
    ∀ i f next child, record.lookup? name = some (i, f) → f.record reg = some next →
      s.field? name = some child → child.PathPrevails reg next rest
termination_by structural path => path

/-- A path prevails if its first name does, and the others do below it. -/
theorem PathPrevails.cons {record next : Schema} {s sub : NameSelection} {name : String}
    {rest : List String} {i : Nat} {f : Field} (hname : s.Prevails record name)
    (hf : record.lookup? name = some (i, f)) (hnext : f.record reg = some next)
    (hsub : s.field? name = some sub) (h : sub.PathPrevails reg next rest) :
    s.PathPrevails reg record (name :: rest) := by
  refine ⟨hname, fun j g next' sub' hg hnext' hsub' => ?_⟩
  cases hf.symm.trans hg
  cases hnext.symm.trans hnext'
  cases hsub.symm.trans hsub'
  exact h

end NameSelection

namespace RecordSelection

/-! ## Binding name by name -/

/-- A name is bound to the field that it stands for. -/
theorem Binds.lookup {record : Schema} {p : String × NameSelection}
    {q : Nat × Option RecordSelection} (h : Binds reg record p q) :
    ∃ f, record.lookup? p.1 = some (q.1, f) := by
  cases h with
  | leaf found plain => exact ⟨_, found⟩
  | nested found nested bind => exact ⟨_, found⟩

/-- A name is bound to the index that it has. -/
theorem Binds.indexOf? {record : Schema} {p : String × NameSelection}
    {q : Nat × Option RecordSelection} (h : Binds reg record p q) :
    record.indexOf? p.1 = some q.1 := by
  obtain ⟨f, hf⟩ := h.lookup
  exact Schema.indexOf?_of_lookup? hf

/-- The name of a field with a nested record is bound to a selection of the record. -/
theorem Binds.eq_some {record next : Schema} {name : String} {sub : NameSelection} {i j : Nat}
    {f : Field} {child : Option RecordSelection} (h : Binds reg record (name, sub) (j, child))
    (hf : record.lookup? name = some (i, f)) (hnext : f.record reg = some next) :
    ∃ c, child = some c ∧ ofNames reg next sub = .ok c := by
  cases h with
  | leaf found plain =>
    cases hf.symm.trans found
    cases hnext.symm.trans plain
  | nested found nested bind =>
    cases hf.symm.trans found
    cases hnext.symm.trans nested
    exact ⟨_, rfl, bind⟩

/-- What a name is bound to is determined. -/
theorem Binds.unique {record : Schema} {p : String × NameSelection}
    {q q' : Nat × Option RecordSelection} (h : Binds reg record p q) (h' : Binds reg record p q') :
    q = q' := by
  cases h with
  | leaf found plain =>
    cases h' with
    | leaf found' plain' =>
      cases found.symm.trans found'
      rfl
    | nested found' nested' bind' =>
      cases found.symm.trans found'
      cases plain.symm.trans nested'
  | nested found nested bind =>
    -- Below a nested record what is bound is unique, since binding is a function.
    obtain ⟨i', child'⟩ := q'
    obtain ⟨c', rfl, hc'⟩ := h'.eq_some found nested
    obtain ⟨g, hg⟩ := h'.lookup
    cases found.symm.trans hg
    cases bind.symm.trans hc'
    rfl

/-- The first name is bound to a field, or is not declared. -/
theorem ofNamesEach_cons_eq_ok {record : Schema} {bound : Option String} {name : String}
    {child : NameSelection} {above : ∀ b ∈ bound, b < name}
    {rest : Entries String NameSelection (some name)} {found : List (Nat × Option RecordSelection)}
    {unknown : List String}
    (h : ofNamesEach reg record (.cons name child above rest) = .ok (found, unknown)) :
    ∃ found' unknown', ofNamesEach reg record rest = .ok (found', unknown') ∧
      ((record.lookup? name = none ∧ found = found' ∧
          unknown = if name = typename then unknown' else name :: unknown') ∨
        ∃ q, Binds reg record (name, child) q ∧ found = q :: found' ∧ unknown = unknown') := by
  rw [ofNamesEach] at h
  cases hlookup : record.lookup? name with
  | none =>
    simp only [hlookup] at h
    obtain ⟨⟨found', unknown'⟩, hrest, h⟩ := bind_eq_ok_iff.1 h
    cases h
    exact ⟨found', unknown', hrest, .inl ⟨rfl, rfl, rfl⟩⟩
  | some entry =>
    obtain ⟨i, f⟩ := entry
    simp only [hlookup] at h
    obtain ⟨nested, hnested, h⟩ := bind_eq_ok_iff.1 h
    obtain ⟨⟨found', unknown'⟩, hrest, h⟩ := bind_eq_ok_iff.1 h
    cases h
    refine ⟨found', unknown', hrest, .inr ⟨(i, nested), ?_, rfl, rfl⟩⟩
    -- A field without a nested record is bound to nothing, any other to a selection.
    rw [within_eq_ok_iff] at hnested
    cases hr : f.record reg with
    | none =>
      simp only [hr] at hnested
      cases child with
      | undefined =>
        cases hnested
        exact .leaf hlookup hr
      | defined sub => cases hnested
    | some r =>
      simp only [hr] at hnested
      obtain ⟨c, hc, heq⟩ := bind_eq_ok_iff.1 hnested
      cases heq
      exact .nested hlookup hr hc

/-- The declared names are bound one by one, in their order. -/
theorem forall₂_ofNamesEach {record : Schema} {bound : Option String}
    {fields : Entries String NameSelection bound} {found : List (Nat × Option RecordSelection)}
    {unknown : List String} (h : ofNamesEach reg record fields = .ok (found, unknown)) :
    List.Forall₂ (Binds reg record)
      (fields.toList.filter fun p => (record.lookup? p.1).isSome) found := by
  -- By induction on the entries; the undeclared ones are left out on both sides.
  induction fields generalizing found unknown with
  | nil =>
    cases h
    exact .nil
  | cons name child above rest ih =>
    obtain ⟨found', unknown', hrest, ⟨hlookup, rfl, -⟩ | ⟨q, hbind, rfl, -⟩⟩ :=
      ofNamesEach_cons_eq_ok h
    · rw [Entries.toList_cons, List.filter_cons_of_neg (by simp [hlookup])]
      exact ih hrest
    · obtain ⟨f, hf⟩ := hbind.lookup
      rw [Entries.toList_cons, List.filter_cons_of_pos (by simp [hf])]
      exact .cons hbind (ih hrest)

/-- The names that are not declared are left over, except for `__typename`. -/
theorem mem_unknown_of_ofNamesEach {record : Schema} {bound : Option String}
    {fields : Entries String NameSelection bound} {found : List (Nat × Option RecordSelection)}
    {unknown : List String} (h : ofNamesEach reg record fields = .ok (found, unknown))
    {name : String} (hname : name ∈ fields.keys) (hlookup : record.lookup? name = none) :
    name = typename ∨ name ∈ unknown := by
  -- By induction on the entries. A bound name is no undeclared one.
  induction fields generalizing found unknown with
  | nil => cases hname
  | cons key child above rest ih =>
    obtain ⟨found', unknown', hrest, ⟨-, -, rfl⟩ | ⟨q, hbind, -, rfl⟩⟩ :=
      ofNamesEach_cons_eq_ok h
    · rcases List.mem_cons.1 hname with rfl | hname
      · by_cases htypename : name = typename
        · exact .inl htypename
        · rw [if_neg htypename]
          exact .inr List.mem_cons_self
      · refine (ih hrest hname).imp_right fun hmem => ?_
        split
        · exact hmem
        · exact List.mem_cons_of_mem key hmem
    · rcases List.mem_cons.1 hname with rfl | hname
      · obtain ⟨f, hf⟩ := hbind.lookup
        rw [hlookup] at hf
        cases hf
      · exact ih hrest hname

/-- Named fields are bound if no name is left over. -/
theorem exists_of_ofNames_defined {record : Schema} {fields : OrderedMap String NameSelection}
    {t : RecordSelection} (h : ofNames reg record (.defined fields) = .ok t) :
    ∃ found, ofNamesEach reg record fields = .ok (found, []) ∧
      t = defined record (Entries.ofList found) := by
  rw [ofNames] at h
  obtain ⟨⟨found, unknown⟩, hfound, h⟩ := bind_eq_ok_iff.1 h
  simp only at h
  split at h
  · rename_i hempty
    cases h
    rw [List.isEmpty_iff.1 hempty] at hfound
    exact ⟨found, hfound, rfl⟩
  · cases h

/-- An open selection is bound to one that is left open, and a defined one to one that names
    fields. -/
theorem isUndefined_of_ofNames {record : Schema} {s : NameSelection} {t : RecordSelection}
    (h : ofNames reg record s = .ok t) : t.isUndefined = s.isUndefined := by
  cases s with
  | undefined =>
    cases h
    rfl
  | defined fields =>
    obtain ⟨found, -, rfl⟩ := exists_of_ofNames_defined h
    rfl

/-- Each name of a list is bound to something. -/
theorem exists_binds_of_mem {record : Schema} {named : List (String × NameSelection)}
    {found : List (Nat × Option RecordSelection)} (h : List.Forall₂ (Binds reg record) named found)
    {p : String × NameSelection} (hp : p ∈ named) : ∃ q, Binds reg record p q := by
  induction h with
  | nil => cases hp
  | @cons p' q' named found hfirst _ ih =>
    rcases List.mem_cons.1 hp with rfl | hp
    · exact ⟨q', hfirst⟩
    · exact ih hp

/-- Of names that are bound in their order, the last one of a field counts. -/
theorem get?_ofList_binds {record : Schema} {named : List (String × NameSelection)}
    {found : List (Nat × Option RecordSelection)} (h : List.Forall₂ (Binds reg record) named found)
    (hsorted : named.Pairwise fun p q => p.1 < q.1) {i : Nat} {child : Option RecordSelection} :
    (Entries.ofList found).get? i = some child ↔
      ∃ p ∈ named, Binds reg record p (i, child) ∧
        ∀ p' ∈ named, record.indexOf? p'.1 = some i → p'.1 ≤ p.1 := by
  -- By induction from the right, as the last entry of an index is the one that counts.
  induction named using List.reverseRecOn generalizing found with
  | nil =>
    cases h
    simp [Entries.ofList]
  | append_singleton init last ih =>
    obtain ⟨before, q, hinit, hlast, rfl⟩ : ∃ before q,
        List.Forall₂ (Binds reg record) init before ∧ Binds reg record last q ∧
          found = before ++ [q] := by
      -- Two lists that are related and end in an element do so together.
      have hreverse := List.forall₂_reverse_iff.2 h
      rw [List.reverse_append, List.reverse_singleton, List.singleton_append] at hreverse
      obtain ⟨q, front, hq, hfront, heq⟩ := List.forall₂_cons_left_iff.1 hreverse
      refine ⟨front.reverse, q, List.forall₂_reverse_iff.1 (by simpa using hfront), hq, ?_⟩
      rw [← List.reverse_reverse found, heq, List.reverse_cons]
    rw [List.pairwise_append] at hsorted
    obtain ⟨hsorted, -, hbelow⟩ := hsorted
    have hbelow : ∀ p ∈ init, p.1 < last.1 := fun p hp =>
      hbelow p hp last (List.mem_singleton_self last)
    obtain ⟨j, c⟩ := q
    rw [Entries.get?_ofList_concat]
    by_cases hj : j = i
    · -- The last name stands for the field, so that no other one counts.
      subst hj
      rw [if_pos rfl]
      constructor
      · intro heq
        cases heq
        refine ⟨last, List.mem_append_right init (List.mem_singleton_self last), hlast, ?_⟩
        intro p hp _
        rcases List.mem_append.1 hp with hp | hp
        · exact Std.le_of_lt (hbelow p hp)
        · have heq : p = last := List.mem_singleton.1 hp
          subst heq
          exact Std.le_refl _
      · rintro ⟨p, hp, hbinds, hmax⟩
        -- No other name of the field can come after the last one.
        have hle : last.1 ≤ p.1 :=
          hmax last (List.mem_append_right init (List.mem_singleton_self last)) hlast.indexOf?
        rcases List.mem_append.1 hp with hp | hp
        · exact absurd (Std.lt_of_lt_of_le (hbelow p hp) hle) Std.lt_irrefl
        · rw [List.mem_singleton.1 hp] at hbinds
          cases hlast.unique hbinds
          rfl
    · -- It stands for another field.
      have hother : record.indexOf? last.1 ≠ some i := by
        rw [hlast.indexOf?]
        exact fun heq => hj (Option.some.inj heq)
      rw [if_neg hj, ih hinit hsorted]
      constructor
      · rintro ⟨p, hp, hbinds, hmax⟩
        refine ⟨p, List.mem_append_left _ hp, hbinds, fun p' hp' hindex => ?_⟩
        rcases List.mem_append.1 hp' with hp' | hp'
        · exact hmax p' hp' hindex
        · rw [List.mem_singleton.1 hp'] at hindex
          exact absurd hindex hother
      · rintro ⟨p, hp, hbinds, hmax⟩
        rcases List.mem_append.1 hp with hp | hp
        · exact ⟨p, hp, hbinds, fun p' hp' => hmax p' (List.mem_append_left _ hp')⟩
        · rw [List.mem_singleton.1 hp] at hbinds
          exact absurd hbinds.indexOf? hother

/-! ## Binding path by path -/

/-- A name that stands for a field is declared. -/
theorem isSome_lookup?_of_indexOf? {record : Schema} {name : String} {i : Nat}
    (h : record.indexOf? name = some i) : (record.lookup? name).isSome = true := by
  rw [Schema.indexOf?_eq_map_lookup?] at h
  rw [← Option.isSome_map, h, Option.isSome_some]

/-- The field at an index has what the prevailing one of its names is bound to. -/
theorem explicit?_ofNames {record : Schema} {s : NameSelection} {t : RecordSelection}
    (h : ofNames reg record s = .ok t) {i : Nat} {child : Option RecordSelection} :
    t.explicit? i = some child ↔
      ∃ name sub, s.field? name = some sub ∧ Binds reg record (name, sub) (i, child) ∧
        s.Prevails record name := by
  cases s with
  | undefined =>
    cases h
    constructor
    · intro hget
      cases hget
    · rintro ⟨name, sub, hsub, -⟩
      cases hsub
  | defined fields =>
    obtain ⟨found, hfound, rfl⟩ := exists_of_ofNames_defined h
    -- Only declared names are bound, and they keep their order.
    have hbinds := forall₂_ofNamesEach hfound
    have hsorted := (Entries.pairwise_toList fields).filter fun p => (record.lookup? p.1).isSome
    show (Entries.ofList found).get? i = some child ↔ _
    rw [get?_ofList_binds hbinds hsorted]
    constructor
    -- What prevails in the list of declared names prevails in the selection, and the other way
    -- round.
    · rintro ⟨⟨name, sub⟩, hmem, hbind, hmax⟩
      have hsub := Entries.mem_toList_iff_get?_eq_some.1 (List.mem_filter.1 hmem).1
      refine ⟨name, sub, hsub, hbind, fun other sub' hother hindex => ?_⟩
      rw [hbind.indexOf?] at hindex
      have hdeclared := isSome_lookup?_of_indexOf? hindex
      exact hmax (other, sub')
        (List.mem_filter.2 ⟨Entries.mem_toList_iff_get?_eq_some.2 hother, hdeclared⟩) hindex
    · rintro ⟨name, sub, hsub, hbind, hprevails⟩
      obtain ⟨f, hf⟩ := hbind.lookup
      refine ⟨(name, sub), List.mem_filter.2
        ⟨Entries.mem_toList_iff_get?_eq_some.2 hsub, by rw [hf]; rfl⟩, hbind, ?_⟩
      rintro ⟨other, sub'⟩ hmem hindex
      have hother := Entries.mem_toList_iff_get?_eq_some.1 (List.mem_filter.1 hmem).1
      exact hprevails other sub' hother (hindex.trans hbind.indexOf?.symm)

/-- A name that the record declares is bound to something. -/
theorem exists_binds_of_ofNames {record : Schema} {s : NameSelection} {t : RecordSelection}
    (h : ofNames reg record s = .ok t) {name : String} {sub : NameSelection}
    (hsub : s.field? name = some sub) {i : Nat} {f : Field}
    (hf : record.lookup? name = some (i, f)) :
    ∃ child, Binds reg record (name, sub) (i, child) := by
  cases s with
  | undefined => cases hsub
  | defined fields =>
    obtain ⟨found, hfound, -⟩ := exists_of_ofNames_defined h
    have hmem : (name, sub) ∈ fields.toList.filter fun p => (record.lookup? p.1).isSome :=
      List.mem_filter.2 ⟨Entries.mem_toList_iff_get?_eq_some.2 hsub, by rw [hf]; rfl⟩
    obtain ⟨⟨j, child⟩, hbind⟩ := exists_binds_of_mem (forall₂_ofNamesEach hfound) hmem
    obtain ⟨g, hg⟩ := hbind.lookup
    rw [hf] at hg
    cases hg
    exact ⟨child, hbind⟩

/-- Where a selection is bound, no name but `__typename` is undeclared. -/
theorem eq_typename_of_ofNames {record : Schema} {s : NameSelection} {t : RecordSelection}
    (h : ofNames reg record s = .ok t) {name : String} {sub : NameSelection}
    (hsub : s.field? name = some sub) (hlookup : record.lookup? name = none) : name = typename := by
  cases s with
  | undefined => cases hsub
  | defined fields =>
    obtain ⟨found, hfound, -⟩ := exists_of_ofNames_defined h
    have hname : name ∈ fields.keys :=
      List.mem_map_of_mem (Entries.mem_toList_iff_get?_eq_some.2 hsub)
    exact (mem_unknown_of_ofNamesEach hfound hname hlookup).resolve_right List.not_mem_nil

/-- The names of a path that is named are found, step by step, unless it leads to `__typename` in a
    record that does not declare it. -/
theorem resolve?_of_ofNames {record : Schema} {s : NameSelection} {t : RecordSelection}
    (h : ofNames reg record s = .ok t) {names : List String} (hnames : s.NamesPath names) :
    (∃ path, record.resolve? reg names = some path) ∨ record.ReachesTypename reg names := by
  -- By induction on the names, with the record and the selection of each step.
  induction names generalizing record s t with
  | nil => exact .inl ⟨[], rfl⟩
  | cons name rest ih =>
    obtain ⟨sub, hsub, hrest⟩ := hnames
    cases hlookup : record.lookup? name with
    | none => exact .inr (.inl ⟨hlookup, eq_typename_of_ofNames h hsub hlookup⟩)
    | some found =>
      obtain ⟨i, f⟩ := found
      obtain ⟨child, hbind⟩ := exists_binds_of_ofNames h hsub hlookup
      cases hbind with
      | leaf found plain =>
        -- Nothing is named below a field without a nested record.
        cases rest with
        | nil => exact .inl ⟨[i], Schema.resolve?_singleton hlookup⟩
        | cons other more =>
          obtain ⟨sub', hsub', -⟩ := hrest
          cases hsub'
      | nested found nested bind =>
        cases hlookup.symm.trans found
        rcases ih bind hrest with ⟨path, hpath⟩ | htypename
        · exact .inl ⟨i :: path, Schema.resolve?_cons_of_nested hlookup nested hpath⟩
        · exact .inr (.inr ⟨i, f, _, hlookup, nested, htypename⟩)

/-- What is named by index is what is named by names that resolve to it and prevail at each step. -/
theorem namesPath_iff_of_ofNames {record : Schema} {s : NameSelection} {t : RecordSelection}
    (h : ofNames reg record s = .ok t) (path : List Nat) :
    t.NamesPath path ↔ ∃ names, s.NamesPath names ∧ record.resolve? reg names = some path ∧
      s.PathPrevails reg record names := by
  -- By induction on the indices, with the record and the selection of each step.
  induction path generalizing record s t with
  | nil => exact iff_of_true trivial ⟨[], trivial, rfl, trivial⟩
  | cons i rest ih =>
    constructor
    · rintro ⟨child, hchild, hrest⟩
      obtain ⟨name, sub, hsub, hbind, hprevails⟩ := (explicit?_ofNames h).1 hchild
      obtain rfl | ⟨c, rfl, hc⟩ := hrest
      · obtain ⟨f, hf⟩ := hbind.lookup
        exact ⟨[name], ⟨sub, hsub, trivial⟩, Schema.resolve?_singleton hf, hprevails,
          fun _ _ _ _ _ _ _ => trivial⟩
      · -- Below the name, the path goes on in what its selection is bound to.
        cases hbind with
        | nested found nested bind =>
          obtain ⟨names, hnames, hresolve, hprevail⟩ := (ih bind).1 hc
          exact ⟨name :: names, ⟨sub, hsub, hnames⟩,
            Schema.resolve?_cons_of_nested found nested hresolve,
            .cons hprevails found nested hsub hprevail⟩
    · rintro ⟨names, hnames, hresolve, hprevail⟩
      cases names with
      | nil => cases hresolve
      | cons name more =>
        obtain ⟨sub, hsub, hmore⟩ := hnames
        obtain ⟨hprevails, hbelow⟩ := hprevail
        -- The names give the fields; what binds at each of them tells which selection goes on.
        obtain ⟨j, f, hf, hpath⟩ := Schema.resolve?_cons_eq_some_iff.1 hresolve
        obtain ⟨child, hbind⟩ := exists_binds_of_ofNames h hsub hf
        have hchild := (explicit?_ofNames h).2 ⟨name, sub, hsub, hbind, hprevails⟩
        obtain ⟨-, hpath⟩ | ⟨next, indices, -, hnext, hindices, hpath⟩ := hpath
        · cases hpath
          exact ⟨child, hchild, .inl rfl⟩
        · cases hpath
          -- The field has a nested record, so that it is bound to a selection.
          obtain ⟨c, rfl, hc⟩ := hbind.eq_some hf hnext
          have hbelow := hbelow i f next sub hf hnext hsub
          exact ⟨some c, hchild, .inr ⟨c, rfl, (ih hc).2 ⟨more, hmore, hindices, hbelow⟩⟩⟩

end RecordSelection

/-! ### A field under both of its names -/

namespace Schema

/-- An author with two names. -/
def author : Schema where
  stamp := 1
  name := "Author"
  fields := [.of "First" .string, .of "Last" .string]

/-- A book, with its author under a name and a serialized name that differ. -/
def book : Schema where
  stamp := 2
  name := "Book"
  fields := [(Field.of "Author" (.record author)).withJson "author"]

end Schema

/-- The first name of the author of a book, and by the other name of the field the last one. -/
def NameSelection.authorTwice : NameSelection :=
  (empty.set "Author" (empty.add ["First"])).set "author" (empty.add ["Last"])

namespace RecordSelection

/-- The last name of the author of a book. -/
def lastOfBook : RecordSelection :=
  (empty Schema.book).put 0 (some ((empty Schema.author).put 1 none))

theorem ofNames_authorTwice :
    ofNames Registry.empty Schema.book NameSelection.authorTwice = .ok lastOfBook := by
  rfl

/-- Binding finds all that is named, and names by index what is named by names that prevail at each
    step. -/
theorem namesPath_ofNames {record : Schema} {s : NameSelection} {t : RecordSelection}
    (h : ofNames reg record s = .ok t) :
    (∀ names, s.NamesPath names →
      (∃ path, record.resolve? reg names = some path) ∨ record.ReachesTypename reg names) ∧
    ∀ path, t.NamesPath path ↔ ∃ names, s.NamesPath names ∧
      record.resolve? reg names = some path ∧ s.PathPrevails reg record names :=
  ⟨fun _ hnames => resolve?_of_ofNames h hnames, namesPath_iff_of_ofNames h⟩

/-- Bound to a book, the first name of the author is lost. -/
theorem namesPath_authorTwice_lost :
    ofNames Registry.empty Schema.book NameSelection.authorTwice = .ok lastOfBook ∧
      NameSelection.authorTwice.NamesPath ["Author", "First"] ∧
      Schema.book.resolve? Registry.empty ["Author", "First"] = some [0, 0] ∧
      ¬ lastOfBook.NamesPath [0, 0] := by
  refine ⟨ofNames_authorTwice, ⟨_, rfl, _, rfl, trivial⟩, rfl, ?_⟩
  rintro ⟨child, hchild, hnil | ⟨c, hc, first, hfirst, -⟩⟩
  · cases hnil
  · cases hchild
    cases hc
    cases hfirst

/-- The last name of the author is named in both selections. -/
theorem namesPath_ofNames_authorTwice :
    lastOfBook.NamesPath [0, 1] ∧ ∃ names, NameSelection.authorTwice.NamesPath names ∧
      Schema.book.resolve? Registry.empty names = some [0, 1] := by
  have hlast : lastOfBook.NamesPath [0, 1] :=
    ⟨_, rfl, .inr ⟨_, rfl, none, rfl, .inl rfl⟩⟩
  obtain ⟨names, hnames, hresolve, -⟩ := ((namesPath_ofNames ofNames_authorTwice).2 [0, 1]).1 hlast
  exact ⟨hlast, names, hnames, hresolve⟩

end RecordSelection

end FieldMask
