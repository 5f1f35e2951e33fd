import FieldMask.Proofs.IncludedPaths
import FieldMask.Proofs.PathInvariant
import FieldMask.Proofs.PathNaming

/-!
# The selection of the end of a path

A path is turned into a selection from its end: the last field is selected with the tail, or in full
without one, and each field before it with the selection that has been made so far. The result
selects the path, what leads to it, and behind it what is selected there, and nothing else. Going
along the path in it, what was put at the end is found again.

In any other selection that selects the path, what is found at its end selects what the selection
itself selects behind the path.

## Key results

- `SelectsEnd.last` / `SelectsEnd.cons`: one field of a path
- `Leads.selectsEnd`: all fields of a path
- `includes_append_iff`: what is selected behind a path
- `RecordPath.toSelection_exact`: the three for paths that are put together from segments
-/

namespace FieldMask

variable {reg : Registry}

namespace RecordSelection

/-! ## Selections of one field -/

/-- A selection of one field selects what it was made with, of this field only. -/
theorem selectedAt_put_empty {record : Schema} {i : Nat} {f : Field}
    (found : record.fields[i]? = some f) (child : Option RecordSelection) (j : Nat) :
    ((empty record).put i child).selectedAt reg j = if i = j then some child else none := by
  apply Option.ext
  intro c
  rw [selectedAt_eq_some_iff]
  have hexplicit : ((empty record).put i child).explicit? j = if i = j then some child else none :=
    explicit?_put _ i child j
  have hindex : ∀ g, record.fields[j]? = some g →
      ((empty record).put i child).hasIndex j =
        (((empty record).put i child).explicit? j).isSome :=
    fun g hg => hasIndex_of_isUndefined_eq_false rfl hg
  -- A selection of one field selects an index if it names it, and it names the one only.
  constructor
  · rintro ⟨g, hg, hj, hc⟩
    rw [hindex g hg, hexplicit] at hj
    rw [selectionOf, hexplicit] at hc
    split at hj
    · rename_i hij
      rw [if_pos hij] at hc ⊢
      exact congrArg some hc
    · cases hj
  · intro hc
    split at hc
    · rename_i hij
      subst hij
      refine ⟨f, found, ?_, ?_⟩
      · rw [hindex f found, hexplicit, if_pos rfl]
        rfl
      · rw [selectionOf, hexplicit, if_pos rfl]
        exact Option.some.inj hc
    · cases hc

/-- Along its field, a selection of one field goes on in what it was made with. -/
theorem fieldSelection_put_empty {record : Schema} {i : Nat} {f : Field}
    (found : record.fields[i]? = some f) (child : Option RecordSelection) :
    ((empty record).put i child).fieldSelection reg i = .ok child := by
  have hf : ((empty record).put i child).record.fields[i]? = some f := found
  rw [fieldSelection_eq hf, selectionOf, explicit?_put, if_pos rfl, Option.getD_some]

/-! ## Behind a path -/

/-- What is found at the end of a path that is selected selects what is selected behind it. -/
theorem includes_append_iff {s part : RecordSelection} {indices : List Nat}
    (hpath : s.Includes reg indices)
    (hpart : RecordPath.selectionAlong reg s indices = .ok (some part)) (path : List Nat) :
    part.Includes reg path ↔ s.Includes reg (indices ++ path) := by
  induction indices generalizing s with
  | nil =>
    cases hpart
    rfl
  | cons i rest ih =>
    obtain ⟨hi, hrest⟩ := hpath
    -- Both are followed one step, to the same selection, and the rest is by the hypothesis for it.
    obtain ⟨found, hfound, hpart⟩ := bind_eq_ok_iff.1 hpart
    cases found with
    | none => cases hpart
    | some child =>
      have hchild : child.Includes reg rest := by
        rcases hrest with rfl | ⟨child', hfound', hincludes⟩
        · trivial
        · cases hfound.symm.trans hfound'
          exact hincludes
      rw [ih hchild hpart, List.cons_append, Includes]
      constructor
      · intro hmore
        exact ⟨hi, .inr ⟨child, hfound, hmore⟩⟩
      · rintro ⟨-, hnil | ⟨child', hfound', hmore⟩⟩
        · rw [hnil]
          trivial
        · cases hfound.symm.trans hfound'
          exact hmore

/-! ## The selection of one path -/

/-- A selection selects a path and what its end selects behind it, and nothing else. Along the path
    the end is found in it. There is no selection at the end of a path to a field without a nested
    record. -/
structure SelectsEnd (reg : Registry) (s : RecordSelection) (indices : List Nat)
    (atEnd : Option RecordSelection) : Prop where
  includes : ∀ path, s.Includes reg path ↔ path <+: indices ∨
    ∃ rest t, path = indices ++ rest ∧ atEnd = some t ∧ t.Includes reg rest
  along : RecordPath.selectionAlong reg s indices = .ok atEnd

/-- Without any field the selection is itself at the end. -/
theorem selectsEnd_nil (s : RecordSelection) : SelectsEnd reg s [] (some s) where
  includes path := by
    constructor
    · intro h
      exact .inr ⟨path, s, rfl, rfl, h⟩
    · rintro (hpre | ⟨rest, t, rfl, heq, h⟩)
      · rw [List.prefix_nil.1 hpre]
        trivial
      · cases heq
        exact h
  along := rfl

/-- Nothing is selected behind a field without a nested record. -/
theorem SelectsEnd.last {record : Schema} {i : Nat} {f : Field}
    (found : record.fields[i]? = some f) :
    SelectsEnd reg ((empty record).put i none) [i] none where
  includes path := by
    -- An index that leads from this record has to be that of the field.
    cases path with
    | nil => exact iff_of_true trivial (.inl List.nil_prefix)
    | cons j rest =>
      rw [includes_cons_iff, selectedAt_put_empty found]
      constructor
      · intro h
        split at h
        · rename_i hij
          subst hij
          have hrest : rest = [] := h
          rw [hrest]
          exact .inl (List.prefix_refl [i])
        · exact h.elim
      · rintro (hpre | ⟨_, _, -, hnone, -⟩)
        · obtain ⟨rfl, hrest⟩ := List.cons_prefix_cons.1 hpre
          rw [if_pos rfl]
          exact List.prefix_nil.1 hrest
        · cases hnone
  along := by
    rw [RecordPath.selectionAlong, fieldSelection_put_empty found]
    rfl

/-- A field is put in front of a path. -/
theorem SelectsEnd.cons {record : Schema} {i : Nat} {f : Field}
    (found : record.fields[i]? = some f) {s : RecordSelection} {indices : List Nat}
    {atEnd : Option RecordSelection} (h : SelectsEnd reg s indices atEnd) :
    SelectsEnd reg ((empty record).put i (some s)) (i :: indices) atEnd where
  includes path := by
    cases path with
    | nil => exact iff_of_true trivial (.inl List.nil_prefix)
    | cons j rest =>
      -- The first step has to be the field, and behind it the selection that was put there.
      have hgo : ((empty record).put i (some s)).Includes reg (j :: rest) ↔
          i = j ∧ s.Includes reg rest := by
        rw [includes_cons_iff, selectedAt_put_empty found]
        by_cases hij : i = j
        · rw [if_pos hij]
          exact (and_iff_right hij).symm
        · rw [if_neg hij]
          exact iff_of_false id fun hboth => hij hboth.1
      rw [hgo, h.includes, List.cons_prefix_cons]
      constructor
      · rintro ⟨rfl, hpre | ⟨rest', t, rfl, hend, hmore⟩⟩
        · exact .inl ⟨rfl, hpre⟩
        · exact .inr ⟨rest', t, rfl, hend, hmore⟩
      · rintro (⟨rfl, hpre⟩ | ⟨rest', t, heq, hend, hmore⟩)
        · exact ⟨rfl, .inl hpre⟩
        · obtain ⟨rfl, rfl⟩ := List.cons.inj heq
          exact ⟨rfl, .inr ⟨rest', t, rfl, hend, hmore⟩⟩
  along := by
    rw [RecordPath.selectionAlong, fieldSelection_put_empty found]
    exact h.along

end RecordSelection

open RecordSelection (SelectsEnd selectsEnd_nil)

/-! ## From the end of a path -/

/-- The selection of the end of indices that lead somewhere, with the fields along them. Without any
    field there is none yet: what a path from elsewhere goes on with is the end itself. -/
theorem Leads.selectsEnd {record : Schema} {indices : List Nat} {target : Option Schema}
    (h : Leads reg record indices target) {tail : Option RecordSelection}
    (htail : RecordPath.TailFits reg target tail) :
    ∃ steps s, RecordPath.walkFrom reg record indices = .ok steps ∧
      (steps = [] ∧ target = some record ∧ (tail <|> some (.undefined record)) = some s ∨
        RecordPath.selectionOf? reg tail steps = some s) ∧
      SelectsEnd reg s indices (tail <|> target.map .undefined) := by
  induction h with
  | nil record =>
    cases tail with
    | none => exact ⟨[], .undefined record, rfl, .inl ⟨rfl, rfl, rfl⟩, selectsEnd_nil _⟩
    | some t => exact ⟨[], t, rfl, .inl ⟨rfl, rfl, rfl⟩, selectsEnd_nil t⟩
  | @last record i f found leaf =>
    -- A path that ends without a record has no room for a tail.
    -- There is no tail at a field without a nested record.
    have hnone : tail = none := by
      cases tail with
      | none => rfl
      | some t =>
        obtain ⟨next, hnext, -⟩ := htail t rfl
        cases hnext
    subst hnone
    refine ⟨[(record, i, f)], (RecordSelection.empty record).put i none,
      RecordPath.walkFrom_of_leaf found leaf [], .inr ?_, .last found⟩
    rw [RecordPath.selectionOf?, RecordSelection.fullChild, leaf]
    rfl
  | @cons record next i f rest target found nested more ih =>
    obtain ⟨steps, s, hsteps, hselection, hend⟩ := ih htail
    refine ⟨(record, i, f) :: steps, (RecordSelection.empty record).put i (some s), ?_, .inr ?_,
      hend.cons found⟩
    · rw [RecordPath.walkFrom_of_nested found nested, hsteps]
      rfl
    -- Either the selection below has been made, or the field is the last one.
    · rcases hselection with ⟨rfl, -, hs⟩ | hs
      · have hfull : RecordSelection.fullChild reg f = some (.undefined next) := by
          rw [RecordSelection.fullChild, nested]
          rfl
        show some ((RecordSelection.empty record).put i (tail <|> _)) = _
        rw [hfull, hs]
      · cases steps with
        | nil => cases hs
        | cons step steps =>
          show some ((RecordSelection.empty record).put i (RecordPath.selectionOf? reg tail _)) = _
          rw [hs]

/-- The fields along indices that lead somewhere are those at the indices, and the last of them has
    the nested record that the indices lead to. -/
theorem Leads.walk_last {record : Schema} {indices : List Nat} {target : Option Schema}
    (h : Leads reg record indices target) (hne : indices ≠ []) :
    ∃ steps r i f, RecordPath.walkFrom reg record indices = .ok (steps ++ [(r, i, f)]) ∧
      (steps ++ [(r, i, f)]).map (fun step => step.2.1) = indices ∧ f.record reg = target := by
  induction h with
  -- By induction on the indices: the last field of the rest is the last of all, unless there is no
  -- rest.
  | nil record => exact absurd rfl hne
  | @last record i f found leaf =>
    exact ⟨[], record, i, f, RecordPath.walkFrom_of_leaf found leaf [], rfl, leaf⟩
  | @cons record next i f rest target found nested more ih =>
    rw [RecordPath.walkFrom_of_nested found nested]
    by_cases hrest : rest = []
    · subst hrest
      cases more with
      | nil => exact ⟨[], record, i, f, rfl, rfl, nested⟩
    · obtain ⟨steps, r, j, g, hwalk, hindices, hg⟩ := ih hrest
      refine ⟨(record, i, f) :: steps, r, j, g, ?_, ?_, hg⟩
      · rw [hwalk]
        rfl
      · rw [List.cons_append, List.map_cons, hindices]

namespace RecordPath

/-- The selection of the end of a path with fields, in terms of what is at its end. -/
theorem toSelection_selectsEnd {p : RecordPath} {target : Option Schema}
    (hleads : Leads reg p.record p.indices target) (htail : TailFits reg target p.tail)
    (hne : p.indices ≠ []) :
    ∃ s, p.toSelection reg = .ok s ∧
      SelectsEnd reg s p.indices (p.tail <|> target.map .undefined) := by
  obtain ⟨steps, s, hsteps, hselection, hend⟩ := hleads.selectsEnd htail
  refine ⟨s, ?_, hend⟩
  obtain ⟨rfl, -, -⟩ | hs := hselection
  -- There is a last field, so the walk has a step and a selection has been made.
  · obtain ⟨steps, r, i, f, hwalk, -, -⟩ := hleads.walk_last hne
    rw [hsteps] at hwalk
    cases steps <;> cases hwalk
  · rw [toSelection, walk, hsteps]
    simp only [bind, Except.bind, hs]
    rfl

/-- What there is at the end of a path, in a selection that selects the path, selects what the
    selection selects behind the path. -/
theorem selectionAt_exact {p : RecordPath} (hp : p.WellFormed reg) {s : RecordSelection}
    (hs : s.WellFormed reg) (hrecord : s.record = p.record) (hpath : s.Includes reg p.indices) :
    ∃ part, p.selectionAt reg s = .ok part ∧ ∀ t, part = some t →
      ∀ path, t.Includes reg path ↔ s.Includes reg (p.indices ++ path) := by
  obtain ⟨part, hpart, -⟩ := selectionAt_total hp hs
  refine ⟨part, hpart, ?_⟩
  rintro t rfl path
  rw [selectionAt, if_pos hrecord] at hpart
  exact RecordSelection.includes_append_iff hpath hpart path

/-- The selection of the end of a path that is put together from segments. It selects what leads to
    the end, the end, and behind it what the tail selects, or without a tail the selection that is
    left open of the record there. At the end of the path that is found in it, and nothing exactly
    if the last field has no nested record. In any other selection that selects the path, what is
    found there selects what is selected behind the path. -/
theorem toSelection_exact {record : Schema} {segments : List Segment} {p : RecordPath}
    (hsound : ∀ segment ∈ segments, segment.Sound reg)
    (hp : ofSegments reg record segments = .ok p) (hne : p.indices ≠ []) :
    ∃ steps r i f s, p.walk reg = .ok (steps ++ [(r, i, f)]) ∧
      (steps ++ [(r, i, f)]).map (fun step => step.2.1) = p.indices ∧
      p.tailRecord reg = .ok (f.record reg) ∧ p.toSelection reg = .ok s ∧
      (∀ path, s.Includes reg path ↔ path <+: p.indices ∨ ∃ rest t, path = p.indices ++ rest ∧
        (p.tail <|> (f.record reg).map .undefined) = some t ∧ t.Includes reg rest) ∧
      p.selectionAt reg s = .ok (p.tail <|> (f.record reg).map .undefined) ∧
      (p.selectionAt reg s = .ok none ↔ f.record reg = none) ∧
      ∀ s', s'.WellFormed reg → s'.record = p.record → s'.Includes reg p.indices →
        ∃ part, p.selectionAt reg s' = .ok part ∧ ∀ t, part = some t →
          ∀ path, t.Includes reg path ↔ s'.Includes reg (p.indices ++ path) := by
  obtain ⟨target, hleads, htail⟩ := (ofSegments_meets hsound).of_eq_ok hp
  obtain ⟨steps, r, i, f, hwalk, hindices, rfl⟩ := hleads.walk_last hne
  obtain ⟨s, hs, hend⟩ := toSelection_selectsEnd hleads htail hne
  -- Paths that are put together from segments are well-formed, which is all that is used of them.
  have hwell : p.WellFormed reg := ⟨_, hleads, htail⟩
  have hrecord : s.record = p.record := (of_exists_eq_ok (toSelection_total hwell) hs).1
  have hat : p.selectionAt reg s = .ok (p.tail <|> (f.record reg).map .undefined) := by
    rw [selectionAt, if_pos hrecord]
    exact hend.along
  refine ⟨steps, r, i, f, s, hwalk, hindices, tailRecord_eq hleads, hs, hend.includes, hat, ?_,
    fun s' hs' hrecord' hpath => selectionAt_exact hwell hs' hrecord' hpath⟩
  -- Without a tail, nothing is found exactly if there is no record to select from.
  rw [hat]
  constructor
  · intro hnone
    cases hr : f.record reg with
    | none => rfl
    | some next =>
      rw [hr] at hnone
      cases htail' : p.tail <;> rw [htail'] at hnone <;> cases hnone
  · intro hr
    rw [hr] at htail ⊢
    cases htail' : p.tail with
    | none => rfl
    | some t =>
      obtain ⟨next, hnext, -⟩ := htail t htail'
      cases hnext

/-- The selection of the parent of a node with its id as the tail. -/
theorem toSelection_exact_openThenId :
    ∃ s, (toParent (some ((RecordSelection.empty Schema.node).put 0 none))).toSelection
        Registry.ofNode = .ok s ∧
      (toParent (some ((RecordSelection.empty Schema.node).put 0 none))).selectionAt
        Registry.ofNode s = .ok (some ((RecordSelection.empty Schema.node).put 0 none)) ∧
      ¬ s.Includes Registry.ofNode [2, 1] := by
  have hsound : ∀ segment ∈ Segment.openThenId, segment.Sound Registry.ofNode := by
    intro segment hmem
    simp only [Segment.openThenId, List.mem_cons, List.not_mem_nil, or_false] at hmem
    rcases hmem with rfl | rfl | rfl <;> trivial
  obtain ⟨steps, r, i, f, s, -, -, -, hs, hincludes, hat, -, -⟩ :=
    toSelection_exact hsound ofSegments_openThenId (List.cons_ne_nil 2 [])
  refine ⟨s, hs, hat, fun h => ?_⟩
  rcases (hincludes [2, 1]).1 h with hpre | ⟨rest, t, heq, hend, hmore⟩
  · exact absurd hpre (by decide)
  · have hrest : [2, 1] = [2] ++ rest := heq
    cases hrest
    cases hend
    exact absurd hmore.1 (by decide)

end RecordPath

end FieldMask
