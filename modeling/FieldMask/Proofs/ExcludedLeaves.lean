import FieldMask.Proofs.BindingPaths
import FieldMask.Proofs.FieldwiseAlgebra

/-!
# Excluding by name, leaf by leaf

A leaf of a selection by name is a path to a field that is selected in full. A query covers it if it
names it, or a field above it, in full. Excluding drops exactly the leaves that a query covers, and
those below which it names something: without a schema there is no saying what else is there.

Where a query names nothing below the leaves of a selection, each leaf is thus either picked or
left.

## Key results

- `isLeaf_exclude_iff`: the leaves that are left
- `isLeaf_pick_iff`: the leaves that are picked
- `exclude_exclude`: excluding the same once more changes nothing
- `exclude_leaves`: what is left, and how it complements what is picked
-/

namespace FieldMask.NameSelection

variable {s q t : NameSelection} {query : OrderedMap String NameSelection} {name : String}
  {path rest : List String}

/-! ## Leaves -/

/-- The selection at the end of a path that is named, step by step. -/
def nodeAt? (s : NameSelection) : List String → Option NameSelection
  | [] => some s
  | name :: rest => (s.field? name).bind fun child => child.nodeAt? rest
termination_by structural path => path

/-- A path is named, and selected in full. -/
def IsLeaf (s : NameSelection) (path : List String) : Prop := s.nodeAt? path = some undefined

/-- A path is selected in full, or one that it goes on from is. -/
def Covers (q : NameSelection) (path : List String) : Prop := ∃ pre, pre <+: path ∧ q.IsLeaf pre

/-- A path is named, and fields below it are. -/
def NamesBelow (q : NameSelection) (path : List String) : Prop :=
  ∃ node, q.nodeAt? path = some node ∧ node.isUndefinedOrEmpty = false

/-- The node at the end of a path is looked up below its first name. -/
theorem nodeAt?_cons_eq_some_iff :
    s.nodeAt? (name :: rest) = some t ↔
      ∃ child, s.field? name = some child ∧ child.nodeAt? rest = some t :=
  Option.bind_eq_some_iff

/-- A path in two parts leads to the node that the second part leads to from that of the first. -/
theorem nodeAt?_append (pre : List String) :
    s.nodeAt? (pre ++ rest) = (s.nodeAt? pre).bind fun node => node.nodeAt? rest := by
  induction pre generalizing s with
  | nil => rfl
  | cons name pre ih =>
    rw [List.cons_append, nodeAt?, nodeAt?, Option.bind_assoc]
    exact Option.bind_congr fun child _ => ih

/-- A selection that names no field has a node at the root only. -/
theorem nodeAt?_cons_of_isUndefinedOrEmpty (hs : s.isUndefinedOrEmpty = true) :
    s.nodeAt? (name :: rest) = none := by
  have hfield : s.field? name = none := by
    cases s with
    | undefined => rfl
    | defined fields =>
      have hnil : fields = .nil := Entries.isEmpty_iff.1 hs
      rw [hnil]
      rfl
  rw [nodeAt?, hfield, Option.bind_none]

/-- The root is a leaf only of a selection that is left open. -/
theorem isLeaf_nil_iff : s.IsLeaf [] ↔ s = undefined :=
  Option.some_inj

/-- The leaves of a selection are those of its fields, behind their names. -/
theorem isLeaf_cons_iff :
    s.IsLeaf (name :: rest) ↔ ∃ child, s.field? name = some child ∧ child.IsLeaf rest :=
  nodeAt?_cons_eq_some_iff

/-- A selection that is left open has its root as the only leaf. -/
theorem isLeaf_undefined_iff : undefined.IsLeaf path ↔ path = [] := by
  cases path with
  | nil => simp [isLeaf_nil_iff]
  | cons name rest =>
    have hnone : undefined.nodeAt? (name :: rest) = none := rfl
    simp [IsLeaf, hnone]

/-- A selection of no field has no leaf. -/
theorem not_isLeaf_of_isEmpty (hs : s.isEmpty = true) : ¬ s.IsLeaf path := by
  cases path with
  | nil =>
    intro hleaf
    cases isLeaf_nil_iff.1 hleaf
    cases hs
  | cons name rest =>
    have hnone : s.nodeAt? (name :: rest) = none :=
      nodeAt?_cons_of_isUndefinedOrEmpty (by rw [isUndefinedOrEmpty, hs, Bool.or_true])
    rw [IsLeaf, hnone]
    exact nofun

/-! ### What a query covers -/

@[simp] theorem covers_undefined (path : List String) : undefined.Covers path :=
  ⟨[], List.nil_prefix, rfl⟩

/-- The root is covered only by a query that is left open. -/
theorem covers_nil_iff : q.Covers [] ↔ q = undefined := by
  simp [Covers, isLeaf_nil_iff]

/-- A defined selection covers a path if it covers what comes after the first field there. -/
theorem covers_defined_cons_iff :
    (defined query).Covers (name :: rest) ↔
      ∃ child, query.get? name = some child ∧ child.Covers rest := by
  constructor
  · rintro ⟨pre, hpre, hleaf⟩
    -- What covers the path is in full at some part of it, which begins with the same name.
    cases pre with
    | nil => cases isLeaf_nil_iff.1 hleaf
    | cons first pre =>
      obtain ⟨rfl, hrest⟩ := List.cons_prefix_cons.1 hpre
      obtain ⟨child, hchild, hleaf⟩ := isLeaf_cons_iff.1 hleaf
      exact ⟨child, hchild, pre, hrest, hleaf⟩
  · rintro ⟨child, hchild, pre, hpre, hleaf⟩
    exact ⟨name :: pre, List.cons_prefix_cons.2 ⟨rfl, hpre⟩,
      isLeaf_cons_iff.2 ⟨child, hchild, hleaf⟩⟩

/-- Of a defined selection the root is no leaf. -/
theorem not_covers_iff (hq : q.isUndefined = false) :
    ¬ q.Covers path ↔ ∀ pre, pre ≠ [] → pre <+: path → ¬ q.IsLeaf pre := by
  constructor
  · exact fun h pre _ hpre hleaf => h ⟨pre, hpre, hleaf⟩
  · rintro h ⟨pre, hpre, hleaf⟩
    refine h pre ?_ hpre hleaf
    rintro rfl
    cases isLeaf_nil_iff.1 hleaf
    cases hq

/-- Fields are named below the root if any are named at all. -/
theorem namesBelow_nil_iff : q.NamesBelow [] ↔ q.isUndefinedOrEmpty = false := by
  simp [NamesBelow, nodeAt?]

/-- Fields are named below a path if they are below what its first name stands for. -/
theorem namesBelow_cons_iff :
    q.NamesBelow (name :: rest) ↔ ∃ child, q.field? name = some child ∧ child.NamesBelow rest := by
  simp only [NamesBelow, nodeAt?_cons_eq_some_iff]
  constructor
  · rintro ⟨node, ⟨child, hchild, hnode⟩, hbelow⟩
    exact ⟨child, hchild, node, hnode, hbelow⟩
  · rintro ⟨child, hchild, node, hnode, hbelow⟩
    exact ⟨node, ⟨child, hchild, hnode⟩, hbelow⟩

/-- Below a selection that names no field, nothing is named. -/
theorem not_namesBelow_of_isUndefinedOrEmpty (hq : q.isUndefinedOrEmpty = true) :
    ¬ q.NamesBelow path := by
  cases path with
  | nil => simp [namesBelow_nil_iff, hq]
  | cons name rest => simp [NamesBelow, nodeAt?_cons_of_isUndefinedOrEmpty hq]

/-- Above a leaf a selection names fields. -/
theorem IsLeaf.namesBelow {pre : List String} (h : q.IsLeaf path) (hpre : pre <+: path)
    (hne : pre ≠ path) : q.NamesBelow pre := by
  obtain ⟨rest, rfl⟩ := hpre
  rw [IsLeaf, nodeAt?_append, Option.bind_eq_some_iff] at h
  obtain ⟨node, hnode, hleaf⟩ := h
  -- If the selection named nothing at the node, no leaf could be below it.
  refine ⟨node, hnode, Bool.eq_false_iff.2 fun hnothing => ?_⟩
  cases rest with
  | nil => exact hne (List.append_nil pre).symm
  | cons name rest =>
    rw [nodeAt?_cons_of_isUndefinedOrEmpty hnothing] at hleaf
    cases hleaf

/-! ## What is left -/

/-- Excluding what names no field changes nothing. -/
theorem exclude_of_isUndefinedOrEmpty (s : NameSelection) (hq : q.isUndefinedOrEmpty = true) :
    s.exclude q = s := by
  cases q with
  | undefined => rw [exclude]
  | defined query =>
    have hempty : query.isEmpty = true := hq
    rw [exclude, if_pos hempty]

/-- Excluding what names fields leaves a defined selection. -/
theorem exclude_defined (s : NameSelection) (hq : query.isEmpty = false) :
    s.exclude (defined query) = defined (excludeFields s.fields query) := by
  rw [exclude, hq]
  rfl

/-- Excluding from a defined selection leaves a defined one. -/
theorem isUndefined_exclude (hs : s.isUndefined = false) : (s.exclude q).isUndefined = false := by
  cases hq : q.isUndefinedOrEmpty with
  | true => rwa [exclude_of_isUndefinedOrEmpty s hq]
  | false =>
    cases q with
    | undefined => cases hq
    | defined query =>
      rw [exclude_defined s hq]
      rfl

/-- What is left of a field is the field, or what is left of its selection. -/
theorem eq_or_of_excludeAt_eq_some {current part : Option NameSelection} {left : NameSelection}
    (h : excludeAt current part = some left) :
    current = some left ∨ ∃ c q, current = some c ∧ part = some q ∧ left = c.exclude q ∧
      q.isUndefinedOrEmpty = false ∧ c.isUndefined = false ∧ left.isEmpty = false := by
  cases current with
  | none => cases h
  | some c =>
    cases part with
    | none => exact .inl h
    | some q =>
      rw [excludeAt] at h
      -- The branches of the definition: in full, nothing, a field in full, nothing left, or the
      -- rest.
      split at h
      · cases h
      split at h
      · exact .inl h
      split at h
      · cases h
      split at h
      · cases h
      · rename_i hopen hempty hfull hleft
        cases h
        exact .inr ⟨c, q, rfl, rfl, rfl, by simp [isUndefinedOrEmpty, hopen, hempty],
          Bool.eq_false_iff.2 hfull, Bool.eq_false_iff.2 hleft⟩

/-- The leaves that are left of a field that the selection and the query both name. -/
theorem isLeaf_excludeAt_iff {current part : NameSelection}
    (ih : current.isUndefined = false → part.isUndefined = false →
      ((current.exclude part).IsLeaf rest ↔
        current.IsLeaf rest ∧ ¬ part.Covers rest ∧ ¬ part.NamesBelow rest)) :
    (∃ left, excludeAt (some current) (some part) = some left ∧ left.IsLeaf rest) ↔
      current.IsLeaf rest ∧ ¬ part.Covers rest ∧ ¬ part.NamesBelow rest := by
  rw [excludeAt]
  cases hopen : part.isUndefined with
  | true =>
    cases part with
    | defined fields => cases hopen
    | undefined => simp
  | false =>
    -- A query for no field below spares all of it.
    have hspared : part.isEmpty = true → ¬ part.Covers rest ∧ ¬ part.NamesBelow rest := by
      intro h
      have hnothing : part.isUndefinedOrEmpty = true := by
        rw [isUndefinedOrEmpty, h, Bool.or_true]
      refine ⟨?_, not_namesBelow_of_isUndefinedOrEmpty hnothing⟩
      rintro ⟨_, _, hleaf⟩
      exact not_isLeaf_of_isEmpty h hleaf
    cases hempty : part.isEmpty with
    | true => simp [hspared hempty]
    | false =>
      simp only [Bool.false_eq_true, if_false]
      cases hfull : current.isUndefined with
      | true =>
        -- The field is a leaf, and the query names something below it.
        cases current with
        | defined fields => cases hfull
        | undefined =>
          refine iff_of_false (by simp) ?_
          rintro ⟨hleaf, -, hbelow⟩
          cases isLeaf_undefined_iff.1 hleaf
          have hsomething : part.isUndefinedOrEmpty = false := by
            rw [isUndefinedOrEmpty, hopen, hempty, Bool.or_false]
          exact hbelow (namesBelow_nil_iff.2 hsomething)
      | false =>
        rw [← ih hfull hopen]
        cases hleft : (current.exclude part).isEmpty with
        | true => simp [not_isLeaf_of_isEmpty hleft]
        | false => simp

/-- The leaves that a defined query leaves are those that it does not cover, and below which it
    names nothing. -/
theorem isLeaf_exclude_iff (hs : s.isUndefined = false) (hq : q.isUndefined = false) :
    (s.exclude q).IsLeaf path ↔ s.IsLeaf path ∧ ¬ q.Covers path ∧ ¬ q.NamesBelow path := by
  -- By induction on the path, with the selection and the query at its first name.
  induction path generalizing s q with
  | nil =>
    have hleft : (s.exclude q).isUndefined = false := isUndefined_exclude hs
    rw [isLeaf_nil_iff, isLeaf_nil_iff]
    refine iff_of_false (fun h => ?_) fun h => ?_
    -- The root is no leaf on either side, since both selections are defined.
    · rw [h] at hleft
      cases hleft
    · rw [h.1] at hs
      cases hs
  | cons name rest ih =>
    cases q with
    | undefined => cases hq
    | defined query =>
      rw [covers_defined_cons_iff, namesBelow_cons_iff]
      change _ ↔ _ ∧ _ ∧ ¬ ∃ child, query.get? name = some child ∧ _
      cases hempty : query.isEmpty with
      | true =>
        have hnothing : (defined query).isUndefinedOrEmpty = true := hempty
        have hnil : query = .nil := Entries.isEmpty_iff.1 hempty
        rw [exclude_of_isUndefinedOrEmpty s hnothing, hnil]
        simp
      | false =>
        -- From here on, what is left is compared at the first name of the path.
        rw [exclude_defined s hempty, isLeaf_cons_iff, isLeaf_cons_iff]
        change (∃ child, (excludeFields s.fields query).get? name = some child ∧ _) ↔ _
        rw [get?_excludeFields, ← field?]
        cases s.field? name with
        | none => simp [excludeAt]
        | some current =>
          cases query.get? name with
          | none => simp
          | some part => simpa using isLeaf_excludeAt_iff ih

/-- Nothing is named but what was named before. -/
theorem NamesPath.of_exclude (h : (s.exclude q).NamesPath path) : s.NamesPath path := by
  -- By induction on the path: what is left of the first field is the field or a part of it.
  induction path generalizing s q with
  | nil => trivial
  | cons name rest ih =>
    cases hq : q.isUndefinedOrEmpty with
    | true => rwa [exclude_of_isUndefinedOrEmpty s hq] at h
    | false =>
      cases q with
      | undefined => cases hq
      | defined query =>
        rw [exclude_defined s hq] at h
        obtain ⟨left, hleft, hrest⟩ := h
        have hat : excludeAt (s.field? name) (query.get? name) = some left :=
          (get?_excludeFields s.fields query name).symm.trans hleft
        obtain hsame | ⟨c, q, hc, -, rfl, -⟩ := eq_or_of_excludeAt_eq_some hat
        · exact ⟨left, hsame, hrest⟩
        · exact ⟨c, hc, ih hrest⟩

/-- Excluding the same once more changes nothing. -/
theorem exclude_exclude (s q : NameSelection) : (s.exclude q).exclude q = s.exclude q := by
  -- By induction on the query; what is left is excluded from at each name once more.
  induction q using induction generalizing s with
  | undefined => rw [exclude]
  | defined query ih =>
    cases hempty : query.isEmpty with
    | true =>
      have hnothing : (defined query).isUndefinedOrEmpty = true := hempty
      rw [exclude_of_isUndefinedOrEmpty _ hnothing]
    | false =>
      rw [exclude_defined s hempty, exclude_defined _ hempty]
      refine congrArg defined (Entries.ext_get? fun name => ?_)
      rw [get?_excludeFields]
      change excludeAt ((excludeFields s.fields query).get? name) _ = _
      rw [get?_excludeFields]
      cases hleft : excludeAt (s.fields.get? name) (query.get? name) with
      | none => rfl
      | some left =>
        cases hpart : query.get? name with
        | none => rfl
        | some part =>
          rw [hpart] at hleft
          obtain hsame | ⟨c, q, hc, hq, rfl, hnames, hdefined, hleft⟩ :=
            eq_or_of_excludeAt_eq_some hleft
          · rwa [hsame] at hleft
          · cases hq
            -- Something was left below the field, so excluding there again leaves the same.
            obtain ⟨hopen, hnonempty⟩ := Bool.or_eq_false_iff.1 hnames
            have hagain : (c.exclude part).exclude part = c.exclude part := ih name part hpart c
            simp [excludeAt, hopen, hnonempty, isUndefined_exclude hdefined, hagain, hleft]

/-! ## What is picked -/

/-- A leaf is picked if it is one of either selection, and the other one covers it. -/
theorem isLeaf_pick_iff :
    (s.pick q).IsLeaf path ↔ s.IsLeaf path ∧ q.Covers path ∨ q.IsLeaf path ∧ s.Covers path := by
  -- By induction on the path, with both selections at its first name.
  induction path generalizing s q with
  | nil => cases s <;> cases q <;> simp [pick, isLeaf_nil_iff, covers_nil_iff]
  | cons name rest ih =>
    cases q with
    | undefined => simp [pick, isLeaf_undefined_iff]
    | defined query =>
      cases s with
      | undefined => simp [pick, isLeaf_undefined_iff]
      | defined fields =>
        rw [pick, covers_defined_cons_iff, covers_defined_cons_iff, isLeaf_cons_iff,
          isLeaf_cons_iff, isLeaf_cons_iff]
        simp only [field?, NameSelection.fields, get?_pickFields]
        cases fields.get? name with
        | none => simp [pickAt]
        | some current =>
          cases query.get? name with
          | none => simp [pickAt]
          | some part => simp [pickAt, ih]

/-- Where a query names nothing below the leaves of a selection, the leaves that are picked are
    those that it covers. -/
theorem isLeaf_pick_iff_covers (habove : ∀ path, s.IsLeaf path → ¬ q.NamesBelow path) :
    (s.pick q).IsLeaf path ↔ s.IsLeaf path ∧ q.Covers path := by
  rw [isLeaf_pick_iff, or_iff_left_iff_imp]
  rintro ⟨hleaf, pre, hpre, hs⟩
  -- A leaf of the query at or below one of the selection is the same one.
  by_cases hsame : pre = path
  · subst hsame
    exact ⟨hs, pre, List.prefix_refl pre, hleaf⟩
  · exact absurd (hleaf.namesBelow hpre hsame) (habove pre hs)

/-! ## Leaves that are left and leaves that are picked -/

/-- The title of a book and both names of its author. -/
def titleAndAuthor : NameSelection :=
  (empty.add ["title"]).set "author" (empty.add ["First", "Last"])

/-- The last name of the author of a book. -/
def lastOfAuthor : NameSelection := empty.set "author" (empty.add ["Last"])

/-- Below no leaf of the one selection anything is named by the other. -/
theorem not_namesBelow_lastOfAuthor (h : titleAndAuthor.IsLeaf path) :
    ¬ lastOfAuthor.NamesBelow path := by
  intro hbelow
  cases path with
  | nil => cases isLeaf_nil_iff.1 h
  | cons name rest =>
    -- The author is named with more below, and is no leaf.
    obtain ⟨child, hchild, hbelow⟩ := namesBelow_cons_iff.1 hbelow
    have hauthor : name = "author" ∧ child = empty.add ["Last"] := by
      change (if "author" = name then _ else none) = some child at hchild
      split at hchild <;> simp_all
    obtain ⟨rfl, rfl⟩ := hauthor
    cases rest with
    | nil =>
      obtain ⟨node, hnode, hleaf⟩ := isLeaf_cons_iff.1 h
      cases isLeaf_nil_iff.1 hleaf
      cases hnode
    | cons name rest =>
      obtain ⟨child, hchild, hbelow⟩ := namesBelow_cons_iff.1 hbelow
      have hlast : child = undefined := by
        change (if "Last" = name then some undefined else none) = some child at hchild
        split at hchild <;> simp_all
      subst hlast
      exact not_namesBelow_of_isUndefinedOrEmpty (q := undefined) rfl hbelow

/-- The leaves that are left of a defined selection are those at or above which the query selects
    nothing in full, its root apart, and below which it names nothing. Nothing is named that was not
    named before, and excluding the same again changes nothing.

    If a defined query names nothing below any leaf, each leaf is either picked or left, and there
    are no others. -/
theorem exclude_leaves (hs : s.isUndefined = false) (q : NameSelection) :
    (∀ path, (s.exclude q).IsLeaf path ↔ s.IsLeaf path ∧
      (∀ pre, pre ≠ [] → pre <+: path → ¬ q.IsLeaf pre) ∧ ¬ q.NamesBelow path) ∧
    (∀ path, (s.exclude q).NamesPath path → s.NamesPath path) ∧
    (s.exclude q).exclude q = s.exclude q ∧
    (q.isUndefined = false → (∀ path, s.IsLeaf path → ¬ q.NamesBelow path) → ∀ path,
      (s.IsLeaf path ↔ (s.pick q).IsLeaf path ∨ (s.exclude q).IsLeaf path) ∧
        ¬ ((s.pick q).IsLeaf path ∧ (s.exclude q).IsLeaf path)) := by
  refine ⟨fun path => ?_, fun path => .of_exclude, exclude_exclude s q, fun hq habove path => ?_⟩
  -- An open query excludes nothing, and names nothing in full but its root.
  · cases hq : q.isUndefined with
    | true =>
      cases q with
      | defined query => cases hq
      | undefined =>
        have hroot : ∀ pre, pre ≠ [] → ¬ undefined.IsLeaf pre := fun pre hpre hleaf =>
          hpre (isLeaf_undefined_iff.1 hleaf)
        have hbelow : ¬ undefined.NamesBelow path :=
          not_namesBelow_of_isUndefinedOrEmpty (q := undefined) rfl
        rw [exclude]
        simp +contextual [hroot, hbelow]
    | false => rw [isLeaf_exclude_iff hs hq, not_covers_iff hq]
  -- Each leaf of the selection is covered by the query or not.
  · rw [isLeaf_pick_iff_covers habove, isLeaf_exclude_iff hs hq]
    have := habove path
    tauto

/-- Without the last name of the author, the first name is left, and the last name is what is
    picked. -/
theorem exclude_leaves_lastOfAuthor :
    (titleAndAuthor.exclude lastOfAuthor).IsLeaf ["author", "First"] ∧
      (titleAndAuthor.pick lastOfAuthor).IsLeaf ["author", "Last"] := by
  obtain ⟨-, -, -, hsplit⟩ := exclude_leaves (s := titleAndAuthor) rfl lastOfAuthor
  have habove : ∀ path, titleAndAuthor.IsLeaf path → ¬ lastOfAuthor.NamesBelow path :=
    fun _ => not_namesBelow_lastOfAuthor
  have hfirst := ((hsplit rfl habove ["author", "First"]).1.1 rfl).resolve_left nofun
  have hlast := ((hsplit rfl habove ["author", "Last"]).1.1 rfl).resolve_right nofun
  exact ⟨hfirst, hlast⟩

end FieldMask.NameSelection
