import FieldMask.Proofs.FieldwiseAlgebra
import Mathlib.Data.Fintype.EquivFin

/-!
# What two selections by name have in common

A selection by name takes paths of names, and it is determined by those that it takes. That one
which is left open differs from every other one: it takes all names, and a defined selection takes
finitely many of them. So two selections are told apart by paths, and picking, which takes the paths
that both take, obeys the laws of intersection.

## Key results

- `hasPath_pick`: what is picked takes the paths that both selections take
- `eq_of_hasPath_iff`: selections that take the same paths are equal
- `pick_intersection`: the laws of picking
-/

namespace FieldMask.NameSelection

variable {fields : OrderedMap String NameSelection}

@[simp] theorem hasPath_undefined (path : List String) : undefined.hasPath path = true := by
  cases path <;> rfl

/-- A defined selection takes a path if it names the first field and takes the others there. -/
theorem hasPath_defined_cons_iff {name : String} {rest : List String} :
    (defined fields).hasPath (name :: rest) = true ↔
      ∃ child, fields.get? name = some child ∧ child.hasPath rest = true := by
  rw [hasPath, isUndefined, Bool.false_or, field?, NameSelection.fields]
  cases fields.get? name <;> simp

/-! ## Picking and paths -/

/-- What is picked takes the paths that both selections take. -/
theorem hasPath_pick (s q : NameSelection) (path : List String) :
    (s.pick q).hasPath path = true ↔ s.hasPath path = true ∧ q.hasPath path = true := by
  induction path generalizing s q with
  | nil => simp [hasPath]
  | cons name rest ih =>
    -- A selection that is left open takes every path, so only the other one counts.
    cases q with
    | undefined => simp [pick]
    | defined query =>
      cases s with
      | undefined => simp [pick]
      | defined fields =>
        rw [pick, hasPath_defined_cons_iff, hasPath_defined_cons_iff, hasPath_defined_cons_iff,
          get?_pickFields]
        cases fields.get? name with
        | none => simp [pickAt]
        | some current =>
          cases query.get? name with
          | none => simp [pickAt]
          | some query => simp [pickAt, ih]

/-! ## Telling selections apart -/

/-- A defined selection does not take every path: it misses the names that it does not name. -/
theorem not_forall_hasPath (fields : OrderedMap String NameSelection) :
    ¬ ∀ path, (defined fields).hasPath path = true := by
  intro h
  -- There is a name that is not among the finitely many that are named.
  obtain ⟨name, hfresh⟩ := Infinite.exists_notMem_finset fields.keys.toFinset
  obtain ⟨child, hchild, -⟩ := hasPath_defined_cons_iff.1 (h [name])
  refine hfresh (List.mem_toFinset.2 ?_)
  exact List.mem_map.2 ⟨(name, child), Entries.mem_toList_iff_get?_eq_some.2 hchild, rfl⟩

/-- Selections that take the same paths are equal. -/
theorem eq_of_hasPath_iff {s t : NameSelection}
    (h : ∀ path, s.hasPath path = true ↔ t.hasPath path = true) : s = t := by
  induction s using induction generalizing t with
  | undefined =>
    cases t with
    | undefined => rfl
    | defined others =>
      exact absurd (fun path => (h path).1 (hasPath_undefined path)) (not_forall_hasPath others)
  | defined fields ih =>
    cases t with
    | undefined =>
      exact absurd (fun path => (h path).2 (hasPath_undefined path)) (not_forall_hasPath fields)
    | defined others =>
      have hcons : ∀ name rest,
          (∃ child, fields.get? name = some child ∧ child.hasPath rest = true) ↔
            ∃ child, others.get? name = some child ∧ child.hasPath rest = true := fun name rest =>
        hasPath_defined_cons_iff.symm.trans ((h (name :: rest)).trans hasPath_defined_cons_iff)
      refine congrArg defined (Entries.ext_get? fun name => ?_)
      cases hs : fields.get? name with
      | none =>
        cases ht : others.get? name with
        | none => rfl
        | some other =>
          -- Only one of the two takes the path of this one name.
          obtain ⟨child, hchild, -⟩ := (hcons name []).2 ⟨other, ht, rfl⟩
          rw [hs] at hchild
          cases hchild
      | some child =>
        obtain ⟨other, ht, -⟩ := (hcons name []).1 ⟨child, hs, rfl⟩
        have hpaths : ∀ rest, child.hasPath rest = true ↔ other.hasPath rest = true := by
          simpa [hs, ht] using hcons name
        rw [ht, ih name child hs hpaths]

/-- Picking is intersection of the paths that are taken. So it is commutative, associative and
    idempotent, leaves a selection as it is where the other one is left open, and gives the
    selection of no field where one of the two is that. -/
theorem pick_intersection :
    (∀ (s q : NameSelection) (path : List String),
      (s.pick q).hasPath path = true ↔ s.hasPath path = true ∧ q.hasPath path = true) ∧
    (∀ s q : NameSelection, s.pick q = q.pick s) ∧
    (∀ s q r : NameSelection, (s.pick q).pick r = s.pick (q.pick r)) ∧
    (∀ s : NameSelection, s.pick s = s) ∧
    (∀ s : NameSelection, s.pick undefined = s ∧ undefined.pick s = s) ∧
    ∀ s : NameSelection, s.pick empty = empty ∧ empty.pick s = empty := by
  have hcomm : ∀ s q : NameSelection, s.pick q = q.pick s := fun s q =>
    eq_of_hasPath_iff fun path => by rw [hasPath_pick, hasPath_pick, and_comm]
  have hassoc : ∀ s q r : NameSelection, (s.pick q).pick r = s.pick (q.pick r) := fun s q r =>
    eq_of_hasPath_iff fun path => by simp only [hasPath_pick, and_assoc]
  have hidem : ∀ s : NameSelection, s.pick s = s := fun s =>
    eq_of_hasPath_iff fun path => by rw [hasPath_pick, and_self]
  have hopen : ∀ s : NameSelection, s.pick undefined = s := fun s =>
    eq_of_hasPath_iff fun path => by simp only [hasPath_pick, hasPath_undefined, and_true]
  -- The selection of no field takes the path of no name only, and every selection takes that.
  have hempty : ∀ s : NameSelection, s.pick empty = empty := fun s =>
    eq_of_hasPath_iff fun path => by
      rw [hasPath_pick]
      cases path with
      | nil => simp [hasPath]
      | cons name rest => simp [empty, hasPath_defined_cons_iff]
  exact ⟨hasPath_pick, hcomm, hassoc, hidem, fun s => ⟨hopen s, (hcomm _ _).trans (hopen s)⟩,
    fun s => ⟨hempty s, (hcomm _ _).trans (hempty s)⟩⟩

end FieldMask.NameSelection
