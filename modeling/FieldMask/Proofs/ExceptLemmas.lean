import FieldMask.Error
import Mathlib.Data.List.Forall2

/-!
# Computations that succeed

A computation that succeeds has succeeded at each of its steps, and errors that are reported as
seen from an enclosing field do not change what succeeds. A computation that relies on some of its
arguments keeps to its contract if it never ends in a misuse.

## Key results

- `bind_eq_ok_iff`: two computations in a row succeed if both do
- `mapM_eq_ok_iff` / `exists_mapM_eq_error_iff`: one computation for each element of a list
- `foldlM_ok_induction` / `foldlM_total`: what a fold keeps, and that it succeeds
- `misused_liftM_iff` / `misused_liftM_bind_iff`: when computations end in a misuse
- `Meets.bind`: computations in a row keep to their contracts if each of them does
-/

namespace FieldMask

variable {ε α β σ : Type}

/-- Two computations in a row succeed if both do. -/
theorem bind_eq_ok_iff {x : Except ε α} {f : α → Except ε β} {b : β} :
    x >>= f = .ok b ↔ ∃ a, x = .ok a ∧ f a = .ok b := by
  cases x with
  | error e => simp [bind, Except.bind]
  | ok a => simp [bind, Except.bind]

/-- There is a result of two computations in a row if there is one of each. -/
theorem exists_bind_eq_ok_iff {x : Except ε α} {f : α → Except ε β} :
    (∃ b, x >>= f = .ok b) ↔ ∃ a, x = .ok a ∧ ∃ b, f a = .ok b := by
  simp only [bind_eq_ok_iff]
  exact ⟨fun ⟨b, a, ha, hb⟩ => ⟨a, ha, b, hb⟩, fun ⟨a, ha, b, hb⟩ => ⟨b, a, ha, hb⟩⟩

/-- What is done at last with a result does not keep a computation from succeeding. -/
theorem exists_bind_pure_eq_ok_iff {x : Except ε α} {f : α → β} :
    (∃ b, (x >>= fun a => pure (f a)) = .ok b) ↔ ∃ a, x = .ok a := by
  rw [exists_bind_eq_ok_iff]
  exact exists_congr fun a => and_iff_left ⟨f a, rfl⟩

/-- Two computations that do not depend on each other succeed if both do. -/
theorem exists_bind_bind_pure_eq_ok_iff {γ : Type} {x : Except ε α} {y : Except ε β}
    {f : α → β → γ} : (∃ c, (x >>= fun a => y >>= fun b => pure (f a b)) = .ok c) ↔
      (∃ a, x = .ok a) ∧ ∃ b, y = .ok b := by
  rw [exists_bind_eq_ok_iff, ← exists_and_right]
  exact exists_congr fun a => and_congr_right fun _ => exists_bind_pure_eq_ok_iff

/-- What is done at last with a result does not fail. -/
theorem eq_error_of_bind_pure {x : Except ε α} {g : α → β} {e : ε}
    (h : (x >>= fun a => pure (g a)) = .error e) : x = .error e := by
  cases x with
  | ok a => cases h
  | error e' =>
    cases h
    rfl

/-- A computation that is known to succeed with some property only gives what has it. -/
theorem of_exists_eq_ok {x : Except ε α} {P : α → Prop} (hx : ∃ a, x = .ok a ∧ P a) {a : α}
    (h : x = .ok a) : P a := by
  obtain ⟨a', ha', hP⟩ := hx
  rw [h] at ha'
  cases ha'
  exact hP

/-- What becomes of its errors does not change what succeeds. Seen as one that may fail in other
    ways as well, a computation succeeds as before. -/
theorem mapError_eq_ok_iff {δ : Type} {g : ε → δ} {x : Except ε α} {a : α} :
    x.mapError g = .ok a ↔ x = .ok a := by
  cases x <;> simp [Except.mapError]

/-- The path of an error does not change what succeeds. -/
@[simp] theorem within_eq_ok_iff {field : String} {x : Except Error α} {a : α} :
    within field x = .ok a ↔ x = .ok a := by
  cases x <;> simp [within]

/-- One after the other, computations succeed if all of them do, with what each of them gives. -/
theorem mapM_eq_ok_iff {f : α → Except ε β} {l : List α} {bs : List β} :
    l.mapM f = .ok bs ↔ List.Forall₂ (fun a b => f a = .ok b) l bs := by
  induction l generalizing bs with
  | nil =>
    rw [List.mapM_nil, List.forall₂_nil_left_iff]
    constructor
    · intro h
      cases h
      rfl
    · rintro rfl
      rfl
  -- The first result and the results behind it are those of the two steps of `mapM` on `a :: rest`.
  | cons a rest ih =>
    rw [List.mapM_cons, bind_eq_ok_iff]
    constructor
    · rintro ⟨b, hb, h⟩
      obtain ⟨bs', hbs', heq⟩ := bind_eq_ok_iff.1 h
      cases heq
      exact .cons hb (ih.1 hbs')
    · rintro (_ | ⟨hb, hbs⟩)
      exact ⟨_, hb, bind_eq_ok_iff.2 ⟨_, ih.2 hbs, rfl⟩⟩

/-- Computations that all succeed do so one after the other. -/
theorem mapM_eq_ok_of_forall {f : α → Except ε β} {g : α → β} {l : List α}
    (h : ∀ a ∈ l, f a = .ok (g a)) : l.mapM f = .ok (l.map g) := by
  rw [mapM_eq_ok_iff, List.forall₂_map_right_iff, List.forall₂_same]
  exact h

/-- One after the other, computations fail if one of them does. -/
theorem exists_mapM_eq_error_iff {f : α → Except ε β} {l : List α} :
    (∃ e, l.mapM f = .error e) ↔ ∃ a ∈ l, ∃ e, f a = .error e := by
  induction l with
  | nil =>
    refine iff_of_false ?_ (by simp)
    rintro ⟨e, h⟩
    cases h
  -- By cases on the first computation, then on the others: an error of either is one of the list.
  | cons a rest ih =>
    rw [List.exists_mem_cons_iff, ← ih, List.mapM_cons]
    cases ha : f a with
    | error e => exact iff_of_true ⟨e, rfl⟩ (.inl ⟨e, rfl⟩)
    | ok b =>
      cases hrest : rest.mapM f with
      | error e => exact iff_of_true ⟨e, rfl⟩ (.inr ⟨e, rfl⟩)
      | ok bs =>
        refine iff_of_false ?_ ?_
        · rintro ⟨e, h⟩
          cases h
        · rintro (⟨e, h⟩ | ⟨e, h⟩) <;> cases h

/-- What every step of a fold keeps, the fold keeps. -/
theorem foldlM_ok_induction {f : σ → α → Except ε σ} {motive : σ → Prop} {l : List α} {s s' : σ}
    (step : ∀ s a s', a ∈ l → motive s → f s a = .ok s' → motive s') (hs : motive s)
    (h : l.foldlM f s = .ok s') : motive s' := by
  induction l generalizing s with
  | nil => cases h; exact hs
  | cons a rest ih =>
    -- One step of the fold, then the hypothesis for what is behind it, from where that step led to.
    rw [List.foldlM_cons] at h
    obtain ⟨t, ha, hrest⟩ := bind_eq_ok_iff.1 h
    exact ih (fun s b s' hb => step s b s' (List.mem_cons_of_mem a hb))
      (step s a t List.mem_cons_self hs ha) hrest

/-- If every step of a fold succeeds from what the fold keeps, the fold succeeds. -/
theorem foldlM_total {f : σ → α → Except ε σ} {motive : σ → Prop} {l : List α} {s : σ}
    (step : ∀ s a, a ∈ l → motive s → ∃ s', f s a = .ok s' ∧ motive s') (hs : motive s) :
    ∃ s', l.foldlM f s = .ok s' ∧ motive s' := by
  induction l generalizing s with
  | nil => exact ⟨s, rfl, hs⟩
  | cons a rest ih =>
    obtain ⟨t, ht, hmotive⟩ := step s a List.mem_cons_self hs
    rw [List.foldlM_cons, ht]
    exact ih (fun s b hb => step s b (List.mem_cons_of_mem a hb)) hmotive

/-- A fold that fails does so at a first element. -/
theorem foldlM_eq_error {f : σ → α → Except ε σ} {l : List α} {s : σ} {e : ε}
    (h : l.foldlM f s = .error e) :
    ∃ before a after t, l = before ++ a :: after ∧ before.foldlM f s = .ok t ∧
      f t a = .error e := by
  induction l generalizing s with
  | nil => cases h
  | cons a rest ih =>
    rw [List.foldlM_cons] at h
    cases ha : f s a with
    | error e' =>
      rw [ha] at h
      cases h
      exact ⟨[], a, rest, s, rfl, rfl, ha⟩
    | ok t =>
      -- The fold stops at its first step, with nothing in front of it.
      rw [ha] at h
      obtain ⟨before, b, after, u, heq, hbefore, hb⟩ := ih h
      refine ⟨a :: before, b, after, u, by rw [heq, List.cons_append], ?_, hb⟩
      rw [List.foldlM_cons, ha]
      exact hbefore

/-! ## Computations that are relied on -/

/-- A computation gives something with a property, or fails with an error of the request. It does
    not end in a misuse. -/
def Meets (P : α → Prop) : Except Failure α → Prop
  | .ok a => P a
  | .error (.error _) => True
  | .error (.misuse _) => False

section Meets

variable {P : α → Prop} {Q : β → Prop}

/-- What a computation gives has what it is to give. -/
theorem Meets.of_eq_ok {x : Except Failure α} {a : α} (h : Meets P x) (hx : x = .ok a) : P a := by
  rw [hx] at h
  exact h

/-- A computation that keeps to its contract does not end in a misuse. -/
theorem Meets.ne_misuse {x : Except Failure α} (h : Meets P x) (m : Misuse) :
    x ≠ .error (.misuse m) := by
  rintro rfl
  exact h

/-- Two computations in a row. -/
theorem Meets.bind {x : Except Failure α} {f : α → Except Failure β} (hx : Meets P x)
    (hf : ∀ a, P a → Meets Q (f a)) : Meets Q (x >>= f) := by
  cases x with
  | ok a => exact hf a hx
  | error e =>
    cases e with
    | error e => trivial
    | misuse m => cases hx

/-- A computation ends in a misuse. -/
def Misused (x : Except Failure α) : Prop := ∃ m, x = .error (.misuse m)

/-- A result is no misuse. -/
theorem not_misused_ok (a : α) : ¬ Misused (.ok a) := by
  rintro ⟨m, h⟩
  cases h

/-- An error of the request is no misuse. -/
theorem not_misused_error (e : Error) : ¬ Misused (.error (.error e) : Except Failure α) := by
  rintro ⟨m, h⟩
  cases h

/-- A computation that relies on what it is given ends in a misuse if it does not succeed. -/
theorem misused_liftM_iff {x : Except Misuse α} :
    Misused (liftM x : Except Failure α) ↔ ¬ ∃ a, x = .ok a := by
  cases x with
  | error m =>
    refine iff_of_true ⟨m, rfl⟩ ?_
    rintro ⟨a, h⟩
    cases h
  | ok a => exact iff_of_false (not_misused_ok a) (not_not_intro ⟨a, rfl⟩)

/-- What is done with the result of a computation that checks all that it is given may be a
    misuse. -/
theorem misused_liftM_bind_iff {x : Except Error α} {f : α → Except Failure β} :
    Misused ((liftM x : Except Failure α) >>= f) ↔ ∃ a, x = .ok a ∧ Misused (f a) := by
  cases x with
  | error e =>
    refine iff_of_false (not_misused_error e) ?_
    rintro ⟨a, h, -⟩
    cases h
  | ok a =>
    constructor
    · intro h
      exact ⟨a, rfl, h⟩
    · rintro ⟨a', h, hf⟩
      cases h
      exact hf

/-- What is done at last with a result is no misuse. -/
theorem misused_bind_pure_iff {x : Except Failure α} {f : α → β} :
    Misused (x >>= fun a => pure (f a)) ↔ Misused x := by
  cases x with
  | ok a => exact iff_of_false (not_misused_ok (f a)) (not_misused_ok a)
  | error e =>
    cases e with
    | error e => exact iff_of_false (not_misused_error e) (not_misused_error e)
    | misuse m => exact iff_of_true ⟨m, rfl⟩ ⟨m, rfl⟩

/-- A computation that checks all that it is given. -/
theorem meets_of_error {x : Except Error α} (h : ∀ a, x = .ok a → P a) :
    Meets P (liftM x : Except Failure α) := by
  cases x with
  | ok a => exact h a rfl
  | error e => trivial

/-- A computation that relies on what it is given, and may do so. -/
theorem meets_of_misuse {x : Except Misuse α} (h : ∃ a, x = .ok a ∧ P a) :
    Meets P (liftM x : Except Failure α) := by
  obtain ⟨a, rfl, ha⟩ := h
  exact ha

/-- A fold of computations. -/
theorem meets_foldlM {f : β → α → Except Failure β} {l : List α} {b : β} (hb : Q b)
    (step : ∀ b a, a ∈ l → Q b → Meets Q (f b a)) : Meets Q (l.foldlM f b) := by
  induction l generalizing b with
  | nil => exact hb
  | cons a rest ih =>
    rw [List.foldlM_cons]
    exact (step b a List.mem_cons_self hb).bind fun b' hb' =>
      ih hb' fun b'' a' ha' => step b'' a' (List.mem_cons_of_mem a ha')

end Meets

end FieldMask
