import FieldMask.Proofs.PathProjection

/-!
# Searches along a path

A visit of the values at the end of a path may be stopped at any of them. Where the visitor does not
come in, a visit takes a course of its own: there are values to see, in an order, and it may fail
behind them. Whatever the visitor is, it is shown the values of the course one by one, until it says
to stop or the course is at its end.

So a search that stops early finds the first of the values that are found without stopping. It fails
only where the visit of all values fails too, and it may succeed where that one does not.

## Key results

- `Course.run_append`: a visit goes on to the rest unless it is stopped
- `RecordPath.exists_course`: the course that the visits of a value take
- `RecordPath.searches_agree`: what searches find, in terms of all values
-/

namespace FieldMask

variable {σ : Type} {reg : Registry}

/-- The course of a visit: the values there are to see, one after the other, and what the visit
    fails with behind them, if it does. -/
inductive Course where
  | done
  | fails (e : Failure)
  | sees (v : Value) (rest : Course)

namespace Course

/-- Take a course with a visitor and a state. Where the visitor says to stop nothing that comes
    later is looked at. -/
def run (visitor : σ → Value → σ × Bool) : σ → Course → Except Failure (σ × Bool)
  | state, done => .ok (state, false)
  | _, fails e => .error e
  | state, sees v rest =>
    let next := visitor state v
    if next.2 then .ok next else rest.run visitor next.1

/-- One course after the other. -/
def append : Course → Course → Course
  | done, d => d
  | fails e, _ => fails e
  | sees v rest, d => sees v (rest.append d)

/-- The course with what it fails with as seen from an enclosing field. -/
def under (field : String) : Course → Course
  | done => done
  | fails e => fails (e.under field)
  | sees v rest => sees v (rest.under field)

/-- All values that there are to see. -/
def values : Course → Except Failure (List Value)
  | done => .ok []
  | fails e => .error e
  | sees v rest => do return v :: (← rest.values)

/-- The first value to see that is accepted. -/
def find? (accept : Value → Bool) : Course → Except Failure (Option Value)
  | done => .ok none
  | fails e => .error e
  | sees v rest => if accept v then .ok (some v) else rest.find? accept

variable {c : Course} {visitor : σ → Value → σ × Bool} {accept : Value → Bool}

/-! ## Visits that take a course -/

/-- A single value is all that there is to see. -/
theorem run_sees_done (v : Value) (state : σ) :
    (sees v done).run visitor state = .ok (visitor state v) := by
  rw [run]
  cases hnext : visitor state v with
  | mk state' stop => cases stop <;> rfl

/-- A visit goes on to the rest of a course unless it is stopped. -/
theorem run_append (c d : Course) (state : σ) :
    (c.append d).run visitor state =
      c.run visitor state >>= fun next =>
        if next.2 then .ok next else d.run visitor next.1 := by
  induction c generalizing state with
  | done => rfl
  | fails e => rfl
  -- The same test decides on both sides whether the rest is seen at all.
  | sees v rest ih =>
    simp only [append, run]
    cases hstop : (visitor state v).2 with
    | false =>
      rw [if_neg Bool.false_ne_true, if_neg Bool.false_ne_true]
      exact ih (visitor state v).1
    | true =>
      rw [if_pos rfl, if_pos rfl]
      simp [bind, Except.bind, hstop]

/-- Only what a course fails with is seen from the field. -/
theorem run_under (field : String) (c : Course) (state : σ) :
    (c.under field).run visitor state = (c.run visitor state).mapError (Failure.under field) := by
  induction c generalizing state with
  | done => rfl
  | fails e => rfl
  | sees v rest ih =>
    simp only [under, run]
    split
    · rfl
    · exact ih (visitor state v).1

/-- A visitor that sees all values finds them all. -/
theorem run_collect (c : Course) (found : List Value) :
    c.run RecordPath.collect found =
      c.values.map fun values => (values.reverse ++ found, false) := by
  induction c generalizing found with
  | done => rfl
  | fails e => rfl
  | sees v rest ih =>
    -- The visitor never says to stop, so the rest is visited with one value more.
    have hstep : (sees v rest).run RecordPath.collect found =
        rest.run RecordPath.collect (v :: found) := rfl
    rw [hstep, ih, values]
    cases rest.values with
    | error e => rfl
    | ok values =>
      show Except.ok (values.reverse ++ v :: found, false) =
        Except.ok ((v :: values).reverse ++ found, false)
      rw [List.reverse_cons, List.append_assoc]
      rfl

/-- A visitor that stops at the first value that is accepted finds it. -/
theorem run_look (accept : Value → Bool) (c : Course) :
    c.run (fun (_ : Option Value) v => if accept v then (some v, true) else (none, false)) none =
      (c.find? accept).map fun found => (found, found.isSome) := by
  induction c with
  | done => rfl
  | fails e => rfl
  | sees v rest ih =>
    rw [run, find?]
    cases accept v with
    | true => rfl
    | false => exact ih

/-! ## The first of all values -/

/-- Among all values, the first that is accepted is found. -/
theorem find?_of_values {found : List Value} (h : c.values = .ok found) (accept : Value → Bool) :
    c.find? accept = .ok (found.find? accept) := by
  induction c generalizing found with
  | done =>
    cases h
    rfl
  | fails e => cases h
  -- The first value is accepted, or both searches go on in the rest.
  | sees v rest ih =>
    obtain ⟨more, hmore, heq⟩ := bind_eq_ok_iff.1 h
    cases heq
    rw [find?, List.find?_cons, ih hmore]
    cases accept v <;> rfl

/-- Where no value is accepted before a visit fails, the visit of all values fails. -/
theorem values_of_find?_eq_error {e : Failure} (h : c.find? accept = .error e) :
    c.values = .error e := by
  induction c with
  | done => cases h
  | fails e' =>
    cases h
    rfl
  | sees v rest ih =>
    rw [find?] at h
    split at h
    · cases h
    · rw [values, ih h]
      rfl

/-- Where a visit comes to its end and no value is accepted, all values have been seen. -/
theorem values_of_find?_eq_none (h : c.find? accept = .ok none) :
    ∃ found, c.values = .ok found ∧ ∀ x ∈ found, accept x = false := by
  induction c with
  | done => exact ⟨[], rfl, by simp⟩
  | fails e => cases h
  | sees v rest ih =>
    rw [find?] at h
    split at h
    · cases h
    -- No value has been accepted, or the search had stopped with it.
    · rename_i hv
      obtain ⟨more, hmore, hnone⟩ := ih h
      refine ⟨v :: more, by rw [values, hmore]; rfl, ?_⟩
      exact List.forall_mem_cons.2 ⟨Bool.eq_false_iff.2 hv, hnone⟩

end Course

namespace RecordPath

/-! ## The course along indices -/

/-- All visits of a value along indices from a record take one course, whatever the visitor is. -/
def TakesCourse (reg : Registry) (record : Schema) (indices : List Nat) (v : Value) (c : Course) :
    Prop :=
  ∀ {σ : Type} (visitor : σ → Value → σ × Bool) (state : σ),
    visitFrom reg visitor record indices state v = c.run visitor state

variable {record : Schema} {i : Nat} {rest : List Nat}

/-- At the end of the indices there is the value to see. -/
theorem takesCourse_nil (record : Schema) (v : Value) :
    TakesCourse reg record [] v (.sees v .done) := by
  intro σ visitor state
  rw [Course.run_sees_done]
  cases v <;> rfl

/-- Items are visited one after the other. -/
theorem exists_course_items {items : List Value}
    (h : ∀ v ∈ items, ∃ c, TakesCourse reg record (i :: rest) v c) :
    ∃ c : Course, ∀ {σ : Type} (visitor : σ → Value → σ × Bool) (state : σ),
      visitItems reg visitor record (i :: rest) state items = c.run visitor state := by
  induction items with
  | nil => exact ⟨.done, fun _ _ => rfl⟩
  | cons v items ih =>
    obtain ⟨hfirst, hmore⟩ := List.forall_mem_cons.1 h
    obtain ⟨c, hc⟩ := hfirst
    obtain ⟨d, hd⟩ := ih hmore
    refine ⟨c.append d, fun visitor state => ?_⟩
    -- If a visit of the first item is stopped, the others are not looked at.
    rw [visitItems, Course.run_append, hc]
    refine congrArg _ (funext fun next => ?_)
    obtain ⟨state', stop⟩ := next
    cases stop with
    | true => rfl
    | false => exact hd visitor state'

/-- A map is visited like the list of its values. -/
theorem visitEntries_eq_visitItems {visitor : σ → Value → σ × Bool} {indices : List Nat}
    {bound : Option String} (entries : Entries String Value bound) (state : σ) :
    visitEntries reg visitor record indices state entries =
      visitItems reg visitor record indices state entries.values := by
  induction entries generalizing state with
  | nil => rfl
  | cons key v above entries ih =>
    have hvalues : (Entries.cons key v above entries).values = v :: entries.values := rfl
    rw [hvalues, visitEntries, visitItems]
    simp only [ih]

/-- A record without a value for a field has nothing to visit behind the field. -/
theorem visitField_of_none {visitor : σ → Value → σ × Bool} {f : Field} {indices : List Nat}
    {state : σ} {skip : Nat} {values : List Value} (h : values[skip]? = none) :
    visitField reg visitor f indices state skip values = .ok (state, false) := by
  induction values generalizing skip with
  | nil => rfl
  | cons v values ih =>
    cases skip with
    | zero => cases h
    | succ skip =>
      -- The values in front of that of the field are skipped.
      rw [List.getElem?_cons_succ] at h
      rw [visitField]
      exact ih h

/-- Behind a field the value of the field is visited, or the field is at the end. -/
theorem exists_course_field {f : Field} {values : List Value}
    (h : ∀ x ∈ values, ∀ next j more, ∃ c, TakesCourse reg next (j :: more) x c) :
    ∃ c : Course, ∀ {σ : Type} (visitor : σ → Value → σ × Bool) (state : σ),
      visitField reg visitor f rest state i values = c.run visitor state := by
  cases hx : values[i]? with
  | none => exact ⟨.done, fun visitor state => visitField_of_none hx⟩
  -- At the end of the indices the value itself is seen; otherwise the visit goes on behind the
  -- field.
  | some x =>
    simp only [Value.visitField_eq hx]
    cases rest with
    | nil => exact ⟨.sees x .done, fun visitor state => (Course.run_sees_done x state).symm⟩
    | cons j more =>
      cases f.record reg with
      | none => exact ⟨.done, fun _ _ => rfl⟩
      | some next =>
        obtain ⟨c, hc⟩ := h x (List.mem_of_getElem? hx) next j more
        refine ⟨c.under f.name, fun visitor state => ?_⟩
        rw [Course.run_under, ← hc visitor state]
        rfl

/-- All visits of a value take one course. -/
theorem exists_course (reg : Registry) (record : Schema) (indices : List Nat) (v : Value) :
    ∃ c, TakesCourse reg record indices v c := by
  cases indices with
  | nil => exact ⟨_, takesCourse_nil record v⟩
  | cons i rest =>
    -- By the shape of the value, with the indices as they are: only records make a step along them.
    induction v using Value.induction generalizing record i rest with
    | null => exact ⟨.done, fun _ _ => rfl⟩
    | bool b => exact ⟨.fails _, fun _ _ => rfl⟩
    | number n => exact ⟨.fails _, fun _ _ => rfl⟩
    | string s => exact ⟨.fails _, fun _ _ => rfl⟩
    | ref target ih => exact ih record i rest
    | array items ih => exact exists_course_items fun v hv => ih v hv record i rest
    | object entries ih =>
      have hvalues : ∀ v ∈ entries.values, ∃ c, TakesCourse reg record (i :: rest) v c := by
        intro v hv
        obtain ⟨p, hp, rfl⟩ := List.mem_map.1 hv
        exact ih p hp record i rest
      obtain ⟨c, hc⟩ := exists_course_items hvalues
      refine ⟨c, fun visitor state => ?_⟩
      rw [← hc visitor state]
      exact visitEntries_eq_visitItems entries state
    | record schema values ih =>
      -- The course begins with the tests that do not depend on the visitor: the record and the
      -- index.
      by_cases hrecord : schema = record
      · cases hf : record.fieldAt i with
        | error m =>
          refine ⟨.fails (.misuse m), fun visitor state => ?_⟩
          rw [visitFrom, if_pos hrecord, hf]
          rfl
        | ok f =>
          obtain ⟨c, hc⟩ : ∃ c : Course, ∀ {σ : Type} (visitor : σ → Value → σ × Bool) (state : σ),
              visitField reg visitor f rest state i values = c.run visitor state :=
            exists_course_field ih
          refine ⟨c, fun visitor state => ?_⟩
          rw [visitFrom, if_pos hrecord, hf]
          exact hc visitor state
      · refine ⟨.fails (.error (.of (.typeMismatch record.name schema.name))),
          fun visitor state => ?_⟩
        rw [visitFrom, if_neg hrecord]
        rfl

/-! ## Searches -/

variable {p : RecordPath} {v : Value}

/-- The searches along a path, in terms of one course. -/
theorem exists_course_of_path (reg : Registry) (p : RecordPath) (v : Value) :
    ∃ c : Course, p.values reg v = c.values ∧ ∀ accept, p.find? reg accept v = c.find? accept := by
  obtain ⟨c, hc⟩ := exists_course reg p.record p.indices v
  refine ⟨c, ?_, fun accept => ?_⟩
  · show (visitFrom reg collect p.record p.indices [] v >>= _) >>= _ = _
    rw [hc, Course.run_collect]
    cases c.values with
    | error e => rfl
    | ok found =>
      show Except.ok (found.reverse ++ []).reverse = Except.ok found
      rw [List.append_nil, List.reverse_reverse]
  -- Both searches are the course with a visitor of their own.
  · show visitFrom reg _ p.record p.indices none v >>= _ = _
    rw [hc, Course.run_look]
    cases c.find? accept <;> rfl

/-- In an array all values that have something to show are collected, converted one by one. -/
theorem collectInto_array_of_values {found : List Value} (h : p.values reg v = .ok found)
    (items : FieldType) :
    p.collectInto reg v (.array items) =
      (Value.array <$> (found.filter fun x => !x.isHollow).mapM (items.convert reg)).mapError
        Failure.error := by
  rw [collectInto, h]
  show (do
    let ws ← (liftM ((found.filter fun x : Value => !x.isHollow).mapM (items.convert reg)) :
      Except Failure (List Value))
    return .array ws : Except Failure Value) = _
  cases (found.filter fun x => !x.isHollow).mapM (items.convert reg) <;> rfl

/-- An array that is collected has a converted item for each value with something to show. -/
theorem collectInto_array_eq_ok_iff {found : List Value} (h : p.values reg v = .ok found)
    {items : FieldType} {w : Value} :
    p.collectInto reg v (.array items) = .ok w ↔ ∃ ws, w = .array ws ∧
      List.Forall₂ (fun x y => items.convert reg x = .ok y)
        (found.filter fun x => !x.isHollow) ws := by
  rw [collectInto_array_of_values h]
  simp only [← mapM_eq_ok_iff]
  cases (found.filter fun x => !x.isHollow).mapM (items.convert reg) with
  | error e =>
    refine iff_of_false ?_ ?_
    · intro h
      cases h
    · rintro ⟨ws, -, h⟩
      cases h
  | ok ws =>
    constructor
    · intro h
      cases h
      exact ⟨ws, rfl, rfl⟩
    · rintro ⟨_, rfl, h⟩
      cases h
      rfl

/-- Collecting them fails if one of them cannot be converted. -/
theorem exists_collectInto_array_eq_error_iff {found : List Value}
    (h : p.values reg v = .ok found) {items : FieldType} :
    (∃ e, p.collectInto reg v (.array items) = .error e) ↔
      ∃ x ∈ found, x.isHollow = false ∧ ∃ e, items.convert reg x = .error e := by
  have hshown : (∃ x ∈ found.filter fun x => !x.isHollow, ∃ e, items.convert reg x = .error e) ↔
      ∃ x ∈ found, x.isHollow = false ∧ ∃ e, items.convert reg x = .error e := by
    -- What is filtered has something to show, and is one of the values.
    simp only [List.mem_filter, Bool.not_eq_true', and_assoc]
  rw [collectInto_array_of_values h, ← hshown, ← exists_mapM_eq_error_iff]
  cases (found.filter fun x => !x.isHollow).mapM (items.convert reg) with
  | error e => exact iff_of_true ⟨_, rfl⟩ ⟨e, rfl⟩
  | ok ws =>
    refine iff_of_false ?_ ?_
    · rintro ⟨e, h⟩
      cases h
    · rintro ⟨e, h⟩
      cases h

/-- Otherwise the first of them is converted. -/
theorem collectInto_of_firstDefined? {first : Option Value}
    (h : p.firstDefined? reg v = .ok first) {target : FieldType}
    (htarget : ∀ items, target ≠ .array items) :
    p.collectInto reg v target =
      first.elim (.ok .null) fun x => (target.convert reg x).mapError Failure.error := by
  cases target with
  | array items => exact absurd rfl (htarget items)
  | _ =>
    simp only [collectInto, h]
    cases first <;> rfl

/-- Searches that stop early find what is first among all values along a path. Where there are all
    values, an array collects each of them that has something to show, unless one of them cannot be
    converted, and any other type takes the first of them. Where a search fails, there are not all
    values; where it finds nothing, there are, and none of them is accepted. -/
theorem searches_agree (reg : Registry) (p : RecordPath) (v : Value) :
    (∀ found, p.values reg v = .ok found →
      (∀ accept, p.find? reg accept v = .ok (found.find? accept)) ∧
      p.firstDefined? reg v = .ok (found.find? fun x => !x.isHollow) ∧
      (∀ target : FieldType, (∀ items, target ≠ .array items) →
        p.collectInto reg v target = (found.find? fun x => !x.isHollow).elim (.ok .null) fun x =>
          (target.convert reg x).mapError Failure.error) ∧
      ∀ items : FieldType,
        (∀ w, p.collectInto reg v (.array items) = .ok w ↔ ∃ ws, w = .array ws ∧
          List.Forall₂ (fun x y => items.convert reg x = .ok y)
            (found.filter fun x => !x.isHollow) ws) ∧
        ((∃ e, p.collectInto reg v (.array items) = .error e) ↔
          ∃ x ∈ found, x.isHollow = false ∧ ∃ e, items.convert reg x = .error e)) ∧
    ∀ accept,
      (∀ e, p.find? reg accept v = .error e → p.values reg v = .error e) ∧
      (p.find? reg accept v = .ok none →
        ∃ found, p.values reg v = .ok found ∧ ∀ x ∈ found, accept x = false) := by
  obtain ⟨c, hvalues, hfind⟩ := exists_course_of_path reg p v
  refine ⟨fun found hfound => ?_, fun accept => ⟨fun e he => ?_, fun hnone => ?_⟩⟩
  · have hall : ∀ accept, p.find? reg accept v = .ok (found.find? accept) := by
      intro accept
      rw [hfind]
      -- The search is that of the course, and so is that of all values.
      exact Course.find?_of_values (hvalues ▸ hfound) accept
    exact ⟨hall, hall _, fun target htarget => collectInto_of_firstDefined? (hall _) htarget,
      fun items => ⟨fun w => collectInto_array_eq_ok_iff hfound,
        exists_collectInto_array_eq_error_iff hfound⟩⟩
  · rw [hfind] at he
    rw [hvalues]
    exact Course.values_of_find?_eq_error he
  · rw [hfind] at hnone
    rw [hvalues]
    exact Course.values_of_find?_eq_none hnone

/-- The first identifier of a child that is not zero, among all of them. -/
theorem searches_agree_family :
    childId.find? Registry.ofNode (fun x => !x.isZero)
        (Value.family [.ref Value.leaf, .ref Value.numbered, .null]) =
      .ok (some (.number (.integer 7 (by decide)))) := by
  have hvalues : childId.values Registry.ofNode
      (Value.family [.ref Value.leaf, .ref Value.numbered, .null]) =
      .ok [.number .zero, .number (.integer 7 (by decide))] := rfl
  obtain ⟨hagree, -⟩ := searches_agree Registry.ofNode childId
    (Value.family [.ref Value.leaf, .ref Value.numbered, .null])
  exact (hagree _ hvalues).1 _

-- What comes behind the value that is found may be no child at all.
example : (childId.find? Registry.ofNode (fun x => !x.isZero)
      (Value.family [.ref Value.numbered, .string "text"])).isOk = true ∧
    (childId.values Registry.ofNode
      (Value.family [.ref Value.numbered, .string "text"])).isOk = false :=
  ⟨rfl, rfl⟩

end RecordPath

end FieldMask
