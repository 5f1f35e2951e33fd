import FieldMask.Proofs.RecordTyping

/-!
# Records from objects

An object is converted to a record key by key, in the order of the keys. Each key is looked up as a
name of a field or as a serialized name, and its value is converted to the type of the field. So two
keys of an object may be of the same field. Then the field gets the value of the later one, and the
value of the earlier one is converted and dropped. A key counts if no later one finds its field.

Keys that are of no field are left over. They are reported together, but only if everything else can
be converted. Otherwise the error is that of the first value that cannot be.

## Key results

- `exists_convertMembers` / `failsWith_of_eq_error`: how the members are gone through
- `get?_ofList_iff`: a field has what the prevailing one of its keys is converted to
- `exists_prevails` / `MadeOf`: the keys that count, and what is in the record
- `convert_object_of_unresolved` / `convert_object_eq_error`: what is reported
- `convert_object_exact`: the record of an object, and the errors
-/

namespace FieldMask

variable {reg : Registry}

namespace FieldType

variable {s : Schema} {bound : Option String} {es : Entries String Value bound}
  {assigned : List (Nat × Value)} {unknown : List String}

/-! ## Member by member -/

/-- The keys of an object that no field of a record is found by, in their order. -/
def unresolved (s : Schema) (es : Entries String Value bound) : List String :=
  es.keys.filter fun key => (s.lookup? key).isNone

/-- A member of an object is converted to the value of a field. -/
def Assigns (reg : Registry) (s : Schema) (p : String × Value) (i : Nat) (w : Value) : Prop :=
  ∃ f, s.lookup? p.1 = some (i, f) ∧ f.type.convert reg p.2 = .ok w

/-- The first member is left over, or it is assigned to the field that its key finds. -/
theorem convertMembers_cons_eq_ok {key : String} {v : Value} {above : ∀ b ∈ bound, b < key}
    {rest : Entries String Value (some key)}
    (h : convertMembers reg s (.cons key v above rest) = .ok (assigned, unknown)) :
    ∃ assigned' unknown', convertMembers reg s rest = .ok (assigned', unknown') ∧
      ((s.lookup? key = none ∧ assigned = assigned' ∧ unknown = key :: unknown') ∨
        ∃ i w, Assigns reg s (key, v) i w ∧ assigned = (i, w) :: assigned' ∧
          unknown = unknown') := by
  cases hlookup : s.lookup? key with
  | none =>
    simp only [convertMembers, hlookup] at h
    obtain ⟨⟨assigned', unknown'⟩, hrest, h⟩ := bind_eq_ok_iff.1 h
    cases h
    exact ⟨assigned', unknown', hrest, .inl ⟨rfl, rfl, rfl⟩⟩
  | some found =>
    obtain ⟨i, f⟩ := found
    simp only [convertMembers, hlookup] at h
    obtain ⟨w, hw, h⟩ := bind_eq_ok_iff.1 h
    obtain ⟨⟨assigned', unknown'⟩, hrest, h⟩ := bind_eq_ok_iff.1 h
    cases h
    exact ⟨assigned', unknown', hrest,
      .inr ⟨i, w, ⟨f, hlookup, within_eq_ok_iff.1 hw⟩, rfl, rfl⟩⟩

/-- A member of an object can be converted to the type of its field, if it is of one. -/
def MemberConverts (reg : Registry) (s : Schema) (p : String × Value) : Prop :=
  ∀ i f, s.lookup? p.1 = some (i, f) → ∃ w, f.type.convert reg p.2 = .ok w

/-- Each member of a field can be converted to the type of the field. -/
def EachConverts (reg : Registry) (s : Schema) (es : Entries String Value bound) : Prop :=
  ∀ p ∈ es.toList, MemberConverts reg s p

/-- A key that finds no field is left over in front of those behind it. -/
theorem unresolved_cons {key : String} {v : Value} {above : ∀ b ∈ bound, b < key}
    {rest : Entries String Value (some key)} :
    unresolved s (.cons key v above rest) =
      if (s.lookup? key).isNone then key :: unresolved s rest else unresolved s rest :=
  List.filter_cons

/-- Members are gone through if each of a field can be converted. The other keys are left over. -/
theorem exists_convertMembers (h : EachConverts reg s es) :
    ∃ assigned, convertMembers reg s es = .ok (assigned, unresolved s es) := by
  induction es with
  | nil => exact ⟨[], rfl⟩
  | cons key v above rest ih =>
    obtain ⟨assigned, hrest⟩ := ih fun p hp => h p (List.mem_cons_of_mem _ hp)
    rw [unresolved_cons]
    cases hlookup : s.lookup? key with
    | none =>
      refine ⟨assigned, ?_⟩
      simp only [convertMembers, hlookup, hrest]
      rfl
    | some found =>
      obtain ⟨i, f⟩ := found
      obtain ⟨w, hw⟩ := h (key, v) List.mem_cons_self i f hlookup
      refine ⟨(i, w) :: assigned, ?_⟩
      simp only [convertMembers, hlookup, hrest, hw]
      rfl

/-- Where members have been gone through, each of a field has been converted. -/
-- By induction on the members, each of which has been converted if it is of a field.
theorem eachConverts_of_eq_ok (h : convertMembers reg s es = .ok (assigned, unknown)) :
    EachConverts reg s es := by
  induction es generalizing assigned unknown with
  | nil =>
    intro p hp
    cases hp
  | cons key v above rest ih =>
    obtain ⟨assigned', unknown', hrest, hfirst⟩ := convertMembers_cons_eq_ok h
    intro p hp j g hg
    rcases List.mem_cons.1 hp with hp | hp
    · rw [hp] at hg ⊢
      rcases hfirst with ⟨hnone, -⟩ | ⟨i, w, ⟨f, hf, hw⟩, -⟩
      · rw [hnone] at hg
        cases hg
      -- A key finds one field, so it is the one that the member was converted for.
      · rw [hf] at hg
        cases hg
        exact ⟨w, hw⟩
    · exact ih hrest p hp j g hg

/-- A member that is of a field cannot be converted, and those before it can. The error is that of
    the conversion, within the field. -/
def FailsWith (reg : Registry) (s : Schema) (es : Entries String Value bound) (e : Error) : Prop :=
  ∃ p ∈ es.toList, ∃ i f e', s.lookup? p.1 = some (i, f) ∧ f.type.convert reg p.2 = .error e' ∧
    e = e'.under f.name ∧ ∀ q ∈ es.toList, q.1 < p.1 → MemberConverts reg s q

/-- If the first member converts, the one to blame comes after it. -/
theorem FailsWith.cons {key : String} {v : Value} {above : ∀ b ∈ bound, b < key}
    {rest : Entries String Value (some key)} {e : Error} (hfirst : MemberConverts reg s (key, v))
    (h : FailsWith reg s rest e) : FailsWith reg s (.cons key v above rest) e := by
  obtain ⟨p, hp, i, f, e', hf, he', heq, hbefore⟩ := h
  refine ⟨p, List.mem_cons_of_mem _ hp, i, f, e', hf, he', heq, ?_⟩
  intro q hq hlt
  rcases List.mem_cons.1 hq with hq | hq
  · rw [hq]
    exact hfirst
  · exact hbefore q hq hlt

/-- Where not all members have been gone through, the first one that is of a field and cannot be
    converted is to blame. -/
theorem failsWith_of_eq_error {e : Error} (h : convertMembers reg s es = .error e) :
    FailsWith reg s es e := by
  induction es with
  | nil => cases h
  | cons key v above rest ih =>
    cases hlookup : s.lookup? key with
    | none =>
      -- Where the first member does not fail, the fault is one behind it.
      apply FailsWith.cons
      · intro j g hg
        cases hlookup.symm.trans hg
      · simp only [convertMembers, hlookup] at h
        exact ih (eq_error_of_bind_pure h)
    | some found =>
      obtain ⟨i, f⟩ := found
      cases hv : f.type.convert reg v with
      | error e' =>
        simp only [convertMembers, hlookup, hv] at h
        cases h
        refine ⟨(key, v), List.mem_cons_self, i, f, e', hlookup, hv, rfl, ?_⟩
        intro q hq hlt
        -- No key comes before the first one.
        rcases List.mem_cons.1 hq with hq | hq
        · rw [hq] at hlt
          exact absurd hlt Std.lt_irrefl
        · exact absurd (Std.lt_trans hlt (Entries.lt_of_mem_toList hq)) Std.lt_irrefl
      | ok w =>
        apply FailsWith.cons
        · intro j g hg
          cases hlookup.symm.trans hg
          exact ⟨w, hv⟩
        · simp only [convertMembers, hlookup, hv] at h
          exact ih (eq_error_of_bind_pure h)

/-! ## The key that counts -/

/-- No later key of an object finds the field that a key finds. -/
def Prevails (s : Schema) (es : Entries String Value bound) (key : String) : Prop :=
  ∀ p ∈ es.toList, s.lookup? p.1 = s.lookup? key → p.1 ≤ key

section Cons

variable {key : String} {v : Value} {above : ∀ b ∈ bound, b < key}
  {rest : Entries String Value (some key)}

/-- The first key prevails if no other one finds its field. -/
theorem prevails_cons_self : Prevails s (.cons key v above rest) key ↔
    ∀ q ∈ rest.toList, s.lookup? q.1 ≠ s.lookup? key := by
  constructor
  · intro h q hq heq
    -- The key would be behind the first one and not greater.
    have hle : q.1 ≤ key := h q (List.mem_cons_of_mem _ hq) heq
    exact absurd (Std.lt_of_lt_of_le (Entries.lt_of_mem_toList hq) hle) Std.lt_irrefl
  · intro h q hq heq
    rcases List.mem_cons.1 hq with hq | hq
    · subst hq
      exact Std.le_refl _
    · exact absurd heq (h q hq)

/-- Any other key prevails if it does among those behind the first one. -/
theorem prevails_cons_of_mem {p : String × Value} (hp : p ∈ rest.toList) :
    Prevails s (.cons key v above rest) p.1 ↔ Prevails s rest p.1 := by
  constructor
  · intro h q hq heq
    exact h q (List.mem_cons_of_mem _ hq) heq
  · intro h q hq heq
    rcases List.mem_cons.1 hq with hq | hq
    · rw [hq]
      exact Std.le_of_lt (Entries.lt_of_mem_toList hp)
    · exact h q hq heq

end Cons

/-- Of the keys that find a field one prevails. -/
theorem exists_prevails {key : String} (h : key ∈ es.keys) :
    ∃ last ∈ es.keys, Prevails s es last ∧ s.lookup? last = s.lookup? key := by
  induction es generalizing key with
  | nil => cases h
  | cons first v above rest ih =>
    -- The last key is behind the first one if any other key finds the field.
    by_cases hmore : ∃ q ∈ rest.toList, s.lookup? q.1 = s.lookup? key
    · obtain ⟨q, hq, hqkey⟩ := hmore
      obtain ⟨last, hlast, hprevails, heq⟩ := ih (List.mem_map_of_mem hq)
      obtain ⟨p, hp, hplast⟩ := List.mem_map.1 hlast
      rw [← hplast] at hprevails heq
      exact ⟨p.1, List.mem_cons_of_mem _ (List.mem_map_of_mem hp),
        (prevails_cons_of_mem hp).2 hprevails, heq.trans hqkey⟩
    · -- No key behind the first one finds the field, so that it is the first one that does.
      have hkey : key = first := by
        rcases List.mem_cons.1 h with hkey | hkey
        · exact hkey
        · obtain ⟨p, hp, hpkey⟩ := List.mem_map.1 hkey
          exact absurd ⟨p, hp, congrArg s.lookup? hpkey⟩ hmore
      refine ⟨key, h, ?_, rfl⟩
      rw [hkey] at hmore ⊢
      rw [prevails_cons_self]
      intro q hq heq
      exact hmore ⟨q, hq, heq⟩

/-- A field that a key finds is assigned to. -/
theorem isSome_get?_ofList (h : convertMembers reg s es = .ok (assigned, unknown))
    {p : String × Value} (hp : p ∈ es.toList) {i : Nat} {f : Field}
    (hf : s.lookup? p.1 = some (i, f)) :
    ((Entries.ofList assigned : OrderedMap Nat Value).get? i).isSome = true := by
  induction es generalizing assigned unknown with
  | nil => cases hp
  | cons key v above rest ih =>
    obtain ⟨assigned', unknown', hrest, hfirst⟩ := convertMembers_cons_eq_ok h
    rcases hfirst with ⟨hnone, ha, -⟩ | ⟨j, w, ⟨g, hg, -⟩, ha, -⟩
    -- A later key of the same field assigns to it again, so the field has a value in either case.
    · rw [ha]
      rcases List.mem_cons.1 hp with hp | hp
      · rw [hp, hnone] at hf
        cases hf
      · exact ih hrest hp
    · rw [ha, Entries.get?_ofList_cons, Option.isSome_or]
      rcases List.mem_cons.1 hp with hp | hp
      · rw [hp, hg] at hf
        cases hf
        simp
      · rw [ih hrest hp, Bool.true_or]

/-- A field has what the prevailing one of its keys is converted to. -/
theorem get?_ofList_iff (h : convertMembers reg s es = .ok (assigned, unknown)) {i : Nat}
    {w : Value} : (Entries.ofList assigned : OrderedMap Nat Value).get? i = some w ↔
      ∃ p ∈ es.toList, Assigns reg s p i w ∧ Prevails s es p.1 := by
  induction es generalizing assigned unknown w with
  | nil =>
    cases h
    simp [Entries.ofList]
  | cons key v above rest ih =>
    obtain ⟨assigned', unknown', hrest, hfirst⟩ := convertMembers_cons_eq_ok h
    have hothers : (∃ p ∈ rest.toList, Assigns reg s p i w ∧
        Prevails s (.cons key v above rest) p.1) ↔
          -- What prevails behind the first key prevails among all.
          (Entries.ofList assigned' : OrderedMap Nat Value).get? i = some w := by
      rw [ih hrest]
      apply exists_congr
      intro p
      apply and_congr_right
      intro hp
      rw [prevails_cons_of_mem hp]
    rw [Entries.toList_cons, List.exists_mem_cons_iff, hothers, prevails_cons_self]
    rcases hfirst with ⟨hnone, ha, -⟩ | ⟨j, x, ⟨g, hg, hx⟩, ha, -⟩
    · -- The key is of no field.
      rw [ha]
      apply (or_iff_right _).symm
      rintro ⟨⟨f, hf, -⟩, -⟩
      rw [hnone] at hf
      cases hf
    · rw [ha, Entries.get?_ofList_cons, Option.or_eq_some_iff, or_comm]
      apply or_congr_left
      constructor
      · rintro ⟨hnone, hw⟩
        split at hw
        · rename_i hji
          cases hw
          rw [← hji]
          -- If the first key did not prevail, a later one would have assigned to the field.
          refine ⟨⟨g, hg, hx⟩, ?_⟩
          intro q hq heq
          have hsome := isSome_get?_ofList hrest hq (heq.trans hg)
          rw [hji, hnone] at hsome
          cases hsome
        · cases hw
      · rintro ⟨⟨f, hf, hw⟩, hlast⟩
        rw [hg] at hf
        cases hf
        rw [hx] at hw
        cases hw
        refine ⟨?_, if_pos rfl⟩
        -- A field that is assigned to again is found by another key.
        cases hagain : (Entries.ofList assigned' : OrderedMap Nat Value).get? i with
        | none => rfl
        | some y =>
          obtain ⟨p, hp, ⟨f, hf, -⟩, -⟩ := (ih hrest).1 hagain
          cases (Schema.getElem?_of_lookup? hf).symm.trans (Schema.getElem?_of_lookup? hg)
          exact absurd (hf.trans hg.symm) (hlast p hp)

/-! ## The record of an object -/

/-- A record is made of an object if all keys are of fields, and filled with what is assigned. -/
theorem convert_record_object (s : Schema) (es : OrderedMap String Value) :
    (FieldType.record s).convert reg (.object es) = (do
      let (assigned, unknown) ← convertMembers reg s es
      if unknown.isEmpty then return .record s (s.fill assigned)
      else throw (.of (.unrecognizedFields unknown))) := rfl

/-- Of a record that is filled, a key finds what was assigned to its field last. -/
theorem get?_fill {key : String} {i : Nat} {f : Field} (hf : s.lookup? key = some (i, f)) :
    (Record.mk s (s.fill assigned)).get? key =
      some (((Entries.ofList assigned : OrderedMap Nat Value).get? i).getD f.zero) := by
  have hget : (Record.mk s (s.fill assigned)).get? key = (s.fill assigned)[i]? := by
    rw [Record.get?_eq_bind_lookup?, hf, Option.bind_some]
  rw [hget, Schema.getElem?_fill (Schema.getElem?_of_lookup? hf)]

/-- Where members have been gone through, what is left over are the keys that are of no field. -/
theorem eq_unresolved_of_eq_ok (h : convertMembers reg s es = .ok (assigned, unknown)) :
    unknown = unresolved s es := by
  obtain ⟨assigned', h'⟩ := exists_convertMembers (eachConverts_of_eq_ok h)
  rw [h] at h'
  cases h'
  rfl

/-- An object is converted to a record if each of its keys is of a field, and the record is filled
    with what the keys are converted to. -/
theorem convert_object_eq_ok_iff {es : OrderedMap String Value} {w : Value} :
    (FieldType.record s).convert reg (.object es) = .ok w ↔
      ∃ assigned, convertMembers reg s es = .ok (assigned, []) ∧
        w = .record s (s.fill assigned) := by
  rw [convert_record_object, bind_eq_ok_iff]
  constructor
  -- The program looks at the keys that are left over last.
  · rintro ⟨⟨assigned, unknown⟩, hmembers, h⟩
    cases unknown with
    | nil =>
      cases h
      exact ⟨assigned, hmembers, rfl⟩
    | cons name more => cases h
  · rintro ⟨assigned, hmembers, hw⟩
    refine ⟨(assigned, []), hmembers, ?_⟩
    rw [hw]
    rfl

/-- A key of an object is of a field, if none is left over. -/
theorem exists_lookup?_of_unresolved {key : String} (hkey : key ∈ es.keys)
    (h : unresolved s es = []) : ∃ i f, s.lookup? key = some (i, f) := by
  cases hlookup : s.lookup? key with
  | some found => exact ⟨found.1, found.2, rfl⟩
  | none =>
    have hmem : key ∈ unresolved s es := List.mem_filter.2 ⟨hkey, by rw [hlookup]; rfl⟩
    rw [h] at hmem
    cases hmem

/-- A record is made of an object: each key is of a field and is converted. The field holds what the
    prevailing one of its keys is converted to, and its zero value if it has none. -/
structure MadeOf (reg : Registry) (s : Schema) (es : OrderedMap String Value)
    (values : List Value) : Prop where
  /-- There is a value for each field. -/
  length_eq : values.length = s.size
  /-- The value of a key is converted, and found under the key if this prevails. -/
  member : ∀ key v, es.get? key = some v → ∃ i f x, s.lookup? key = some (i, f) ∧
    f.type.convert reg v = .ok x ∧
      (Prevails s es key → (Record.mk s values).get? key = some x)
  /-- Under any key, what is found is what the prevailing one of its field finds. -/
  prevailing : ∀ key ∈ es.keys, ∃ last ∈ es.keys, Prevails s es last ∧
    s.lookup? last = s.lookup? key ∧ (Record.mk s values).get? key = (Record.mk s values).get? last
  /-- The other fields hold their zero values. -/
  zero : ∀ i f, s.fields[i]? = some f → (∀ key ∈ es.keys, s.lookup? key ≠ some (i, f)) →
    values[i]? = some f.zero

/-- Each key of an object that is converted to a record finds what it is converted to, if it
    prevails. -/
theorem get?_of_convert_object {es : OrderedMap String Value} {assigned : List (Nat × Value)}
    (h : convertMembers reg s es = .ok (assigned, [])) {key : String} {v : Value}
    (hv : es.get? key = some v) : ∃ i f x, s.lookup? key = some (i, f) ∧
      f.type.convert reg v = .ok x ∧
        (Prevails s es key → (Record.mk s (s.fill assigned)).get? key = some x) := by
  have hmem : (key, v) ∈ es.toList := Entries.mem_toList_iff_get?_eq_some.2 hv
  obtain ⟨i, f, hf⟩ := exists_lookup?_of_unresolved (List.mem_map_of_mem hmem)
    (eq_unresolved_of_eq_ok h).symm
  obtain ⟨x, hx⟩ := eachConverts_of_eq_ok h (key, v) hmem i f hf
  refine ⟨i, f, x, hf, hx, ?_⟩
  intro hprevails
  have hfield := (get?_ofList_iff h).2 ⟨(key, v), hmem, ⟨f, hf, hx⟩, hprevails⟩
  rw [get?_fill hf, hfield, Option.getD_some]

/-- A field that no key of an object finds holds its zero value. -/
theorem getElem?_of_convert_object {es : OrderedMap String Value} {assigned : List (Nat × Value)}
    (h : convertMembers reg s es = .ok (assigned, [])) {i : Nat} {f : Field}
    (hf : s.fields[i]? = some f) (hfree : ∀ key ∈ es.keys, s.lookup? key ≠ some (i, f)) :
    (s.fill assigned)[i]? = some f.zero := by
  rw [Schema.getElem?_fill hf]
  -- What has been assigned was found by a key, contrary to the assumption.
  cases hget : (Entries.ofList assigned : OrderedMap Nat Value).get? i with
  | none => rfl
  | some w =>
    obtain ⟨p, hp, ⟨g, hg, -⟩, -⟩ := (get?_ofList_iff h).1 hget
    cases (Schema.getElem?_of_lookup? hg).symm.trans hf
    exact absurd hg (hfree p.1 (List.mem_map_of_mem hp))

/-- What an object is converted to is made of it. -/
theorem madeOf_of_eq_ok {es : OrderedMap String Value} {assigned : List (Nat × Value)}
    (h : convertMembers reg s es = .ok (assigned, [])) : MadeOf reg s es (s.fill assigned) where
  length_eq := by simp [Schema.fill, Schema.size]
  member _ _ hv := get?_of_convert_object h hv
  prevailing key hkey := by
    obtain ⟨last, hlast, hprevails, hsame⟩ := exists_prevails (s := s) hkey
    refine ⟨last, hlast, hprevails, hsame, ?_⟩
    obtain ⟨i, f, hf⟩ := exists_lookup?_of_unresolved hkey (eq_unresolved_of_eq_ok h).symm
    rw [get?_fill hf, get?_fill (hsame.trans hf)]
  zero _ _ hf hfree := getElem?_of_convert_object h hf hfree

/-- An object is not converted to a record if a member of a field cannot be converted, or else if
    some keys are of no field. These are reported together then, in their order. -/
theorem convert_object_eq_error {es : OrderedMap String Value} {e : Error}
    (h : (FieldType.record s).convert reg (.object es) = .error e) :
    FailsWith reg s es e ∨ EachConverts reg s es ∧ unresolved s es ≠ [] ∧
      e = .of (.unrecognizedFields (unresolved s es)) := by
  -- Faults of members come before keys that are left over, since the members are converted first.
  rw [convert_record_object] at h
  cases hmembers : convertMembers reg s es with
  | error e' =>
    rw [hmembers] at h
    cases h
    exact .inl (failsWith_of_eq_error hmembers)
  | ok found =>
    obtain ⟨assigned, unknown⟩ := found
    rw [hmembers] at h
    cases unknown with
    | nil => cases h
    | cons name more =>
      cases h
      rw [← eq_unresolved_of_eq_ok hmembers]
      exact .inr ⟨eachConverts_of_eq_ok hmembers, List.cons_ne_nil _ _, rfl⟩

/-- So they are if all other keys convert. -/
theorem convert_object_of_unresolved {es : OrderedMap String Value} (h : EachConverts reg s es)
    (hsome : unresolved s es ≠ []) : (FieldType.record s).convert reg (.object es) =
      .error (.of (.unrecognizedFields (unresolved s es))) := by
  obtain ⟨assigned, hmembers⟩ := exists_convertMembers h
  rw [convert_record_object, hmembers]
  cases hunknown : unresolved s es with
  | nil => exact absurd hunknown hsome
  | cons name more => rfl

end FieldType

/-! ### A person -/

/-- A person, with a name and an age under two names each. -/
def Schema.person : Schema where
  stamp := 1
  name := "Person"
  fields := [(Field.of "Name" .string).withJson "name", (Field.of "Age" .integer).withJson "age"]

namespace Value

/-- A person whose name is given under both names of the field. -/
def namedTwice : OrderedMap String Value :=
  (Entries.nil.insert "Name" (string "ann")).insert "name" (string "bob")

/-- A person with a name and a town. -/
def withTown : OrderedMap String Value :=
  (Entries.nil.insert "name" (string "ann")).insert "town" (string "here")

end Value

namespace FieldType

/-- An object is converted to a record if each key is of a field and its value can be converted to
    the type of the field. In the record each key finds what it has been converted to, unless a
    later key finds the same field: then it is what the last one of these has been converted to.
    The other fields hold their zero values. If all keys of fields can be converted, those of no
    field are reported together, in their order. If not, the first one that cannot be is. -/
theorem convert_object_exact (reg : Registry) (s : Schema) (es : OrderedMap String Value) :
    (∀ w, (FieldType.record s).convert reg (.object es) = .ok w →
      ∃ values, w = .record s values ∧ MadeOf reg s es values) ∧
    ((∃ w, (FieldType.record s).convert reg (.object es) = .ok w) ↔
      EachConverts reg s es ∧ unresolved s es = []) ∧
    (EachConverts reg s es → unresolved s es ≠ [] →
      (FieldType.record s).convert reg (.object es) =
        .error (.of (.unrecognizedFields (unresolved s es)))) ∧
    ∀ e, (FieldType.record s).convert reg (.object es) = .error e →
      FailsWith reg s es e ∨ EachConverts reg s es ∧ unresolved s es ≠ [] ∧
        e = .of (.unrecognizedFields (unresolved s es)) := by
  refine ⟨?_, ?_, convert_object_of_unresolved, fun e he => convert_object_eq_error he⟩
  -- The record and the criterion are about the members that are assigned; errors have been dealt
  -- with.
  · intro w h
    obtain ⟨assigned, hmembers, hw⟩ := convert_object_eq_ok_iff.1 h
    exact ⟨s.fill assigned, hw, madeOf_of_eq_ok hmembers⟩
  · constructor
    · rintro ⟨w, h⟩
      obtain ⟨assigned, hmembers, -⟩ := convert_object_eq_ok_iff.1 h
      exact ⟨eachConverts_of_eq_ok hmembers, (eq_unresolved_of_eq_ok hmembers).symm⟩
    · rintro ⟨heach, hnone⟩
      obtain ⟨assigned, hmembers⟩ := exists_convertMembers heach
      rw [hnone] at hmembers
      exact ⟨_, convert_object_eq_ok_iff.2 ⟨assigned, hmembers, rfl⟩⟩

/-- The town is of no field, and the name would be converted. Of the name that is given twice the
    last one is found. -/
theorem convert_object_exact_person :
    (FieldType.record Schema.person).convert Registry.empty (.object Value.withTown) =
        .error (.of (.unrecognizedFields ["town"])) ∧
      ∃ values, (FieldType.record Schema.person).convert Registry.empty
          (.object Value.namedTwice) = .ok (.record Schema.person values) ∧
        (Record.mk Schema.person values).get? "name" = some (.string "bob") ∧
        values[1]? = some (.number .zero) := by
  constructor
  · obtain ⟨-, -, hunresolved, -⟩ :=
      convert_object_exact Registry.empty Schema.person Value.withTown
    refine hunresolved ?_ (by decide)
    intro p hp i f hf
    -- Of the two keys only one is of a field, and a text is converted to the type of that.
    rcases List.mem_cons.1 hp with hp | hp
    · rw [hp] at hf ⊢
      cases hf
      exact ⟨_, rfl⟩
    · rw [List.mem_singleton.1 hp] at hf
      cases hf
  · obtain ⟨hrecord, -⟩ := convert_object_exact Registry.empty Schema.person Value.namedTwice
    obtain ⟨values, hvalues, hmade⟩ := hrecord _ rfl
    refine ⟨values, congrArg Except.ok hvalues, ?_, ?_⟩
    · obtain ⟨i, f, x, hf, hx, hprevails⟩ := hmade.member "name" (.string "bob") rfl
      cases hf
      cases hx
      apply hprevails
      -- The other key of the name comes before this one.
      intro p hp _
      rcases List.mem_cons.1 hp with hp | hp
      · rw [hp]
        decide
      · cases List.mem_singleton.1 hp
        exact Std.le_refl _
    · apply hmade.zero 1 _ rfl
      intro key hkey
      rcases List.mem_cons.1 hkey with hkey | hkey
      · rw [hkey]
        decide
      · rw [List.mem_singleton.1 hkey]
        decide

/-- A person is made of an object with two keys for the name, and the name under the first one is
    not in it. -/
theorem convert_namedTwice :
    (FieldType.record Schema.person).convert Registry.empty (.object Value.namedTwice) =
        .ok (.record Schema.person [.string "bob", .number .zero]) ∧
      Value.namedTwice.get? "Name" = some (.string "ann") ∧
      Schema.person.lookup? "Name" = some (0, (Field.of "Name" .string).withJson "name") ∧
      FieldType.string.convert Registry.empty (.string "ann") = .ok (.string "ann") ∧
      (Record.mk Schema.person [.string "bob", .number .zero]).get? "Name" ≠
        some (.string "ann") := by
  refine ⟨rfl, rfl, rfl, rfl, ?_⟩
  have hget : (Record.mk Schema.person [.string "bob", .number .zero]).get? "Name" =
      some (.string "bob") := rfl
  rw [hget, Ne, Option.some.injEq, Value.string.injEq]
  decide

end FieldType

end FieldMask
