import FieldMask.Proofs.FieldLookups
import FieldMask.Proofs.RegistryChanges
import Mathlib.Logic.Relation

/-!
# Histories of a registry

Names are given to records and freed again while selections are being made, and a selection may be
used under another registry than it was made under. The operations that take a query check that what
the query is bound to is of the record, but not what it has for the fields below. So if a name has
been given to another record since, they may meet selections of different records further down,
which they are not meant for. This is the only way in which they can go wrong, and it is ruled out
as long as each name stands for one record.

## Key results

- `Session.Makes.boundBy` / `Session.Reachable.boundBy`: what holds of all selections that are made
- `Session.Steadily.exists_boundBy`: the selections of a field are of one record while names stand
  for one record each, which they do as long as none is freed (`Session.steadily_of_growing`)
- `Session.Reachable.misused_iff`: what can go wrong in any history
-/

namespace FieldMask

/-! ## Histories -/

/-- Everything that is at hand at some time. -/
structure Session where
  registry : Registry
  selections : List RecordSelection
  paths : List RecordPath

/-- A name is given to a record, or names are freed. -/
inductive Registry.Change (reg : Registry) : Registry → Prop
  | register {reg' : Registry} {name : String} {record : Schema}
      (result : reg.registerAs name record = .ok reg') : Change reg reg'
  | remove (name : String) : Change reg (reg.remove name)
  | clear : Change reg .empty

namespace Session

/-- Before anything is done. -/
def start : Session := ⟨.empty, [], []⟩

/-- A query is made of the selections at hand. -/
def Admits (σ : Session) (query : Query) : Prop := query.Holds (· ∈ σ.selections)

/-- A segment is made of what is at hand. -/
def AdmitsSegment (σ : Session) : Segment → Prop
  | .ofRecord p => p ∈ σ.paths
  | .tail query => σ.Admits query
  | _ => True

/-- The selections that one operation makes of what is at hand. -/
inductive Makes (σ : Session) : RecordSelection → Prop
  | undefined (record : Schema) : Makes σ (.undefined record)
  | empty (record : Schema) : Makes σ (.empty record)
  | complete (record : Schema) : Makes σ (.complete σ.registry record)
  | expandDefaults (record : Schema) : Makes σ (.expandDefaults σ.registry record)
  | ofQuery {record : Schema} {query : Query} {t : RecordSelection} (input : σ.Admits query)
      (result : RecordSelection.ofQuery σ.registry record query = .ok t) : Makes σ t
  | add {s t : RecordSelection} {indices : List Nat} (before : s ∈ σ.selections)
      (result : s.add σ.registry indices = .ok t) : Makes σ t
  | addExcluded {s t : RecordSelection} {indices : List Nat} (before : s ∈ σ.selections)
      (result : s.addExcluded σ.registry indices = .ok t) : Makes σ t
  | remove {s t : RecordSelection} {indices : List Nat} (before : s ∈ σ.selections)
      (result : s.remove σ.registry indices = .ok t) : Makes σ t
  | setField {s t : RecordSelection} {index : Nat} {query : Query} (before : s ∈ σ.selections)
      (input : σ.Admits query) (result : s.setField σ.registry index query = .ok t) : Makes σ t
  | assignToField {s t : RecordSelection} {index : Nat} {query : Query} (before : s ∈ σ.selections)
      (input : σ.Admits query) (result : s.assignToField σ.registry index query = .ok t) : Makes σ t
  | pick {s q t : RecordSelection} (before : s ∈ σ.selections) (other : q ∈ σ.selections)
      (result : s.pick σ.registry q = .ok t) : Makes σ t
  | pickQuery {s t : RecordSelection} {query : Query} (before : s ∈ σ.selections)
      (input : σ.Admits query) (result : s.pickQuery σ.registry query = .ok t) : Makes σ t
  | exclude {s q t : RecordSelection} (before : s ∈ σ.selections) (other : q ∈ σ.selections)
      (result : s.exclude σ.registry q = .ok t) : Makes σ t
  | excludeQuery {s t : RecordSelection} {query : Query} (before : s ∈ σ.selections)
      (input : σ.Admits query) (result : s.excludeQuery σ.registry query = .ok t) : Makes σ t
  | assign {s q t : RecordSelection} (before : s ∈ σ.selections) (other : q ∈ σ.selections)
      (result : s.assign σ.registry q = .ok t) : Makes σ t
  | assignQuery {s t : RecordSelection} {query : Query} (before : s ∈ σ.selections)
      (input : σ.Admits query) (result : s.assignQuery σ.registry query = .ok t) : Makes σ t
  | ensureDefined {s : RecordSelection} (before : s ∈ σ.selections) :
      Makes σ (s.ensureDefined σ.registry)
  | clear {s : RecordSelection} (before : s ∈ σ.selections) : Makes σ s.clear
  | toRecord {s t : RecordSelection} {record : Schema} (before : s ∈ σ.selections)
      (result : s.toRecord σ.registry record = .ok t) : Makes σ t
  | fieldSelection {s t : RecordSelection} {index : Nat} (before : s ∈ σ.selections)
      (result : s.fieldSelection σ.registry index = .ok (some t)) : Makes σ t
  | ofPath {p : RecordPath} {t : RecordSelection} (path : p ∈ σ.paths)
      (result : p.toSelection σ.registry = .ok t) : Makes σ t
  | tail {p : RecordPath} {t : RecordSelection} (path : p ∈ σ.paths) (result : p.tail = some t) :
      Makes σ t
  | selectionAt {p : RecordPath} {s t : RecordSelection} (path : p ∈ σ.paths)
      (before : s ∈ σ.selections) (result : p.selectionAt σ.registry s = .ok (some t)) : Makes σ t

/-- The paths that one operation makes of what is at hand. -/
inductive MakesPath (σ : Session) : RecordPath → Prop
  | ofSegments {record : Schema} {segments : List Segment} {p : RecordPath}
      (each : ∀ segment ∈ segments, σ.AdmitsSegment segment)
      (result : RecordPath.ofSegments σ.registry record segments = .ok p) : MakesPath σ p
  | assignTail {p p' : RecordPath} {query : Query} (before : p ∈ σ.paths) (input : σ.Admits query)
      (result : p.assignTail σ.registry query = .ok p') : MakesPath σ p'

/-- What can happen next: names change, something is made, or something is given up. -/
inductive Step (σ : Session) : Session → Prop
  | change {reg : Registry} (change : σ.registry.Change reg) : Step σ { σ with registry := reg }
  | make {s : RecordSelection} (made : σ.Makes s) :
      Step σ { σ with selections := s :: σ.selections }
  | makePath {p : RecordPath} (made : σ.MakesPath p) : Step σ { σ with paths := p :: σ.paths }
  | drop {selections : List RecordSelection} {paths : List RecordPath}
      (selected : selections ⊆ σ.selections) (found : paths ⊆ σ.paths) :
      Step σ ⟨σ.registry, selections, paths⟩

/-- There is a history that leads to this. -/
def Reachable (σ : Session) : Prop := Relation.ReflTransGen Step start σ

/-! ## What histories keep -/

open RecordSelection (boundBy_undefined boundBy_empty boundBy_of_bindQuery pick_descends
  exclude_descends assign_descends)

variable {P : Field → Schema → Prop} {σ σ' : Session}

/-- All selections at hand are bound in one sense, those at the end of paths included. -/
structure BoundBy (P : Field → Schema → Prop) (σ : Session) : Prop where
  selection : ∀ s ∈ σ.selections, s.BoundBy P
  tail : ∀ p ∈ σ.paths, p.TailBoundBy P

/-- Nothing is at hand at first. -/
theorem start_boundBy : start.BoundBy P := ⟨nofun, nofun⟩

/-- If a query is a selection, it is one of those at hand. -/
theorem BoundBy.query (hσ : σ.BoundBy P) {query : Query} (hquery : σ.Admits query) :
    ∀ s, query = .ofRecord s → s.BoundBy P := by
  rintro s rfl
  exact hσ.selection s hquery

/-- What is made of selections that are bound in one sense is bound in that sense, if the tails of
    paths suit the fields that the paths lead to by now. -/
theorem Makes.boundBy (hreg : σ.registry.Within P) (hσ : σ.BoundBy P)
    (htails : ∀ p ∈ σ.paths, p.TailSuits P σ.registry) {s : RecordSelection} (h : σ.Makes s) :
    s.BoundBy P := by
  have hselection : ∀ {s}, s ∈ σ.selections → s.BoundBy P := fun hs => hσ.selection _ hs
  -- Whatever makes a selection keeps the sense in which it is bound, one lemma for each operation.
  cases h with
  | undefined record => exact boundBy_undefined record
  | empty record => exact boundBy_empty record
  | complete record => exact (RecordSelection.complete_wellFormed record).boundBy hreg
  | expandDefaults record => exact (RecordSelection.expandInside_isOf [] record).2.boundBy hreg
  | ofQuery input h => exact (RecordSelection.ofQuery_boundBy hreg (hσ.query input) h).2
  | add before h => exact (hselection before).add hreg h
  | addExcluded before h => exact (hselection before).addExcluded hreg h
  | remove before h => exact (hselection before).remove hreg h
  | setField before input h => exact (hselection before).setField hreg (hσ.query input) h
  | assignToField before input h => exact (hselection before).assignToField hreg (hσ.query input) h
  | pick before other h =>
    exact (pick_descends.boundBy hreg (hselection before) (hselection other) h).2
  | pickQuery before input h =>
    exact (boundBy_of_bindQuery pick_descends hreg (hselection before) (hσ.query input) h).2
  | exclude before other h =>
    exact (exclude_descends.boundBy hreg (hselection before) (hselection other) h).2
  | excludeQuery before input h =>
    exact (boundBy_of_bindQuery exclude_descends hreg (hselection before) (hσ.query input) h).2
  | assign before other h =>
    exact (assign_descends.boundBy hreg (hselection before) (hselection other) h).2
  | assignQuery before input h =>
    exact (boundBy_of_bindQuery assign_descends hreg (hselection before) (hσ.query input) h).2
  | ensureDefined before => exact (hselection before).ensureDefined hreg
  | clear before => exact boundBy_empty _
  | toRecord before h => exact (hselection before).toRecord hreg h
  | fieldSelection before h => exact (hselection before).fieldSelection h
  | ofPath path h =>
    exact RecordPath.toSelection_boundBy hreg (hσ.tail _ path) (htails _ path) h
  | tail path h => exact hσ.tail _ path s h
  | selectionAt path before h => exact RecordPath.selectionAt_boundBy (hselection before) h

/-- So are the tails of paths. A tail that is set is a selection of the record at the end. -/
theorem MakesPath.boundBy (hreg : σ.registry.Within P) (hσ : σ.BoundBy P) {p : RecordPath}
    (h : σ.MakesPath p) :
    p.TailBoundBy P ∧ ((∀ q ∈ σ.paths, q.Anchored σ.registry) → p.Anchored σ.registry) := by
  cases h with
  | ofSegments each h =>
    -- A segment that is a selection or a path is one of those at hand.
    have hqueries := fun (s : RecordSelection) hs => hσ.query (each (.tail (.ofRecord s)) hs) s rfl
    have hpaths := fun (q : RecordPath) hq => hσ.tail q (each (.ofRecord q) hq)
    obtain ⟨htail, hanchored⟩ := RecordPath.ofSegments_boundBy hreg hqueries hpaths h
    exact ⟨htail, fun _ => hanchored⟩
  | assignTail before input h =>
    obtain ⟨htail, hanchored⟩ :=
      RecordPath.assignTail_boundBy hreg (hσ.tail _ before) (hσ.query input) h
    exact ⟨htail, fun hpaths => hanchored (hpaths _ before)⟩

/-- Whatever happens next, selections stay bound in the sense. -/
theorem Step.boundBy (hreg : σ.registry.Within P) (hσ : σ.BoundBy P)
    (htails : ∀ p ∈ σ.paths, p.TailSuits P σ.registry) (h : σ.Step σ') : σ'.BoundBy P := by
  -- A change of names leaves all selections as they are.
  cases h with
  | change change => exact ⟨hσ.selection, hσ.tail⟩
  | make made =>
    exact ⟨List.forall_mem_cons.2 ⟨made.boundBy hreg hσ htails, hσ.selection⟩, hσ.tail⟩
  | makePath made =>
    exact ⟨hσ.selection, List.forall_mem_cons.2 ⟨(made.boundBy hreg hσ).1, hσ.tail⟩⟩
  | drop selected found =>
    exact ⟨fun s hs => hσ.selection s (selected hs), fun p hp => hσ.tail p (found hp)⟩

/-- In any history, all that a selection names are fields. -/
theorem Reachable.boundBy (h : σ.Reachable) : σ.BoundBy fun _ _ => True := by
  induction h with
  | refl => exact start_boundBy
  -- In the weakest sense, any record suits any field.
  | tail _ step ih => exact step.boundBy (fun _ _ _ => trivial) ih fun _ _ _ _ _ _ _ _ => trivial

end Session

/-! ## Names that stand for one record -/

/-- All names of a registry are given to the same records by another one. -/
def Registry.IsPartOf (reg whole : Registry) : Prop :=
  ∀ name record, reg.get? name = some record → whole.get? name = some record

/-- Growing again is growing. -/
theorem Registry.IsPartOf.trans {a b c : Registry} (hab : a.IsPartOf b) (hbc : b.IsPartOf c) :
    a.IsPartOf c := fun name record h => hbc name record (hab name record h)

/-- What the values of a type hold stays the same if the registry grows, as only references to names
    depend on it. -/
theorem FieldType.recordOf_of_isPartOf {reg whole : Registry} (h : reg.IsPartOf whole)
    {r : Schema} : ∀ {t : FieldType}, t.recordOf reg = some r → t.recordOf whole = some r
  | .record _, hr => hr
  | .array items, hr => FieldType.recordOf_of_isPartOf h (t := items) hr
  | .map values, hr => FieldType.recordOf_of_isPartOf h (t := values) hr
  | .ref name, hr => h name r hr
termination_by structural t => t

/-- A nested record stays the same if the registry grows. -/
theorem Field.record_of_isPartOf {reg whole : Registry} (h : reg.IsPartOf whole) {f : Field}
    {r : Schema} (hr : f.record reg = some r) : f.record whole = some r :=
  FieldType.recordOf_of_isPartOf h hr

/-- So does what a path leads to, if that is a record. -/
theorem Leads.of_isPartOf {reg whole : Registry} (h : reg.IsPartOf whole) {record r : Schema}
    {indices : List Nat} (hr : Leads reg record indices (some r)) :
    Leads whole record indices (some r) := by
  generalize htarget : some r = target at hr
  -- A leaf has no record and a reference is looked up in the larger registry with the same result.
  induction hr with
  | nil record => exact .nil record
  | last found leaf => cases htarget
  | cons found nested more ih => exact .cons found (Field.record_of_isPartOf h nested) (ih htarget)

namespace Session

variable {whole : Registry} {σ σ' : Session}

/-- The names that are given to records are given to them by one registry, and all tails at hand are
    selections of what their paths lead to. -/
structure Steady (whole : Registry) (σ : Session) : Prop where
  part : σ.registry.IsPartOf whole
  anchored : ∀ p ∈ σ.paths, p.Anchored σ.registry

/-- What can happen next that leaves it so. -/
def SteadyStep (whole : Registry) (σ σ' : Session) : Prop := σ.Step σ' ∧ σ'.Steady whole

/-- There is a history that leads to this in which each name stands for one record, and in which no
    path is kept that no longer leads to what its tail is a selection of. -/
def Steadily (σ : Session) : Prop := ∃ whole, Relation.ReflTransGen (SteadyStep whole) start σ

/-- Such a history is a history. -/
theorem Steadily.reachable (h : σ.Steadily) : σ.Reachable := by
  obtain ⟨whole, hsteps⟩ := h
  have hstep : SteadyStep whole ≤ Step := fun _ _ step => step.1
  exact Relation.ReflTransGen.mono hstep start σ hsteps

/-- As long as each name stands for one record, selections of a field are of that record. -/
theorem boundBy_of_steady (h : Relation.ReflTransGen (SteadyStep whole) start σ) :
    σ.Steady whole ∧ σ.BoundBy fun f r => f.record whole = some r := by
  induction h with
  | refl => exact ⟨⟨nofun, nofun⟩, start_boundBy⟩
  | tail _ step ih =>
    obtain ⟨hsteady, hbound⟩ := ih
    -- A field that has a nested record by now has the same one under the whole registry.
    have hreg : Registry.Within (fun f r => f.record whole = some r) _ := fun f r =>
      Field.record_of_isPartOf hsteady.part
    have htails := fun p hp => (hsteady.anchored p hp).tailSuits hreg
    exact ⟨step.2, step.1.boundBy hreg hbound htails⟩

/-- As long as each name stands for one record, there is a sense in which each field is suited by
    one record only and in which all selections are bound. -/
theorem Steadily.exists_boundBy (hσ : σ.Steadily) :
    ∃ P : Field → Schema → Prop, (∀ f r r', P f r → P f r' → r = r') ∧ σ.registry.Within P ∧
      σ.BoundBy P := by
  obtain ⟨whole, h⟩ := hσ
  obtain ⟨hsteady, hbound⟩ := boundBy_of_steady h
  refine ⟨fun f r => f.record whole = some r, fun f r r' hr hr' => ?_, fun f r hr => ?_, hbound⟩
  · exact Option.some.inj (hr.symm.trans hr')
  · exact Field.record_of_isPartOf hsteady.part hr

/-- If no name is freed, paths lead where they led before, and so do new ones. -/
theorem Step.anchored (hgrow : σ.registry.IsPartOf σ'.registry) (hσ : σ.Reachable)
    (hpaths : ∀ p ∈ σ.paths, p.Anchored σ.registry) (h : σ.Step σ') :
    ∀ p ∈ σ'.paths, p.Anchored σ'.registry := by
  cases h with
  | change change => exact fun p hp t ht => (hpaths p hp t ht).of_isPartOf hgrow
  -- Only a change of names and a new path can matter; tails that are kept are as they were.
  | make made => exact hpaths
  | makePath made =>
    have hmade := (made.boundBy (fun _ _ _ => trivial) hσ.boundBy).2 hpaths
    exact List.forall_mem_cons.2 ⟨hmade, hpaths⟩
  | drop selected found => exact fun p hp => hpaths p (found hp)

/-- What can happen next if no name is freed. -/
def GrowingStep (σ σ' : Session) : Prop := σ.Step σ' ∧ σ.registry.IsPartOf σ'.registry

/-- As long as no name is freed, each name stands for one record. -/
theorem steadily_of_growing (h : Relation.ReflTransGen GrowingStep start σ) : σ.Steadily := by
  -- Which registry gives all names is known at the end only, so here it is any that goes on from
  -- this one.
  have hall : σ.Reachable ∧ (∀ p ∈ σ.paths, p.Anchored σ.registry) ∧
      ∀ whole, σ.registry.IsPartOf whole → Relation.ReflTransGen (SteadyStep whole) start σ := by
    induction h with
    | refl => exact ⟨.refl, nofun, fun _ _ => .refl⟩
    | tail _ step ih =>
      obtain ⟨hreach, hpaths, hsteady⟩ := ih
      obtain ⟨hstep, hgrow⟩ := step
      have hpaths' := hstep.anchored hgrow hreach hpaths
      refine ⟨hreach.tail hstep, hpaths', fun whole hpart => ?_⟩
      exact (hsteady whole (hgrow.trans hpart)).tail ⟨hstep, hpart, hpaths'⟩
  exact ⟨σ.registry, hall.2.2 σ.registry fun _ _ => id⟩

end Session

/-! ## What can go wrong -/

namespace RecordSelection

/-- Operations that bind a query end in a misuse exactly where the selection and what has been bound
    have selections of different records for the same field, somewhere below. -/
structure MisusedOnClash (reg : Registry) (s : RecordSelection) (query : Query) : Prop where
  pick : Misused (s.pickQuery reg query) ↔ ∃ q, ofQuery reg s.record query = .ok q ∧
    Clashes (ensureDefined reg) (fun _ d => !d.isUndefined) s q
  exclude : Misused (s.excludeQuery reg query) ↔ ∃ q, ofQuery reg s.record query = .ok q ∧
    Clashes (ensureDefined reg) (fun _ d => !d.isUndefinedOrEmpty) s q
  assign : Misused (s.assignQuery reg query) ↔ ∃ q, ofQuery reg s.record query = .ok q ∧
    Clashes id (fun c d => !c.isUndefined && !d.isUndefined) s q
  assignToField (i : Nat) (f : Field) (hf : s.record.fields[i]? = some f) :
    Misused (s.assignToField reg i query) ↔
      ∃ c d, s.explicit? i = some (some c) ∧ f.bind reg query = .ok (some d) ∧
        (!c.isUndefined && !d.isUndefined) = true ∧
        Clashes id (fun c d => !c.isUndefined && !d.isUndefined) c d

/-- Each operation that binds a query by the lemma for it. -/
theorem misusedOnClash (reg : Registry) (s : RecordSelection) (query : Query) :
    s.MisusedOnClash reg query where
  pick := misused_bindQuery_iff pick_descends
  exclude := misused_bindQuery_iff exclude_descends
  assign := misused_bindQuery_iff assign_descends
  assignToField _ _ hf := misused_assignToField_iff hf

/-- Operations that bind a query succeed or fail with an error of the query. -/
structure NeverMisused (reg : Registry) (s : RecordSelection) (query : Query) : Prop where
  pick : ¬ Misused (s.pickQuery reg query)
  exclude : ¬ Misused (s.excludeQuery reg query)
  assign : ¬ Misused (s.assignQuery reg query)
  assignToField (i : Nat) (hi : i < s.record.fields.length) :
    ¬ Misused (s.assignToField reg i query)

/-- So they do if the selection and the query are bound in a sense in which each field is suited by
    one record only. -/
theorem BoundBy.neverMisused {P : Field → Schema → Prop} {reg : Registry}
    (hP : ∀ f r r', P f r → P f r' → r = r') (hreg : reg.Within P) {s : RecordSelection}
    (hs : s.BoundBy P) {query : Query} (hquery : ∀ u, query = .ofRecord u → u.BoundBy P) :
    s.NeverMisused reg query := by
  -- Picking and excluding take a selection that is left open to name its default fields, putting
  -- together takes it as it is.
  have hdefined : ∀ s : RecordSelection, s.BoundBy P →
      (s.ensureDefined reg).BoundBy P ∧ (s.ensureDefined reg).record = s.record := fun s hs =>
    ⟨hs.ensureDefined hreg, record_ensureDefined s⟩
  have hself : ∀ s : RecordSelection, s.BoundBy P → (id s).BoundBy P ∧ (id s).record = s.record :=
    fun s hs => ⟨hs, rfl⟩
  have hbound : ∀ {q}, ofQuery reg s.record query = .ok q → s.record = q.record ∧ q.BoundBy P :=
    fun hq => (ofQuery_boundBy hreg hquery hq).imp_left Eq.symm
  -- Each misuse is a clash, and selections that are bound in this sense do not clash.
  refine ⟨fun h => ?_, fun h => ?_, fun h => ?_, fun i hi h => ?_⟩
  · obtain ⟨q, hq, hclash⟩ := (misusedOnClash reg s query).pick.1 h
    exact hs.not_clashes hP hdefined (hbound hq).2 (hbound hq).1 hclash
  · obtain ⟨q, hq, hclash⟩ := (misusedOnClash reg s query).exclude.1 h
    exact hs.not_clashes hP hdefined (hbound hq).2 (hbound hq).1 hclash
  · obtain ⟨q, hq, hclash⟩ := (misusedOnClash reg s query).assign.1 h
    exact hs.not_clashes hP hself (hbound hq).2 (hbound hq).1 hclash
  · have hf := List.getElem?_eq_getElem hi
    obtain ⟨c, d, hc, hd, -, hclash⟩ := (misusedOnClash reg s query).assignToField i _ hf |>.1 h
    -- What the field has and what is bound to it both belong there.
    have hleft := hs.belongs hc
    have hright := belongs_of_bind hreg hf hquery hd
    obtain ⟨g, hg, hcg⟩ := hleft.field
    obtain ⟨g', hg', hdg⟩ := hright.field
    rw [hg] at hg'
    cases hg'
    have hsame := hP g c.record d.record (hcg c rfl) (hdg d rfl)
    exact (hleft.below c rfl).not_clashes hP hself (hright.below d rfl) hsame hclash

/-- All that a selection names are fields, in whatever sense it is bound. -/
theorem BoundBy.allFound {P : Field → Schema → Prop} {s : RecordSelection} (hs : s.BoundBy P) :
    s.AllFound := by
  induction hs with
  | intro fields below ih =>
    -- The induction is on what is bound, and only the half that names fields is kept.
    refine .intro (fun i child hi => ?_) ih
    obtain ⟨f, hf, -⟩ := fields i child hi
    exact ⟨f, hf⟩

end RecordSelection

namespace Session

/-- In any history of a registry, all that a selection names are fields, at any depth, and so are
    those that a query is bound to: reading a query and looking for what it asks for finds them. The
    operations that bind a query end in a misuse only where selections of different records meet
    below a field, and nowhere while each name stands for one record. -/
theorem Reachable.misused_iff {σ : Session} (hσ : σ.Reachable) {s : RecordSelection}
    (hs : s ∈ σ.selections) {query : Query} (hquery : σ.Admits query) :
    (s.AllFound ∧ ∀ q, RecordSelection.ofQuery σ.registry s.record query = .ok q → q.AllFound) ∧
      query.lookUpNames σ.registry = liftM (query.toNames σ.registry) ∧
      s.lookUpHas σ.registry query = .ok (s.has σ.registry query) ∧
      s.MisusedOnClash σ.registry query ∧ (σ.Steadily → s.NeverMisused σ.registry query) := by
  -- The weakest sense is enough for the look-ups, which need fields and not their records.
  have hbound := hσ.boundBy
  have hbind : ∀ q, RecordSelection.ofQuery σ.registry s.record query = .ok q → q.AllFound := by
    intro q hq
    have hreg : σ.registry.Within fun _ _ => True := fun _ _ _ => trivial
    exact (RecordSelection.ofQuery_boundBy hreg (hbound.query hquery) hq).2.allFound
  have hread : query.Holds RecordSelection.AllFound :=
    Query.Holds.mono (fun u hu => (hbound.selection u hu).allFound) query hquery
  refine ⟨⟨(hbound.selection s hs).allFound, hbind⟩, Query.lookUpNames_eq_of_holds query hread,
    RecordSelection.lookUpHas_eq hbind, RecordSelection.misusedOnClash σ.registry s query, ?_⟩
  -- While each name stands for one record, selections are bound in a sense that rules out clashes.
  intro hsteady
  obtain ⟨P, hP, hreg, hbound⟩ := hsteady.exists_boundBy
  exact (hbound.selection s hs).neverMisused hP hreg (hbound.query hquery)

end Session

/-! ## A record that takes the place of another one -/

/-- A record with the fields of a node. -/
def Schema.successor : Schema := { Schema.node with stamp := 2, name := "Successor" }

/-- The registry in which it has the name of the node. -/
def Registry.ofSuccessor : Registry := ⟨Entries.nil.insert "Node" Schema.successor⟩

/-- The parent of a node, in full. -/
def RecordSelection.parentOfNode : RecordSelection :=
  (empty Schema.node).put 2 (some (undefined Schema.node))

/-- The identifier of the parent. -/
def Query.idOfParent : Query := .map (Entries.nil.insert "parent" (.names ["id"]))

namespace Session

/-- A node has been registered, and its parent selected. -/
def beforeSuccession : Session := ⟨.ofNode, [.parentOfNode], []⟩

/-- The name of the node has been given to its successor since. -/
def afterSuccession : Session := ⟨.ofSuccessor, [.parentOfNode], []⟩

/-- What was there before came about by registering and selecting only. -/
theorem steadily_beforeSuccession : beforeSuccession.Steadily := by
  have hregister : start.Step ⟨.ofNode, [], []⟩ :=
    .change (@Registry.Change.register _ _ "Node" _ rfl)
  have hselect : Step ⟨.ofNode, [], []⟩ beforeSuccession :=
    .make (@Makes.ofQuery _ Schema.node (.names ["parent"]) _ trivial rfl)
  exact steadily_of_growing (.tail (.single ⟨hregister, nofun⟩) ⟨hselect, fun _ _ => id⟩)

/-- What came after, by freeing the name and giving it to the successor. -/
theorem reachable_afterSuccession : afterSuccession.Reachable := by
  have hremove : beforeSuccession.Step ⟨Registry.ofNode.remove "Node", [.parentOfNode], []⟩ :=
    .change (.remove "Node")
  have hregister : Step ⟨Registry.ofNode.remove "Node", [.parentOfNode], []⟩ afterSuccession :=
    .change (@Registry.Change.register _ _ "Node" Schema.successor rfl)
  exact (steadily_beforeSuccession.reachable.tail hremove).tail hregister

/-- Before, the identifier of the parent is picked without any misuse. Afterwards it is looked for
    in a selection of the successor, and what is selected is one of the node. -/
theorem misused_iff_succession :
    RecordSelection.parentOfNode.NeverMisused .ofNode .idOfParent ∧
      Misused (RecordSelection.parentOfNode.pickQuery .ofSuccessor .idOfParent) := by
  have hmem : RecordSelection.parentOfNode ∈ [RecordSelection.parentOfNode] :=
    List.mem_singleton_self _
  have hadmits : ∀ σ : Session, σ.Admits .idOfParent := fun σ => ⟨trivial, trivial⟩
  constructor
  -- Both histories are reachable, and only the first of them is a steady one.
  · obtain ⟨-, -, -, -, hsafe⟩ :=
      Reachable.misused_iff steadily_beforeSuccession.reachable hmem (hadmits _)
    exact hsafe steadily_beforeSuccession
  · obtain ⟨-, -, -, hclash, -⟩ := Reachable.misused_iff reachable_afterSuccession hmem (hadmits _)
    have differ : Schema.node ≠ Schema.successor := by decide
    exact hclash.pick.2 ⟨_, rfl, .deeper (i := 2) rfl rfl rfl (.here differ)⟩

/-- A selection is picked from by names, and that goes wrong as if it was given a selection of
    another record. -/
theorem pickQuery_afterSuccession :
    afterSuccession.Reachable ∧ RecordSelection.parentOfNode ∈ afterSuccession.selections ∧
      afterSuccession.Admits .idOfParent ∧
      RecordSelection.parentOfNode.pickQuery afterSuccession.registry .idOfParent =
        .error (.misuse (.otherRecord "Node" "Successor")) := by
  refine ⟨reachable_afterSuccession, List.mem_singleton_self _, ⟨trivial, trivial⟩, rfl⟩

end Session

end FieldMask
