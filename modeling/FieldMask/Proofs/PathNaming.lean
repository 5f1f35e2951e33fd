import FieldMask.Path.Segments
import FieldMask.Proofs.BindingPaths
import FieldMask.Proofs.PathInvariant

/-!
# Paths by index and by name

The same segments make a path of indices from a record and a path of names. Bound to the record, the
selection of the end of the one is that of the end of the other.

The two builders treat a tail differently where an open tail comes after one that is not. The path
of indices forgets its tail then and may go on, and the path of names keeps it. So a tail that is
forgotten later on has to be left out before segments make a path of names.

## Key results

- `LooksUp.concat`: a path of names that goes on to a field
- `LooksUp.toSelection`: the selections of the ends of paths that correspond
- `Segment.settled`: segments without the tails that are forgotten later on
- `Draft.Follows.foldlM`: the two builders keep in step
- `RecordPath.ofSegments_named`: the two paths of the same segments
-/

namespace FieldMask

variable {reg : Registry}

/-! ## Names and indices of one path -/

/-- Names and indices lead from a record to the same fields, and to the nested record of the last of
    them, if it has one. -/
inductive LooksUp (reg : Registry) : Schema → List String → List Nat → Option Schema → Prop where
  | nil (record : Schema) : LooksUp reg record [] [] (some record)
  | last {record : Schema} {name : String} {i : Nat} {f : Field}
      (found : record.lookup? name = some (i, f)) (leaf : f.record reg = none) :
      LooksUp reg record [name] [i] none
  | cons {record next : Schema} {name : String} {i : Nat} {f : Field} {names : List String}
      {indices : List Nat} {target : Option Schema} (found : record.lookup? name = some (i, f))
      (nested : f.record reg = some next) (more : LooksUp reg next names indices target) :
      LooksUp reg record (name :: names) (i :: indices) target

/-- Names and indices go on to a field of the record at their end. -/
theorem LooksUp.concat {record here : Schema} {names : List String} {indices : List Nat}
    {name : String} {i : Nat} {f : Field} (h : LooksUp reg record names indices (some here))
    (hf : here.lookup? name = some (i, f)) :
    LooksUp reg record (names ++ [name]) (indices ++ [i]) (f.record reg) := by
  -- By induction on the names, with the record at their end kept as an equation.
  generalize htarget : some here = target at h
  induction h with
  | nil record =>
    cases htarget
    cases hr : f.record reg with
    | none => exact .last hf hr
    | some next => exact .cons hf hr (.nil next)
  | last found leaf => cases htarget
  | cons found nested more ih => exact .cons found nested (ih htarget)

/-- A tail by name is bound to a tail of the record at the end of a path, or there is none. -/
inductive TailsMatch (reg : Registry) :
    Option Schema → Option NameSelection → Option RecordSelection → Prop where
  | absent (target : Option Schema) : TailsMatch reg target none none
  | bound {record : Schema} {named : NameSelection} {tail : RecordSelection}
      (bind : RecordSelection.ofNames reg record named = .ok tail) :
      TailsMatch reg (some record) (some named) (some tail)

/-- Where there is no tail of indices, there is none by name. -/
theorem TailsMatch.eq_none {target : Option Schema} {named : Option NameSelection}
    (h : TailsMatch reg target named none) : named = none := by
  cases h
  rfl

namespace RecordSelection

/-- A single name is bound to a single field. -/
theorem ofNames_single {record : Schema} {name : String} {named : NameSelection} {i : Nat}
    {child : Option RecordSelection} (h : Binds reg record (name, named) (i, child)) :
    ofNames reg record (.set .empty name named) = .ok ((empty record).put i child) := by
  have hall : ofNamesEach reg record (Entries.nil.insert name named) = .ok ([(i, child)], []) :=
    ofNamesEach_of_forall₂ (.cons h .nil)
  -- A selection of one name has one entry, which is bound as the list of it is.
  show ofNames reg record (.defined (Entries.nil.insert name named)) = _
  rw [ofNames, hall]
  rfl

/-- What is named at the end of a path is bound to what is selected there. -/
theorem binds_end {record : Schema} {name : String} {i : Nat} {f : Field}
    {named : Option NameSelection} {tail : Option RecordSelection}
    (found : record.lookup? name = some (i, f)) (h : TailsMatch reg (f.record reg) named tail) :
    Binds reg record (name, named.getD .undefined) (i, tail <|> fullChild reg f) := by
  -- With no tail the field is selected in full, and that depends on its nested record only.
  generalize htarget : f.record reg = target at h
  cases h with
  | absent =>
    have hfull : fullChild reg f = target.map undefined := congrArg (Option.map undefined) htarget
    show Binds reg record (name, .undefined) (i, fullChild reg f)
    rw [hfull]
    cases target with
    | none => exact .leaf found htarget
    | some next => exact .nested found htarget rfl
  | bound bind => exact .nested found htarget bind

end RecordSelection

/-- Names and indices that lead to the same fields can be walked, and select the same end of a path
    unless there are none of them. -/
theorem LooksUp.selectionOf? {record : Schema} {names : List String} {indices : List Nat}
    {target : Option Schema} {named : Option NameSelection} {tail : Option RecordSelection}
    (h : LooksUp reg record names indices target) (htail : TailsMatch reg target named tail) :
    ∃ steps, RecordPath.walkFrom reg record indices = .ok steps ∧
      (names = [] ∧ steps = [] ∧ target = some record ∨ names ≠ [] ∧
        ∃ s, RecordPath.selectionOf? reg tail steps = some s ∧ RecordSelection.ofNames reg record
          (names.foldr (fun name child => .set .empty name child) (named.getD .undefined)) =
            .ok s) := by
  -- From the end of the path: what is selected there is put below one field after the other.
  induction h with
  | nil record => exact ⟨[], rfl, .inl ⟨rfl, rfl, rfl⟩⟩
  | @last record name i f found leaf =>
    have hwalk := RecordPath.walkFrom_of_leaf (Schema.getElem?_of_lookup? found) leaf []
    refine ⟨[(record, i, f)], hwalk, .inr ⟨List.cons_ne_nil name [], _, rfl, ?_⟩⟩
    exact RecordSelection.ofNames_single (RecordSelection.binds_end found (leaf.symm ▸ htail))
  | @cons record next name i f names indices target found nested more ih =>
    obtain ⟨steps, hsteps, hend⟩ := ih htail
    refine ⟨(record, i, f) :: steps, ?_, .inr ⟨List.cons_ne_nil name names, ?_⟩⟩
    · rw [RecordPath.walkFrom_of_nested (Schema.getElem?_of_lookup? found) nested, hsteps]
      rfl
    -- Nothing behind the field means that it takes the tail itself.
    · obtain ⟨rfl, rfl, rfl⟩ | ⟨-, s, hs, hbind⟩ := hend
      · refine ⟨_, rfl, RecordSelection.ofNames_single (RecordSelection.binds_end found ?_)⟩
        exact nested.symm ▸ htail
      -- The walk went on, so there is a selection to put below the field.
      · cases steps with
        | nil => cases hs
        | cons step more =>
          refine ⟨_, rfl, ?_⟩
          rw [hs]
          exact RecordSelection.ofNames_single (.nested found nested hbind)

/-- The selections of the ends of a path of names and of a path of indices that lead to the same
    fields. -/
theorem LooksUp.toSelection {record : Schema} {names : List String} {indices : List Nat}
    {target : Option Schema} {named : Option NameSelection} {tail : Option RecordSelection}
    (h : LooksUp reg record names indices target) (htail : TailsMatch reg target named tail) :
    ∃ s, (RecordPath.mk record indices tail).toSelection reg = .ok s ∧
      RecordSelection.ofNames reg record (NamePath.mk names named).toSelection = .ok s := by
  obtain ⟨steps, hsteps, hend⟩ := h.selectionOf? htail
  have hsel : (RecordPath.mk record indices tail).toSelection reg =
      .ok ((RecordPath.selectionOf? reg tail steps).getD (.empty record)) := by
    rw [RecordPath.toSelection, RecordPath.walk, hsteps]
    rfl
  -- Both are the selection of no field, unless there is a first one.
  rw [hsel]
  refine ⟨_, rfl, ?_⟩
  obtain ⟨rfl, rfl, -⟩ | ⟨hne, s, hs, hbind⟩ := hend
  · -- A path that leads to no field selects nothing, whatever its tail.
    rfl
  · rw [hs, Option.getD_some]
    cases names with
    | nil => exact absurd rfl hne
    | cons name more => exact hbind

/-! ## Segments by name -/

namespace Segment

/-- A segment of names, or a tail that is not a selection of a record. -/
def IsNamed : Segment → Prop
  | .names _ => True
  | .tail query => ∀ s, query ≠ .ofRecord s
  | _ => False

/-- Whether the segment is a tail that is left open. -/
def opensTail (reg : Registry) : Segment → Bool
  | .tail query => match query.toNames reg with
    | .ok s => s.isUndefined
    | .error _ => false
  | _ => false

/-- Whether the segment is a tail that is not left open. -/
def definesTail (reg : Registry) : Segment → Bool
  | .tail query => match query.toNames reg with
    | .ok s => !s.isUndefined
    | .error _ => false
  | _ => false

/-- The segments without the tails that an open one further on makes forgotten. -/
def settled (reg : Registry) : List Segment → List Segment
  | [] => []
  | segment :: rest =>
    if segment.definesTail reg && rest.any (opensTail reg) then settled reg rest
    else segment :: settled reg rest

/-- No tail is forgotten if none is followed by an open one. -/
theorem settled_eq_self {segments : List Segment}
    (h : segments.Pairwise fun a b => a.definesTail reg = true → b.opensTail reg = false) :
    settled reg segments = segments := by
  -- By induction on the segments, where the first one is kept since no later one opens its tail.
  induction h with
  | nil => rfl
  | @cons segment rest hfirst _ ih =>
    have hkept : (segment.definesTail reg && rest.any (opensTail reg)) = false := by
      cases hdefines : segment.definesTail reg with
      | false => rfl
      | true =>
        rw [Bool.true_and, List.any_eq_false]
        exact fun later hlater => Bool.eq_false_iff.1 (hfirst later hlater hdefines)
    rw [settled, hkept, ih]
    rfl

end Segment

/-! ## The two builders -/

namespace NamePath

/-- A path of names goes on along names, but not behind a tail. -/
theorem addSegment_names (u : NamePath) {dotted : String}
    (h : Segment.dottedNames dotted = [] ∨ u.tail = none) :
    u.addSegment reg (.names dotted) =
      .ok { u with names := u.names ++ Segment.dottedNames dotted } := by
  have hparts : partsOf reg (.names dotted) = .ok (Segment.dottedNames dotted, none) := rfl
  rw [addSegment, hparts]
  -- A tail is only in the way of a name, so either there is none or there are no names.
  simp only [bind, Except.bind]
  rcases h with h | h
  · rw [h]
    cases u.tail <;> rfl
  · rw [h]
    cases (Segment.dottedNames dotted).head? <;> rfl

/-- A path of names takes a tail in place of the one it has, unless it is left open. -/
theorem addSegment_tail (u : NamePath) {query : Query} {named : NameSelection}
    (h : query.toNames reg = .ok named) : u.addSegment reg (.tail query) =
      .ok { u with tail := if named.isUndefined then u.tail else some named } := by
  have hparts : partsOf reg (.tail query) = .ok ([], some named) := by
    rw [partsOf, h]
    rfl
  rw [addSegment, hparts]
  -- A tail left open is merged with what is there by leaving that as it is.
  obtain ⟨names, tail⟩ := u
  cases tail <;> exact congrArg Except.ok (congrArg₂ mk (List.append_nil names) rfl)

end NamePath

namespace RecordPath.Draft

/-- A path of indices and a path of names have come to the same place. If an open tail is still to
    come, the path of names has no tail. -/
structure Follows (reg : Registry) (record : Schema) (opensLater : Bool) (d : Draft)
    (u : NamePath) : Prop where
  record_eq : d.path.record = record
  looksUp : LooksUp reg record u.names d.path.indices d.reached
  forgotten : opensLater = true → u.tail = none
  kept : opensLater = false → TailsMatch reg d.reached u.tail d.path.tail

/-- A path of names goes on wherever the path of indices does. -/
theorem Follows.tail_eq_none {record here : Schema} {opensLater : Bool} {d : Draft} {u : NamePath}
    (h : d.Follows reg record opensLater u) {next : String} (hhere : d.here next = .ok here) :
    u.tail = none := by
  -- A tail that is to be forgotten has not been added; any other one would have stopped the
  -- indices.
  cases opensLater with
  | true => exact h.forgotten rfl
  | false =>
    have hmatch := h.kept rfl
    rw [(here_eq_ok hhere).1] at hmatch
    exact hmatch.eq_none

/-- The two go on along the same names. -/
theorem Follows.addNames {record : Schema} {opensLater : Bool} {d d' : Draft} {u : NamePath}
    (h : d.Follows reg record opensLater u) {names : List String}
    (hd : names.foldlM (addName reg) d = .ok d') :
    (names = [] ∨ u.tail = none) ∧
      d'.Follows reg record opensLater { u with names := u.names ++ names } := by
  -- By induction on the names: a step of indices is one of the record reached, under the same name.
  induction names generalizing d u with
  | nil =>
    cases hd
    rw [List.append_nil]
    exact ⟨.inl rfl, h⟩
  | cons name rest ih =>
    rw [List.foldlM_cons] at hd
    obtain ⟨d₁, hname, hrest⟩ := bind_eq_ok_iff.1 hd
    obtain ⟨here, hhere, hname⟩ := bind_eq_ok_iff.1 hname
    obtain ⟨⟨i, f⟩, hfound, hname⟩ := bind_eq_ok_iff.1 hname
    cases hname
    have htail := h.tail_eq_none hhere
    obtain ⟨hnone, hreached⟩ := here_eq_ok hhere
    -- Once a name is pushed there is no tail on either side.
    have hlookup := Schema.lookup?_of_resolveName hfound
    have hfirst : (d.push reg i f).Follows reg record opensLater
        { u with names := u.names ++ [name] } :=
      ⟨h.record_eq, (hreached ▸ h.looksUp).concat hlookup, fun _ => htail, fun _ => by
        show TailsMatch reg (f.record reg) u.tail d.path.tail
        rw [htail, hnone]
        exact .absent _⟩
    obtain ⟨-, hall⟩ := ih hfirst hrest
    rw [List.append_assoc] at hall
    exact ⟨.inr htail, hall⟩

/-- A tail that is not a selection of a record is bound by its names. One that is left open is
    none. -/
theorem setTail_eq_ok {d d' : Draft} {query : Query} (hquery : ∀ s, query ≠ .ofRecord s)
    (h : d.setTail reg query = .ok d') :
    ∃ named tail, query.toNames reg = .ok named ∧ d' = { d with path := { d.path with tail } } ∧
      TailsMatch reg d.reached (if named.isUndefined then none else some named) tail := by
  -- At a scalar field only an open tail is accepted, and at a record it is bound there.
  rw [setTail] at h
  cases hreached : d.reached with
  | none =>
    simp only [hreached] at h
    obtain ⟨named, hquery, h⟩ := bind_eq_ok_iff.1 h
    split at h
    · rename_i hopen
      cases h
      exact ⟨named, none, hquery, rfl, by rw [if_pos hopen]; exact .absent none⟩
    · cases h
  | some record =>
    simp only [hreached] at h
    obtain ⟨tail, htail, h⟩ := bind_eq_ok_iff.1 h
    -- The query is one by names, since selections of records are excluded.
    cases h
    obtain ⟨named, hnamed, hbind⟩ : ∃ named, query.toNames reg = .ok named ∧
        RecordSelection.ofNames reg record named = .ok tail := by
      cases query with
      | ofRecord s => exact absurd rfl (hquery s)
      | _ => exact bind_eq_ok_iff.1 htail
    refine ⟨named, _, hnamed, rfl, ?_⟩
    rw [RecordSelection.isUndefined_of_ofNames hbind]
    split
    · exact .absent _
    · exact .bound hbind

/-- The two go on with a tail, unless an open one makes the path of indices forget it. -/
theorem Follows.setTail {record : Schema} {opensLater : Bool} {d d' : Draft} {u : NamePath}
    {query : Query} (hquery : ∀ s, query ≠ .ofRecord s)
    (h : d.Follows reg record (Segment.opensTail reg (.tail query) || opensLater) u)
    (hd : d.setTail reg query = .ok d') :
    if Segment.definesTail reg (.tail query) && opensLater then d'.Follows reg record opensLater u
    else ∃ u', u.addSegment reg (.tail query) = .ok u' ∧ d'.Follows reg record opensLater u' := by
  -- Whether the tail opens or defines is whether its names are left open.
  obtain ⟨named, tail, hnamed, rfl, hmatch⟩ := setTail_eq_ok hquery hd
  have hadd := NamePath.addSegment_tail u hnamed
  have hopens : Segment.opensTail reg (.tail query) = named.isUndefined := by
    rw [Segment.opensTail, hnamed]
  have hdefines : Segment.definesTail reg (.tail query) = !named.isUndefined := by
    rw [Segment.definesTail, hnamed]
  rw [hopens] at h
  rw [hdefines]
  -- Left open, it is no tail on either side; otherwise it may still be forgotten.
  cases hopen : named.isUndefined with
  | true =>
    rw [hopen] at h hmatch hadd
    have hnone : u.tail = none := h.forgotten rfl
    refine ⟨u, hadd, h.record_eq, h.looksUp, fun _ => hnone, fun _ => ?_⟩
    rw [hnone]
    exact hmatch
  | false =>
    rw [hopen] at h hmatch hadd
    cases opensLater with
    | true => exact ⟨h.record_eq, h.looksUp, h.forgotten, nofun⟩
    | false => exact ⟨_, hadd, h.record_eq, h.looksUp, nofun, fun _ => hmatch⟩

/-- A path of names goes on with the segments that are not forgotten wherever the path of indices
    does. -/
theorem Follows.foldlM {record : Schema} {segments : List Segment} {d d' : Draft} {u : NamePath}
    (hnamed : ∀ segment ∈ segments, segment.IsNamed)
    (h : d.Follows reg record (segments.any (Segment.opensTail reg)) u)
    (hd : segments.foldlM (addSegment reg) d = .ok d') :
    ∃ u', (Segment.settled reg segments).foldlM (NamePath.addSegment reg) u = .ok u' ∧
      d'.Follows reg record false u' := by
  -- By induction on the segments. What is still to come decides whether a tail is forgotten.
  induction segments generalizing d u with
  | nil =>
    cases hd
    exact ⟨u, rfl, h⟩
  | cons segment rest ih =>
    rw [List.foldlM_cons] at hd
    obtain ⟨d₁, hfirst, hd⟩ := bind_eq_ok_iff.1 hd
    have hrest : ∀ u₁, d₁.Follows reg record (rest.any (Segment.opensTail reg)) u₁ →
        ∃ u', (Segment.settled reg rest).foldlM (NamePath.addSegment reg) u₁ = .ok u' ∧
          d'.Follows reg record false u' :=
      fun u₁ h₁ => ih (fun later hlater => hnamed later (List.mem_cons_of_mem _ hlater)) h₁ hd
    have hsegment := hnamed segment List.mem_cons_self
    rw [List.any_cons] at h
    rw [Segment.settled]
    cases segment with
    | index i => cases hsegment
    | ofRecord p => cases hsegment
    | byName p => cases hsegment
    | names dotted =>
      -- Names define no tail, so they are never forgotten and both go on along them.
      obtain ⟨hgo, hnext⟩ := Follows.addNames h (mapError_eq_ok_iff.1 hfirst)
      obtain ⟨u', hu', hfollows⟩ := hrest _ hnext
      refine ⟨u', ?_, hfollows⟩
      rw [show Segment.definesTail reg (.names dotted) = false from rfl, Bool.false_and,
        if_neg Bool.false_ne_true, List.foldlM_cons, NamePath.addSegment_names u hgo]
      exact hu'
    | tail query =>
      -- A tail that is forgotten is left out by name, and the other one is added.
      have hstep := Follows.setTail hsegment h (mapError_eq_ok_iff.1 hfirst)
      split at hstep
      · rename_i hforgotten
        rw [if_pos hforgotten]
        exact hrest u hstep
      · rename_i hkept
        obtain ⟨u₁, hadd, h₁⟩ := hstep
        obtain ⟨u', hu', hfollows⟩ := hrest u₁ h₁
        refine ⟨u', ?_, hfollows⟩
        rw [if_neg hkept, List.foldlM_cons, hadd]
        exact hu'

end RecordPath.Draft

/-! ### Tails of the parent of a node -/

namespace Segment

/-- The parent, left open and then with its id as the tail. -/
def openThenId : List Segment := [.names "parent", .tail .open, .tail (.names ["id"])]

/-- The parent, with its id as the tail and then left open. -/
def idThenOpen : List Segment := [.names "parent", .tail (.names ["id"]), .tail .open]

/-- The segments are by name. -/
theorem isNamed_openThenId : ∀ segment ∈ openThenId, segment.IsNamed := by
  simp [openThenId, IsNamed]

/-- No tail of them is followed by an open one. -/
theorem pairwise_openThenId :
    openThenId.Pairwise fun a b => a.definesTail Registry.ofNode = true →
      b.opensTail Registry.ofNode = false := by
  refine .cons (fun _ _ h => ?_) (.cons (fun _ _ h => ?_) (.cons nofun .nil)) <;> cases h

end Segment

namespace RecordPath

/-- The path to the parent of a node. -/
def toParent (tail : Option RecordSelection) : RecordPath := ⟨Schema.node, [2], tail⟩

/-- The path of indices has the id as its tail. -/
theorem ofSegments_openThenId :
    ofSegments Registry.ofNode Schema.node Segment.openThenId =
      .ok (toParent (some ((RecordSelection.empty Schema.node).put 0 none))) := by
  rfl

/-! ## Two paths of the same segments -/

/-- The same segments make a path of indices from a record and a path of names, if the tails are
    left out that are forgotten later on. There is nothing to leave out if no tail is followed by an
    open one. Bound to the record, the selection of the end of the path of names is that of the path
    of indices. -/
theorem ofSegments_named {record : Schema} {segments : List Segment} {p : RecordPath}
    (hnamed : ∀ segment ∈ segments, segment.IsNamed)
    (h : ofSegments reg record segments = .ok p) :
    ∃ u s, NamePath.ofSegments reg (Segment.settled reg segments) = .ok u ∧
      ((segments.Pairwise fun a b => a.definesTail reg = true → b.opensTail reg = false) →
        NamePath.ofSegments reg segments = .ok u) ∧
      p.toSelection reg = .ok s ∧ RecordSelection.ofNames reg record u.toSelection = .ok s := by
  obtain ⟨d, hd, h⟩ := bind_eq_ok_iff.1 h
  cases h
  -- Before the first segment, both are at the record itself without a tail.
  have hstart : Draft.Follows reg record (segments.any (Segment.opensTail reg))
      ⟨⟨record, [], none⟩, some record, ""⟩ ⟨[], none⟩ :=
    ⟨rfl, .nil record, fun _ => rfl, fun _ => .absent _⟩
  obtain ⟨u, hu, hfollows⟩ := hstart.foldlM hnamed hd
  -- At the end no open tail is to come, so the tails match.
  obtain ⟨s, hs, hbind⟩ := hfollows.looksUp.toSelection (hfollows.kept rfl)
  refine ⟨u, s, hu, fun hnone => ?_, by rw [← hs, ← hfollows.record_eq], hbind⟩
  rwa [Segment.settled_eq_self hnone] at hu

/-- The id of the parent is selected in both ways. -/
theorem ofSegments_named_openThenId : ∃ u s,
    NamePath.ofSegments Registry.ofNode Segment.openThenId = .ok u ∧
      (toParent (some ((RecordSelection.empty Schema.node).put 0 none))).toSelection
        Registry.ofNode = .ok s ∧
      RecordSelection.ofNames Registry.ofNode Schema.node u.toSelection = .ok s := by
  obtain ⟨u, s, -, hu, hs, hbind⟩ :=
    ofSegments_named Segment.isNamed_openThenId ofSegments_openThenId
  exact ⟨u, s, hu Segment.pairwise_openThenId, hs, hbind⟩

/-- A tail that is followed by an open one is forgotten by the path of indices, but not by the path
    of names, so that they select different things. -/
theorem ofSegments_idThenOpen : ∃ u s s',
    ofSegments Registry.ofNode Schema.node Segment.idThenOpen = .ok (toParent none) ∧
      (toParent none).toSelection Registry.ofNode = .ok s ∧
      NamePath.ofSegments Registry.ofNode Segment.idThenOpen = .ok u ∧
      RecordSelection.ofNames Registry.ofNode Schema.node u.toSelection = .ok s' ∧ s ≠ s' :=
  ⟨⟨["parent"], some (NameSelection.undefined.add ["id"])⟩,
    (RecordSelection.empty Schema.node).put 2 (some (RecordSelection.undefined Schema.node)),
    (RecordSelection.empty Schema.node).put 2
      (some ((RecordSelection.empty Schema.node).put 0 none)), rfl, rfl, rfl, rfl, by decide⟩

end RecordPath

end FieldMask
