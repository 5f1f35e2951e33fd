import FieldMask.NameSelection.Printer
import FieldMask.Proofs.ListReading

/-!
# Expressions and the selections they spell

The canonical expression of a selection is read back as the selection, provided that its names
can be spelt, and only such selections are ever read. The renderer works on fields and the texts
behind their names, so the round trip is first proved for those, whatever they were rendered from.

## Key results

- `readsAs_renderFields`: rendered fields are read back, in whatever order they stand
- `parseChars_of_readsAs`: a rendered block is also read as a whole expression
- `NameSelection.readsAs_render`: the canonical expression of a selection is read as the selection
- `NameSelection.spellable_of_parseList`: all names that are read from a list can be spelt
- `NameSelection.parse_expr_canonical`: rendering and parsing are inverse
-/

namespace FieldMask

open Text (trim isBlank)

/-! ## Rendered fields -/

/-- What stands behind the name of a field gives it a selection: nothing leaves it open, and a
    block is read. -/
inductive ReadsAs : List Char → NameSelection → Prop where
  | nothing : ReadsAs [] .undefined
  | block {inside : List Char} {s : NameSelection} (balanced : openAfter? 0 inside = some 0)
      (read : NameSelection.readBlock inside = .ok s) : ReadsAs ('\x7b' :: (inside ++ ['\x7d'])) s

/-- A name and the text behind it are read as a name and its selection. -/
inductive FieldReadsAs : List Char × List Char → String × NameSelection → Prop where
  | mk {name text : List Char} {child : NameSelection} (isName : IsName name)
      (reads : ReadsAs text child) : FieldReadsAs (name, text) (String.ofList name, child)

/-- A rendered field: its name, and behind a space what gives it a selection. -/
def fieldText (field : List Char × List Char) : List Char :=
  if field.2.isEmpty then field.1 else field.1 ++ ' ' :: field.2

/-- Rendered fields are a block around a list of them with a space at either end. -/
theorem renderFields_cons (field : List Char × List Char) (more : List (List Char × List Char)) :
    renderFields (field :: more) =
      '\x7b' :: ((' ' :: ([',', ' '].intercalate ((field :: more).map fieldText) ++ [' '])) ++
        ['\x7d']) := by
  show ['\x7b', ' '] ++ [',', ' '].intercalate ((field :: more).map fieldText) ++ [' ', '\x7d'] = _
  simp

/-- A rendered field has no blanks around it. -/
theorem trim_fieldText {field : List Char × List Char} {named : String × NameSelection}
    (h : FieldReadsAs field named) : trim (fieldText field) = fieldText field := by
  cases h with
  | mk hname htext =>
    -- A field in full ends with its name, and any other with the brace that closes its block.
    cases htext with
    | nothing => exact hname.trimmed
    | @block inside _ balanced read =>
      obtain ⟨c, rest, rfl⟩ := List.exists_cons_of_ne_nil hname.nonempty
      refine Text.trim_eq_self_iff.2 ⟨?_, ?_⟩
      · exact (Text.trim_eq_self_iff.1 hname.trimmed).1
      · intro d hd
        have hend : fieldText (c :: rest, '\x7b' :: (inside ++ ['\x7d'])) =
            (c :: rest ++ ' ' :: '\x7b' :: inside) ++ ['\x7d'] := by simp [fieldText]
        rw [hend, List.getLast?_concat] at hd
        cases hd
        decide

/-- A rendered field may stand as a part of a list. -/
theorem partAfter?_fieldText {field : List Char × List Char} {named : String × NameSelection}
    (h : FieldReadsAs field named) : partAfter? 0 (fieldText field) = some 0 := by
  cases h with
  | mk hname htext =>
    have hplain := partAfter?_of_plain hname.plain 0
    cases htext with
    | nothing => exact hplain
    | block balanced read =>
      simp [fieldText, hplain, partStep, braceStep, partAfter?_succ balanced]

/-- Reading a rendered field names it with its selection. -/
theorem addPart_fieldText {part : List Char} {field : List Char × List Char}
    {named : String × NameSelection} (h : FieldReadsAs field named)
    (htrim : trim part = fieldText field) (s : NameSelection) :
    NameSelection.addPart s part = .ok (s.set named.1 named.2) := by
  cases h with
  | @mk name _ _ hname htext =>
    cases htext with
    | nothing =>
      have hname' : trim part = name := htrim
      have hopen : '\x7b' ∉ name := fun hmem => (hname.plain _ hmem).1 rfl
      rw [NameSelection.addPart, readPart_bare (hname' ▸ hname.nonempty) (hname' ▸ hopen), hname']
    | @block inside _ balanced read =>
      have hblock : trim part = (name ++ [' ']) ++ '\x7b' :: (inside ++ ['\x7d']) := by
        rw [htrim]
        simp [fieldText]
      have hopen : '\x7b' ∉ name ++ [' '] := by
        intro hmem
        -- The name is plain, and behind it is only the space.
        rcases List.mem_append.1 hmem with hmem | hmem
        · exact (hname.plain _ hmem).1 rfl
        · exact absurd (List.mem_singleton.1 hmem) (by decide)
      have htrimmed : trim (name ++ [' ']) = name := by
        rw [Text.trim_concat_space, hname.trimmed]
      have hne : ¬ name.isEmpty = true := by simpa using hname.nonempty
      rw [NameSelection.addPart, readPart_of_block hopen balanced hblock, htrimmed, if_neg hne]
      show (within (String.ofList name) (NameSelection.readBlock inside) >>= _) = _
      rw [read]
      rfl

/-! ## Lists of rendered fields -/

/-- Rendered fields, with spaces around them, are the parts of a list that each name a field. -/
theorem exists_parts {fields : List (List Char × List Char)}
    {named : List (String × NameSelection)} (h : List.Forall₂ FieldReadsAs fields named)
    (hne : fields ≠ []) :
    ∃ parts, ' ' :: ([',', ' '].intercalate (fields.map fieldText) ++ [' ']) =
        [','].intercalate parts ∧
      (∀ part ∈ parts, partAfter? 0 part = some 0) ∧
      List.Forall₂ (fun part p => ∀ s, NameSelection.addPart s part = .ok (s.set p.1 p.2))
        parts named := by
  -- Along the fields: the last one is the whole rest of the list, the others have a comma behind
  -- them.
  induction h with
  | nil => exact absurd rfl hne
  | @cons field p fields named hfirst hmore ih =>
    have hbalanced := partAfter?_fieldText hfirst
    cases hmore with
    | nil =>
      -- The last part has the space in front of the closing brace behind it.
      have htrim : trim (' ' :: (fieldText field ++ [' '])) = fieldText field := by
        rw [Text.trim_space_cons, Text.trim_concat_space, trim_fieldText hfirst]
      refine ⟨[' ' :: (fieldText field ++ [' '])], ?_, ?_, ?_⟩
      · rw [List.map_singleton, List.intercalate_singleton, List.intercalate_singleton]
      · intro part hp
        rw [List.mem_singleton.1 hp]
        simp [partStep, braceStep, hbalanced]
      · exact .cons (addPart_fieldText hfirst htrim) .nil
    | @cons next q fields named hnext hmore =>
      have htrim : trim (' ' :: fieldText field) = fieldText field := by
        rw [Text.trim_space_cons, trim_fieldText hfirst]
      obtain ⟨parts, heq, hparts, hread⟩ := ih (List.cons_ne_nil next fields)
      refine ⟨(' ' :: fieldText field) :: parts, ?_, ?_,
        .cons (addPart_fieldText hfirst htrim) hread⟩
      · cases hread with
        | cons _ _ =>
          rw [List.intercalate_cons_cons, ← heq]
          simp
      · intro part hp
        rcases List.mem_cons.1 hp with rfl | hp
        · simp [partStep, braceStep, hbalanced]
        · exact hparts part hp

/-- Parts that each name a field are read one after the other. -/
theorem foldlM_addPart {parts : List (List Char)} {named : List (String × NameSelection)}
    (h : List.Forall₂ (fun part p => ∀ s, NameSelection.addPart s part = .ok (s.set p.1 p.2))
      parts named) (s : NameSelection) :
    parts.foldlM NameSelection.addPart s = .ok (named.foldl (fun s p => s.set p.1 p.2) s) := by
  induction h generalizing s with
  | nil => rfl
  | cons hpart _ ih =>
    rw [List.foldlM_cons, hpart s]
    exact ih _

/-- Naming fields one after the other makes a map of them. -/
theorem foldl_set (named : List (String × NameSelection)) (m : OrderedMap String NameSelection) :
    named.foldl (fun (s : NameSelection) p => s.set p.1 p.2) (.defined m) =
      .defined (named.foldl (fun m (name, child) => m.insert name child) m) := by
  induction named generalizing m with
  | nil => rfl
  | cons p more ih => exact ih (m.insert p.1 p.2)

/-- A list of rendered fields is not blank. -/
theorem trim_intercalate_ne_nil {field : List Char × List Char}
    {named : String × NameSelection} (h : FieldReadsAs field named)
    (more : List (List Char × List Char)) (post : List Char) :
    trim (' ' :: ([',', ' '].intercalate ((field :: more).map fieldText) ++ post)) ≠ [] := by
  cases h with
  | @mk name text _ hname _ =>
    obtain ⟨c, rest, rfl⟩ := List.exists_cons_of_ne_nil hname.nonempty
    -- The list begins with the first character of a name, which is not blank.
    have hblank : isBlank c = false := (Text.trim_eq_self_iff.1 hname.trimmed).1 c rfl
    have hmem : c ∈ [',', ' '].intercalate (((c :: rest, text) :: more).map fieldText) := by
      cases more <;> simp [fieldText, List.intercalate_cons_cons] <;> split <;> simp
    intro hnil
    have hall := Text.trim_eq_nil_iff.1 hnil c
      (List.mem_cons_of_mem _ (List.mem_append_left post hmem))
    exact absurd (hall.symm.trans hblank) (by decide)

/-- Rendered fields are read as the map of the fields. The order in which they stand does not
    matter; of several fields with one name the last counts. -/
theorem readsAs_renderFields {fields : List (List Char × List Char)}
    {named : List (String × NameSelection)} (h : List.Forall₂ FieldReadsAs fields named) :
    ReadsAs (renderFields fields) (.defined (Entries.ofList named)) := by
  cases h with
  | nil =>
    show ReadsAs ('\x7b' :: ([] ++ ['\x7d'])) .empty
    exact .block rfl rfl
  -- The list between the braces is not blank, so it is split and each part names its field.
  | @cons field p fields named hfirst hmore =>
    have hall : List.Forall₂ FieldReadsAs (field :: fields) (p :: named) := .cons hfirst hmore
    obtain ⟨parts, heq, hparts, hread⟩ := exists_parts hall (List.cons_ne_nil field fields)
    have hne : parts ≠ [] := by
      rintro rfl
      cases hread
    have hblank := trim_intercalate_ne_nil hfirst fields [' ']
    rw [renderFields_cons]
    rw [heq] at hblank ⊢
    refine .block (openAfter?_intercalate hparts) ?_
    rw [NameSelection.readBlock, if_neg (by simpa using hblank), NameSelection.parseList_eq,
      splitAtCommas_intercalate hne hparts, NameSelection.readParts, foldlM_addPart hread]
    exact congrArg Except.ok (foldl_set named (Entries.nil.insert p.1 p.2))

/-- What gives a selection to a field is also the expression of the selection as a whole. -/
theorem parseChars_of_readsAs {text : List Char} {s : NameSelection} (h : ReadsAs text s) :
    NameSelection.parseChars text = .ok s := by
  cases h with
  | nothing => rfl
  | @block inside s balanced read =>
    -- The text begins and ends with a brace, so there are no blanks to take away.
    have htrim : trim ('\x7b' :: (inside ++ ['\x7d'])) = '\x7b' :: (inside ++ ['\x7d']) := by
      refine Text.trim_eq_self_iff.2 ⟨?_, ?_⟩
      · intro c hc
        cases hc
        decide
      · intro c hc
        rw [← List.cons_append, List.getLast?_concat] at hc
        cases hc
        decide
    rw [NameSelection.parseChars]
    simp only [htrim, NameSelection.unwrap?, splitAtClosing?_append balanced []]
    exact read

/-! ## Selections by name -/

namespace NameSelection

mutual

/-- Whether an expression can spell all names of a selection, at every level. -/
def Spellable : NameSelection → Prop
  | undefined => True
  | defined fields => SpellableEach fields
termination_by structural s => s

/-- Whether an expression can spell all names of a map of selections, at every level. -/
def SpellableEach {bound : Option String} : Entries String NameSelection bound → Prop
  | .nil => True
  | .cons name child _ rest => IsName name.toList ∧ child.Spellable ∧ SpellableEach rest
termination_by structural es => es

end

mutual

/-- The canonical expression of a selection that can be spelt is read as the selection. -/
theorem readsAs_render : ∀ s : NameSelection, s.Spellable → ReadsAs s.render s
  | undefined, _ => .nothing
  | defined fields, h => by
    have hfields := readsAs_renderFields (forall₂_renderEach fields h)
    rwa [Entries.ofList_of_perm (List.Perm.refl _)] at hfields
termination_by structural s => s

/-- The fields of a map that can be spelt are rendered as what is read as its entries. -/
theorem forall₂_renderEach {bound : Option String} :
    ∀ es : Entries String NameSelection bound, SpellableEach es →
      List.Forall₂ FieldReadsAs (renderEach es) es.toList
  | .nil, _ => .nil
  | .cons name child above rest, ⟨hname, hchild, hrest⟩ => by
    have hfield := FieldReadsAs.mk hname (readsAs_render child hchild)
    rw [String.ofList_toList] at hfield
    exact .cons hfield (forall₂_renderEach rest hrest)
termination_by structural es => es

end

/-! ## The names that are read -/

/-- The names of a map can be spelt if each entry's can. -/
theorem spellableEach_iff {bound : Option String} {m : Entries String NameSelection bound} :
    SpellableEach m ↔
      ∀ name child, m.get? name = some child → IsName name.toList ∧ child.Spellable := by
  rw [← Entries.forall_mem_toList_iff]
  induction m with
  | nil => simp [SpellableEach]
  | cons name child above rest ih => simp [SpellableEach, ih, and_assoc]

/-- Naming one more field keeps all names spellable if its own names are. -/
theorem Spellable.set {s child : NameSelection} {name : String} (hs : s.Spellable)
    (hname : IsName name.toList) (hchild : child.Spellable) : (s.set name child).Spellable := by
  have hfields : SpellableEach s.fields := by
    cases s with
    | undefined => trivial
    | defined fields => exact hs
  refine spellableEach_iff.2 fun key c hget => ?_
  rw [Entries.get?_insert] at hget
  split at hget
  · rename_i hkey
    cases hget
    exact ⟨hkey ▸ hname, hchild⟩
  · exact spellableEach_iff.1 hfields key c hget

/-- Reading one part keeps all names spellable, if reading its block yields spellable names. -/
theorem spellable_of_addPart {s s' : NameSelection} {part : List Char}
    (hpart : partAfter? 0 part = some 0)
    (hblock : ∀ name block child, readPart part = .ok (.nested name block) →
      readBlock block = .ok child → child.Spellable)
    (hs : s.Spellable) (h : addPart s part = .ok s') : s'.Spellable := by
  -- By what the part was read as: an error, a blank part, a name, or a name with a block.
  rw [addPart] at h
  split at h
  · cases h
  · cases h
    exact hs
  · rename_i name hr
    cases h
    exact hs.set (by rw [String.toList_ofList]; exact .of_readPart_bare hpart hr) trivial
  · rename_i name block hr
    cases hc : readBlock block with
    | error e => rw [hc] at h; cases h
    | ok child =>
      rw [hc] at h
      cases h
      exact hs.set (by rw [String.toList_ofList]; exact .of_readPart_nested hpart hr)
        (hblock name block child hr hc)

/-- All names that are read from a list can be spelt, at every level. -/
theorem spellable_of_parseList {body : List Char} {s : NameSelection}
    (h : parseList body = .ok s) : s.Spellable := by
  -- Blocks are shorter than the list they stand in.
  induction hn : body.length using Nat.strong_induction_on generalizing body s with
  | _ n ih =>
    subst hn
    rw [parseList_eq] at h
    cases hs : splitAtCommas body with
    | error cause => rw [hs] at h; cases h
    | ok parts =>
      rw [hs] at h
      -- Every part names one more field, and its block is read from less text.
      refine foldlM_ok_induction (motive := Spellable) (s := undefined)
        (fun t part t' hp ht hadd => ?_) trivial h
      refine spellable_of_addPart (partAfter?_of_mem_splitAtCommas hs hp)
        (fun name block child hr hc => ?_) ht hadd
      rw [readBlock] at hc
      split at hc
      · cases hc
        trivial
      · have hlt := length_lt_of_readPart hr
        have hle := length_le_of_mem_splitAtCommas hs hp
        exact ih block.length (by omega) hc rfl

/-- All names of an expression can be spelt, at every level. -/
theorem spellable_of_parseChars {expr : List Char} {s : NameSelection}
    (h : parseChars expr = .ok s) : s.Spellable := by
  -- An expression is read as nothing, as a block of blanks, or as a list with or without braces.
  simp only [parseChars] at h
  split at h
  · cases h
    trivial
  · split at h
    · split at h
      · cases h
        trivial
      · exact spellable_of_parseList h
    · exact spellable_of_parseList h

/-! ## The round trip -/

/-- The canonical expression of a selection that can be spelt is parsed as the selection. -/
theorem parse_expr {s : NameSelection} (h : s.Spellable) : parse s.expr = .ok s := by
  rw [parse, expr, String.toList_ofList]
  exact parseChars_of_readsAs (readsAs_render s h)

/-- Rendering and parsing are inverse: a selection whose names can be spelt is parsed from its
    canonical expression; only such selections are parsed from any expression; and of the
    selections that are parsed, no two have one canonical expression. -/
theorem parse_expr_canonical :
    (∀ s : NameSelection, s.Spellable → parse s.expr = .ok s) ∧
    (∀ (e : String) (s : NameSelection), parse e = .ok s →
      s.Spellable ∧ parse s.expr = .ok s) ∧
    ∀ (e₁ e₂ : String) (s₁ s₂ : NameSelection), parse e₁ = .ok s₁ → parse e₂ = .ok s₂ →
      s₁.expr = s₂.expr → s₁ = s₂ := by
  have hparsed : ∀ (e : String) (s : NameSelection), parse e = .ok s →
      s.Spellable ∧ parse s.expr = .ok s := fun e s h =>
    have hs : s.Spellable := spellable_of_parseChars h
    ⟨hs, parse_expr hs⟩
  -- Two selections of one expression are both what that expression is read as.
  refine ⟨fun s => parse_expr, hparsed, fun e₁ e₂ s₁ s₂ h₁ h₂ heq => ?_⟩
  have hs₁ := (hparsed e₁ s₁ h₁).2
  rw [heq, (hparsed e₂ s₂ h₂).2] at hs₁
  exact (Except.ok.inj hs₁).symm

/-- A selection with a field taken in full, an empty one and one with blanks inside its name. -/
def sample : NameSelection :=
  (undefined.set (String.ofList ['b']) empty).set (String.ofList ['a', ' ', 'c'])
    (undefined.set (String.ofList ['d']) undefined)

/-- Its names can be spelt. -/
theorem spellable_sample : sample.Spellable := by
  have hd : (undefined.set (String.ofList ['d']) undefined).Spellable :=
    Spellable.set trivial (by rw [String.toList_ofList]; decide) trivial
  have hb : (undefined.set (String.ofList ['b']) empty).Spellable :=
    Spellable.set trivial (by rw [String.toList_ofList]; decide) trivial
  exact hb.set (by rw [String.toList_ofList]; decide) hd

/-- It is parsed from its canonical expression. -/
theorem parse_expr_canonical_sample :
    sample.Spellable ∧ parse sample.expr = .ok sample :=
  parse_expr_canonical.2.1 sample.expr sample (parse_expr_canonical.1 sample spellable_sample)

end NameSelection

end FieldMask
