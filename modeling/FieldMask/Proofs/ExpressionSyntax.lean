import FieldMask.Proofs.ExpressionRoundTrip

/-!
# The grammar of expressions

How an expression is spelt, as a tree that keeps every blank: a list of parts between commas, each
of which is blank, a name, or a name in front of a block that holds a list again. Blanks and names
carry the proof that they are such, so that every tree spells something. `text` is what a tree
spells and `meaning` the selection that it stands for.

The parser knows nothing of such trees: it counts braces, looks for commas outside of them and cuts
blocks out of parts. Still it reads exactly the texts that are spelt by a tree, as what the tree
means.

## Key results

- `PartSyntax.parseList_listText`: what a list of parts spells is read as what the parts mean
- `PartSyntax.exists_listText_eq`: a list that is read is spelt by parts
- `PartSyntax.AllAlike.fields_eq`: blanks, and blank parts beside others, mean nothing
- `ExprSyntax.parse_eq_ok_iff`: what the parser accepts, and as what
-/

namespace FieldMask

open Text (trim isBlank)

/-- Blanks around a piece of an expression. -/
abbrev Blanks : Type := {cs : List Char // ∀ c ∈ cs, isBlank c = true}

/-- The spelling of a name. -/
abbrev Spelling : Type := {cs : List Char // IsName cs}

/-- A part of a list as it is spelt. -/
inductive PartSyntax where
  | blank (spaces : Blanks)
  | bare (before : Blanks) (name : Spelling) (after : Blanks)
  /-- A name in front of a block. -/
  | nested (before : Blanks) (name : Spelling) (between : Blanks) (inside : List PartSyntax)
      (after : Blanks)

namespace PartSyntax

/-! ## What is spelt -/

/-- The text of a name in front of a block. -/
def blockText (before : Blanks) (name : Spelling) (between : Blanks) (block : List Char)
    (after : Blanks) : List Char :=
  before.val ++ ((name.val ++ between.val) ++ '\x7b' :: (block ++ '\x7d' :: after.val))

mutual

/-- What a part spells. -/
def text : PartSyntax → List Char
  | blank spaces => spaces.val
  | bare before name after => before.val ++ (name.val ++ after.val)
  | nested before name between inside after =>
    blockText before name between ([','].intercalate (texts inside)) after
termination_by structural p => p

/-- What each of some parts spells. -/
def texts : List PartSyntax → List (List Char)
  | [] => []
  | p :: rest => p.text :: texts rest
termination_by structural ps => ps

end

/-- What a list of parts spells, with commas between them. -/
def listText (parts : List PartSyntax) : List Char := [','].intercalate (texts parts)

/-! ## What is meant -/

/-- The selection that named parts stand for. Of several parts with one name the last counts; if
    none has a name, the selection is left open. -/
def selectionOf : List (String × NameSelection) → NameSelection
  | [] => .undefined
  | named => .defined (Entries.ofList named)

mutual

/-- The name and the selection that a part stands for, if it is not blank. A block of blanks is the
    empty selection. -/
def field? : PartSyntax → Option (String × NameSelection)
  | blank _ => none
  | bare _ name _ => some (String.ofList name.val, .undefined)
  | nested _ name _ inside _ =>
    some (String.ofList name.val,
      if (listText inside).all isBlank then .empty else selectionOf (fields inside))
termination_by structural p => p

/-- The names and the selections that parts stand for. -/
def fields : List PartSyntax → List (String × NameSelection)
  | [] => []
  | p :: rest => p.field?.toList ++ fields rest
termination_by structural ps => ps

end

/-- The selection that is meant by a block around a list. -/
def blockMeaning (parts : List PartSyntax) : NameSelection :=
  if (listText parts).all isBlank then .empty else selectionOf (fields parts)

/-- Some part of a list has a name. -/
def SomeNamed (parts : List PartSyntax) : Prop := ∃ p ∈ parts, p.field? ≠ none

/-! ## What is spelt is read -/

/-- A text is trimmed away if all of it is blank. -/
theorem trim_isEmpty (cs : List Char) : (trim cs).isEmpty = cs.all isBlank := by
  rw [Bool.eq_iff_iff, List.isEmpty_iff, Text.trim_eq_nil_iff, List.all_eq_true]

/-- Blanks are no braces. -/
theorem plain_of_blanks (b : Blanks) : ∀ c ∈ b.val, IsPlain c :=
  fun c hc => isPlain_of_isBlank (b.property c hc)

/-- The name in front of a block, with the blanks behind it, is plain. -/
theorem plain_front (name : Spelling) (between : Blanks) :
    ∀ c ∈ name.val ++ between.val, IsPlain c := by
  intro c hc
  rcases List.mem_append.1 hc with hc | hc
  · exact name.property.plain c hc
  · exact plain_of_blanks between c hc

mutual

/-- What a part spells may stand between commas. -/
theorem partAfter?_text : ∀ p : PartSyntax, partAfter? 0 p.text = some 0
  | blank spaces => partAfter?_of_plain (plain_of_blanks spaces) 0
  -- A bare part is plain from its front to its end.
  | bare before name after => by
    rw [text, partAfter?_append, partAfter?_of_plain (plain_of_blanks before) 0,
      Option.bind_some, partAfter?_append, partAfter?_of_plain name.property.plain 0,
      Option.bind_some, partAfter?_of_plain (plain_of_blanks after) 0]
  | nested before name between inside after => by
    -- The block opens one brace and closes it again; all around it is plain.
    have hinside := partAfter?_succ (openAfter?_intercalate (partAfter?_of_mem_texts inside))
    have hbefore := partAfter?_of_plain (plain_of_blanks before) 0
    have hfront := partAfter?_of_plain (plain_front name between) 0
    have hafter := partAfter?_of_plain (plain_of_blanks after) 0
    rw [text, blockText, partAfter?_append, hbefore, Option.bind_some, partAfter?_append, hfront,
      Option.bind_some, partAfter?_cons]
    show (partAfter? 1 _) = some 0
    rw [partAfter?_append, hinside, Option.bind_some]
    exact hafter
termination_by structural p => p

/-- What the parts of a list spell may stand between commas. -/
theorem partAfter?_of_mem_texts :
    ∀ ps : List PartSyntax, ∀ t ∈ texts ps, partAfter? 0 t = some 0
  | [], t, ht => absurd ht List.not_mem_nil
  | p :: rest, t, ht => by
    rcases List.mem_cons.1 ht with rfl | ht
    · exact partAfter?_text p
    · exact partAfter?_of_mem_texts rest t ht
termination_by structural ps => ps

end

/-- A list closes all braces that it opens, and none else. So the brace in front of a block is
    closed by the one behind it. -/
theorem openAfter?_listText (parts : List PartSyntax) : openAfter? 0 (listText parts) = some 0 :=
  openAfter?_intercalate (partAfter?_of_mem_texts parts)

/-- The first brace of a part has something in front of it. -/
theorem head?_text (p : PartSyntax) : p.text.head? ≠ some '\x7b' := by
  -- A part begins with plain characters, if with any.
  have hplain : ∀ front behind : List Char, (∀ c ∈ front, IsPlain c) → front ≠ [] →
      (front ++ behind).head? ≠ some '\x7b' := by
    intro front behind hfront hne hhead
    obtain ⟨c, more, rfl⟩ := List.exists_cons_of_ne_nil hne
    exact (hfront c List.mem_cons_self).1 (Option.some.inj hhead)
  cases p with
  | blank spaces =>
    intro hhead
    exact (plain_of_blanks spaces _ (List.mem_of_mem_head? hhead)).1 rfl
  | bare before name after =>
    rw [text, ← List.append_assoc]
    refine hplain _ _ (fun c hc => ?_) (by simp [name.property.nonempty])
    exact (List.mem_append.1 hc).elim (plain_of_blanks before c) (name.property.plain c)
  | nested before name between inside after =>
    rw [text, blockText, ← List.append_assoc]
    refine hplain _ _ (fun c hc => ?_) (by simp [name.property.nonempty])
    exact (List.mem_append.1 hc).elim (plain_of_blanks before c) (plain_front name between c)

/-- A list does not begin with a brace. -/
theorem head?_listText (parts : List PartSyntax) : (listText parts).head? ≠ some '\x7b' := by
  -- The first part is in front of the list, unless it is empty; then it is a comma.
  match parts with
  | [] => nofun
  | [p] =>
    rw [listText, texts, texts, List.intercalate_singleton]
    exact p.head?_text
  | p :: q :: rest =>
    rw [listText, texts, texts, List.intercalate_cons_cons, List.append_assoc, List.head?_append]
    have hfirst := p.head?_text
    cases hp : p.text.head? with
    | none => nofun
    | some c =>
      rw [hp] at hfirst
      exact hfirst

/-- Trimming a part takes the blanks around it away. -/
theorem trim_text_bare (before : Blanks) (name : Spelling) (after : Blanks) :
    trim (bare before name after).text = name.val := by
  rw [text, Text.trim_append_left before.property, Text.trim_append_right after.property,
    name.property.trimmed]

/-- Trimming a part with a block takes the blanks around it away, and leaves those inside. -/
theorem trim_blockText (before : Blanks) (name : Spelling) (between : Blanks)
    (block : List Char) (after : Blanks) :
    trim (blockText before name between block after) =
      (name.val ++ between.val) ++ '\x7b' :: (block ++ ['\x7d']) := by
  have hjoin : (name.val ++ between.val) ++ '\x7b' :: (block ++ '\x7d' :: after.val) =
      ((name.val ++ between.val) ++ '\x7b' :: (block ++ ['\x7d'])) ++ after.val := by
    simp
  rw [blockText, Text.trim_append_left before.property, hjoin,
    Text.trim_append_right after.property]
  refine Text.trim_eq_self_iff.2 ⟨fun c hc => ?_, fun c hc => ?_⟩
  · -- The first character is that of the name.
    refine (Text.trim_eq_self_iff.1 name.property.trimmed).1 c ?_
    obtain ⟨d, rest, hname⟩ := List.exists_cons_of_ne_nil name.property.nonempty
    rw [hname] at hc ⊢
    exact hc
  -- The last character is the brace that closes the block.
  · rw [← List.cons_append, ← List.append_assoc, List.getLast?_concat] at hc
    cases hc
    decide

/-- A name in front of a block is read with what is read in the block. -/
theorem addPart_blockText (before : Blanks) (name : Spelling) (between : Blanks)
    {block : List Char} (hblock : openAfter? 0 block = some 0) (after : Blanks)
    (s : NameSelection) :
    NameSelection.addPart s (blockText before name between block after) =
      (within (String.ofList name.val) (NameSelection.readBlock block)).map
        (s.set (String.ofList name.val)) := by
  -- The name has no brace in it, so the first one is that of the block.
  have htrim := trim_blockText before name between block after
  have hopen : '\x7b' ∉ name.val ++ between.val :=
    fun hmem => (plain_front name between _ hmem).1 rfl
  have hname : trim (name.val ++ between.val) = name.val := by
    rw [Text.trim_append_right between.property, name.property.trimmed]
  have hne : ¬ name.val.isEmpty = true := by simpa using name.property.nonempty
  rw [NameSelection.addPart, readPart_of_block hopen hblock htrim, hname, if_neg hne]
  show (within (String.ofList name.val) (NameSelection.readBlock block) >>= _) = _
  cases NameSelection.readBlock block <;> rfl

/-- Parts that are read one after the other make up the selection that they stand for. -/
theorem parseList_of_foldlM {parts : List PartSyntax}
    (h : ∀ s : NameSelection, (texts parts).foldlM NameSelection.addPart s =
      .ok ((fields parts).foldl (fun s f => s.set f.1 f.2) s)) :
    NameSelection.parseList (listText parts) = .ok (selectionOf (fields parts)) := by
  -- A list of no parts spells the same as one of a single blank part.
  have hsplit : NameSelection.readParts (splitAtCommas (listText parts)) =
      (texts parts).foldlM NameSelection.addPart .undefined := by
    cases parts with
    | nil => rfl
    | cons p rest =>
      have hne : texts (p :: rest) ≠ [] := List.cons_ne_nil p.text (texts rest)
      rw [listText, splitAtCommas_intercalate hne (partAfter?_of_mem_texts (p :: rest))]
      rfl
  rw [NameSelection.parseList_eq, hsplit, h]
  cases hfields : fields parts with
  | nil => rfl
  | cons f more =>
    exact congrArg Except.ok (foldl_set more (Entries.nil.insert f.1 f.2))

mutual

/-- What a part spells is read as what the part stands for. -/
theorem addPart_text : ∀ (p : PartSyntax) (s : NameSelection),
    NameSelection.addPart s p.text = .ok (p.field?.toList.foldl (fun s f => s.set f.1 f.2) s)
  | blank spaces, s => by
    have hblank : trim (blank spaces).text = [] := Text.trim_eq_nil_iff.2 spaces.property
    rw [NameSelection.addPart, readPart_blank hblank]
    rfl
  | bare before name after, s => by
    have htrim := trim_text_bare before name after
    have hopen : '\x7b' ∉ name.val := fun hmem => (name.property.plain _ hmem).1 rfl
    rw [NameSelection.addPart, readPart_bare (htrim ▸ name.property.nonempty) (htrim ▸ hopen),
      htrim]
    rfl
  | nested before name between inside after, s => by
    -- The block is read by the hypothesis for the list inside, and is `.empty` if that is blank.
    have hblock : NameSelection.readBlock (listText inside) = .ok (blockMeaning inside) := by
      rw [NameSelection.readBlock, blockMeaning, trim_isEmpty,
        parseList_of_foldlM (foldlM_texts inside)]
      split <;> rfl
    rw [text, ← listText, addPart_blockText before name between (openAfter?_listText inside),
      hblock]
    rfl
termination_by structural p => p

/-- The parts of a list are read as the fields they stand for, one after the other. -/
theorem foldlM_texts : ∀ (ps : List PartSyntax) (s : NameSelection),
    (texts ps).foldlM NameSelection.addPart s =
      .ok ((fields ps).foldl (fun s f => s.set f.1 f.2) s)
  | [], _ => rfl
  | p :: rest, s => by
    rw [texts, List.foldlM_cons, addPart_text p s, fields, List.foldl_append]
    exact foldlM_texts rest _
termination_by structural ps => ps

end

/-- What a list of parts spells is read as what the parts mean. -/
theorem parseList_listText (parts : List PartSyntax) :
    NameSelection.parseList (listText parts) = .ok (selectionOf (fields parts)) :=
  parseList_of_foldlM (foldlM_texts parts)

/-! ## What is read is spelt -/

/-- A part with a name in front of its first block and nothing behind it, blanks apart. -/
theorem exists_eq_blockText {part front block after : List Char}
    (h : trim part = front ++ '\x7b' :: (block ++ '\x7d' :: after))
    (hplain : ∀ c ∈ front, IsPlain c) (hname : trim front ≠ []) (hafter : trim after = []) :
    ∃ before between behind, ∃ name : Spelling,
      part = blockText before name between block behind ∧ name.val = trim front := by
  obtain ⟨pre, post, hjoin, hpre, hpost⟩ := Text.exists_eq_append_trim part
  -- The name has the blanks around the whole part in front, and blanks of its own around.
  obtain ⟨pre', post', hfront, hpre', hpost'⟩ := Text.exists_eq_append_trim front
  have hbefore : ∀ c ∈ pre ++ pre', isBlank c = true := by
    intro c hc
    exact (List.mem_append.1 hc).elim (hpre c) (hpre' c)
  have hbehind : ∀ c ∈ after ++ post, isBlank c = true := by
    intro c hc
    exact (List.mem_append.1 hc).elim (Text.trim_eq_nil_iff.1 hafter c) (hpost c)
  refine ⟨⟨pre ++ pre', hbefore⟩, ⟨post', hpost'⟩, ⟨after ++ post, hbehind⟩,
    ⟨trim front, isName_trim hplain hname⟩, ?_, rfl⟩
  rw [hjoin, h]
  conv_lhs => rw [hfront]
  simp [blockText]

/-- A balanced part that is read without an error is spelt, if what is inside its block is. -/
theorem exists_text_eq {part : List Char} {p : Part} (hpart : partAfter? 0 part = some 0)
    (h : readPart part = .ok p)
    (hblock : ∀ name block, p = .nested name block → ∃ inside, listText inside = block) :
    ∃ x : PartSyntax, x.text = part := by
  -- By the form of the part: blanks, a bare name, or a name in front of a block.
  obtain hnil | ⟨hne, hopen⟩ | ⟨front, block, after, heq, hplain, hbalanced⟩ := part_cases hpart
  · exact ⟨blank ⟨part, Text.trim_eq_nil_iff.1 hnil⟩, rfl⟩
  · have hname : IsName (trim part) :=
      ⟨hne, Text.trim_trim part, isPlain_of_partAfter? (partAfter?_trim hpart) hopen⟩
    obtain ⟨pre, post, hjoin, hpre, hpost⟩ := Text.exists_eq_append_trim part
    refine ⟨bare ⟨pre, hpre⟩ ⟨trim part, hname⟩ ⟨post, hpost⟩, ?_⟩
    rw [text, ← List.append_assoc]
    exact hjoin.symm
  · rw [readPart_of_block (fun hmem => (hplain _ hmem).1 rfl) hbalanced heq] at h
    split at h
    · cases h
    · rename_i hname
      split at h
      · rename_i hafter
        cases h
        rw [List.isEmpty_iff] at hname hafter
        obtain ⟨inside, rfl⟩ := hblock _ _ rfl
        obtain ⟨before, between, behind, name, rfl, -⟩ :=
          exists_eq_blockText heq hplain hname hafter
        exact ⟨nested before name between inside behind, rfl⟩
      · cases h

/-- Texts that are spelt one by one are spelt together. -/
theorem exists_texts_eq {parts : List (List Char)}
    (h : ∀ part ∈ parts, ∃ x : PartSyntax, x.text = part) : ∃ xs, texts xs = parts := by
  induction parts with
  | nil => exact ⟨[], rfl⟩
  | cons part rest ih =>
    obtain ⟨x, hx⟩ := h part List.mem_cons_self
    obtain ⟨xs, hxs⟩ := ih fun p hp => h p (List.mem_cons_of_mem part hp)
    exact ⟨x :: xs, by rw [texts, hx, hxs]⟩

/-- Each part of a list that is read has been read without an error. -/
theorem exists_addPart_eq_ok {parts : List (List Char)} {part : List Char} {s t : NameSelection}
    (hp : part ∈ parts) (h : parts.foldlM NameSelection.addPart s = .ok t) :
    ∃ s' t', NameSelection.addPart s' part = .ok t' := by
  induction parts generalizing s with
  | nil => exact absurd hp List.not_mem_nil
  | cons first rest ih =>
    rw [List.foldlM_cons] at h
    obtain ⟨s', hfirst, hrest⟩ := bind_eq_ok_iff.1 h
    rcases List.mem_cons.1 hp with rfl | hp
    · exact ⟨s, s', hfirst⟩
    · exact ih hp hrest

/-- A part of a list that is read without an error is spelt, if all blocks that are read are. -/
theorem exists_text_eq_of_addPart {part : List Char} {s t : NameSelection}
    (hpart : partAfter? 0 part = some 0) (h : NameSelection.addPart s part = .ok t)
    (hblock : ∀ name block child, readPart part = .ok (.nested name block) →
      NameSelection.parseList block = .ok child → ∃ inside, listText inside = block) :
    ∃ x : PartSyntax, x.text = part := by
  rw [NameSelection.addPart] at h
  split at h
  · cases h
  · rename_i hr
    exact exists_text_eq hpart hr (by intros; contradiction)
  · rename_i hr
    exact exists_text_eq hpart hr (by intros; contradiction)
  · rename_i name block hr
    refine exists_text_eq hpart hr fun name' block' heq => ?_
    cases heq
    obtain ⟨child, hchild, -⟩ := bind_eq_ok_iff.1 h
    rw [within_eq_ok_iff, NameSelection.readBlock] at hchild
    split at hchild
    · rename_i hblank
      have hall := Text.trim_eq_nil_iff.1 (List.isEmpty_iff.1 hblank)
      exact ⟨[blank ⟨block, hall⟩], List.intercalate_singleton⟩
    · exact hblock name block child hr hchild

/-- A list that is read is spelt by parts. -/
theorem exists_listText_eq {body : List Char} {s : NameSelection}
    (h : NameSelection.parseList body = .ok s) : ∃ parts, listText parts = body := by
  -- Blocks are shorter than the list they stand in.
  induction hn : body.length using Nat.strong_induction_on generalizing body s with
  | _ n ih =>
    subst hn
    rw [NameSelection.parseList_eq] at h
    cases hs : splitAtCommas body with
    | error cause => rw [hs] at h; cases h
    | ok parts =>
      rw [hs] at h
      -- Each part was read on its own, and its block is shorter than the list.
      have hspelt : ∀ part ∈ parts, ∃ x : PartSyntax, x.text = part := by
        intro part hp
        obtain ⟨t, t', hadd⟩ := exists_addPart_eq_ok hp h
        refine exists_text_eq_of_addPart (partAfter?_of_mem_splitAtCommas hs hp) hadd
          fun name block child hr hchild => ?_
        have hlt := length_lt_of_readPart hr
        have hle := length_le_of_mem_splitAtCommas hs hp
        exact ih block.length (by omega) hchild rfl
      obtain ⟨xs, hxs⟩ := exists_texts_eq hspelt
      exact ⟨xs, by rw [listText, hxs, intercalate_of_splitAtCommas hs]⟩

/-! ## What does not matter -/

/-- Two lists spell the same but for the blanks around parts, names and blocks, and but for blank
    parts that the second one has in addition, at any depth, beside parts with a name. -/
inductive AllAlike : List PartSyntax → List PartSyntax → Prop where
  | nil : AllAlike [] []
  | blank (spaces spaces' : Blanks) {ps qs : List PartSyntax} (rest : AllAlike ps qs) :
      AllAlike (blank spaces :: ps) (blank spaces' :: qs)
  | bare (before before' : Blanks) (name : Spelling) (after after' : Blanks)
      {ps qs : List PartSyntax} (rest : AllAlike ps qs) :
      AllAlike (bare before name after :: ps) (bare before' name after' :: qs)
  | nested (before before' : Blanks) (name : Spelling) (between between' after after' : Blanks)
      {inside inside' ps qs : List PartSyntax} (block : AllAlike inside inside')
      (rest : AllAlike ps qs) :
      AllAlike (nested before name between inside after :: ps)
        (nested before' name between' inside' after' :: qs)
  | blankPart {ps qs : List PartSyntax} (spaces : Blanks) (named : SomeNamed (ps ++ qs)) :
      AllAlike (ps ++ qs) (ps ++ PartSyntax.blank spaces :: qs)
  | trans {ps qs rs : List PartSyntax} (first : AllAlike ps qs) (second : AllAlike qs rs) :
      AllAlike ps rs

@[simp] theorem fields_cons (p : PartSyntax) (rest : List PartSyntax) :
    fields (p :: rest) = p.field?.toList ++ fields rest := rfl

/-- Lists of parts stand one behind the other for what each of them stands for. -/
theorem fields_append (ps qs : List PartSyntax) : fields (ps ++ qs) = fields ps ++ fields qs := by
  induction ps with
  | nil => rfl
  | cons p rest ih => rw [List.cons_append, fields_cons, ih, fields_cons, List.append_assoc]

/-- Parts stand for something if some of them has a name. -/
theorem fields_eq_nil_iff {parts : List PartSyntax} : fields parts = [] ↔ ¬ SomeNamed parts := by
  simp only [SomeNamed, not_exists, not_and, not_not]
  induction parts with
  | nil => simp [fields]
  | cons p rest ih =>
    rw [fields_cons, List.append_eq_nil_iff, ih, List.forall_mem_cons]
    cases p.field? <;> simp

/-- What a list spells is blank if it has no part but a blank one. -/
theorem all_isBlank_listText {parts : List PartSyntax} :
    (listText parts).all isBlank = true ↔ parts.length ≤ 1 ∧ fields parts = [] := by
  -- A list of two parts or more has a comma in it, so only a single part may be blank.
  match parts with
  | [] => simp [listText, texts, fields]
  | p :: q :: rest =>
    -- There is a comma.
    have hmem : ',' ∈ listText (p :: q :: rest) := by
      rw [listText, texts, texts, List.intercalate_cons_cons]
      simp
    constructor
    · intro h
      exact absurd (List.all_eq_true.1 h _ hmem) (by decide)
    · rintro ⟨hlen, -⟩
      simp at hlen
  | [p] =>
    have hone : listText [p] = p.text := List.intercalate_singleton
    -- A name is not blank.
    have hname : ∀ (name : Spelling) (pre post : List Char),
        ¬ (pre ++ (name.val ++ post)).all isBlank = true := by
      intro name pre post h
      have hall : ∀ c ∈ name.val, isBlank c = true := fun c hc =>
        List.all_eq_true.1 h c (by simp [hc])
      exact name.property.nonempty
        (name.property.trimmed.symm.trans (Text.trim_eq_nil_iff.2 hall))
    rw [hone]
    cases p with
    | blank spaces =>
      have hall : (blank spaces).text.all isBlank = true := List.all_eq_true.2 spaces.property
      simp only [hall, true_iff]
      exact ⟨Nat.le_refl 1, rfl⟩
    | bare before name after =>
      constructor
      · intro h
        exact absurd h (hname name before.val after.val)
      · rintro ⟨-, h⟩
        cases h
    | nested before name between inside after =>
      constructor
      · intro h
        rw [text, blockText, List.append_assoc] at h
        exact absurd h (hname name before.val _)
      · rintro ⟨-, h⟩
        cases h

/-- Whether a list spells blanks only depends on what it stands for, and on the number of its parts
    if that is nothing. -/
theorem all_isBlank_congr {ps qs : List PartSyntax} (hfields : fields ps = fields qs)
    (hlen : fields ps = [] → ps.length = qs.length) :
    (listText ps).all isBlank = (listText qs).all isBlank := by
  rw [Bool.eq_iff_iff, all_isBlank_listText, all_isBlank_listText, ← hfields]
  constructor
  · rintro ⟨hone, hnil⟩
    exact ⟨hlen hnil ▸ hone, hnil⟩
  · rintro ⟨hone, hnil⟩
    exact ⟨hlen hnil ▸ hone, hnil⟩

/-- Lists that spell the same but for blanks stand for the same, and a list without any name has
    not been given more parts. -/
theorem AllAlike.fields_eq {ps qs : List PartSyntax} (h : AllAlike ps qs) :
    fields ps = fields qs ∧ (fields ps = [] → ps.length = qs.length) := by
  -- A block may only lose its meaning if it becomes blank, which `all_isBlank_congr` rules out.
  induction h with
  | nil => exact ⟨rfl, fun _ => rfl⟩
  | blank spaces spaces' _ ih =>
    refine ⟨ih.1, fun hnil => ?_⟩
    rw [List.length_cons, List.length_cons, ih.2 hnil]
  | bare before before' name after after' _ ih =>
    refine ⟨?_, fun hnil => ?_⟩
    · rw [fields_cons, fields_cons, ih.1]
      rfl
    · cases hnil
  | nested before before' name between between' after after' _ _ ihblock ih =>
    refine ⟨?_, fun hnil => ?_⟩
    · rw [fields_cons, fields_cons, ih.1, field?, field?, all_isBlank_congr ihblock.1 ihblock.2,
        ihblock.1]
    · cases hnil
  -- A blank part stands for no field, and it is beside a name.
  | @blankPart ps qs spaces named =>
    refine ⟨?_, fun hnil => absurd named (fields_eq_nil_iff.1 hnil)⟩
    rw [fields_append, fields_append]
    rfl
  | trans _ _ ih₁ ih₂ =>
    exact ⟨ih₁.1.trans ih₂.1, fun hnil => (ih₁.2 hnil).trans (ih₂.2 (ih₁.1 ▸ hnil))⟩

end PartSyntax

/-! ## Whole expressions -/

/-- An expression as it is spelt: a list, or one block around a list. A list without parts is the
    text of no characters. -/
inductive ExprSyntax where
  | list (parts : List PartSyntax)
  | block (parts : List PartSyntax)

namespace ExprSyntax

open PartSyntax (listText fields selectionOf blockMeaning AllAlike SomeNamed)

/-- What an expression spells. -/
def text : ExprSyntax → List Char
  | list parts => listText parts
  | block parts => '\x7b' :: (listText parts ++ ['\x7d'])

/-- The selection that an expression stands for. -/
def meaning : ExprSyntax → NameSelection
  | list parts => selectionOf (fields parts)
  | block parts => blockMeaning parts

/-- Two expressions spell the same but for blanks and blank parts, and but for a pair of braces
    around the whole of a list with a named part. -/
inductive Alike : ExprSyntax → ExprSyntax → Prop where
  | list {ps qs : List PartSyntax} (parts : AllAlike ps qs) : Alike (list ps) (list qs)
  | block {ps qs : List PartSyntax} (parts : AllAlike ps qs) : Alike (block ps) (block qs)
  | braces {ps : List PartSyntax} (named : SomeNamed ps) : Alike (.list ps) (.block ps)
  | trans {x y z : ExprSyntax} (first : Alike x y) (second : Alike y z) : Alike x z

/-- Expressions that are alike mean the same. -/
theorem Alike.meaning_eq {x y : ExprSyntax} (h : Alike x y) : x.meaning = y.meaning := by
  induction h with
  | list parts =>
    rw [meaning, meaning, parts.fields_eq.1]
  | block parts =>
    rw [meaning, meaning, blockMeaning, blockMeaning, parts.fields_eq.1,
      PartSyntax.all_isBlank_congr parts.fields_eq.1 parts.fields_eq.2]
  | @braces ps named =>
    -- A block with a name in it is not blank.
    have hblank : ¬ (listText ps).all isBlank = true := fun hall =>
      PartSyntax.fields_eq_nil_iff.1 (PartSyntax.all_isBlank_listText.1 hall).2 named
    rw [meaning, meaning, blockMeaning, if_neg hblank]
  | trans _ _ ih₁ ih₂ => exact ih₁.trans ih₂

/-- A list is not in braces. -/
theorem unwrap?_listText (parts : List PartSyntax) :
    NameSelection.unwrap? (listText parts) = none := by
  cases hu : NameSelection.unwrap? (listText parts) with
  | none => rfl
  | some inside =>
    have hhead := PartSyntax.head?_listText parts
    rw [(NameSelection.unwrap?_eq_some_iff.1 hu).1] at hhead
    exact absurd rfl hhead

/-- What an expression spells is read as what it means. -/
theorem parseChars_of_text_eq {x : ExprSyntax} {cs : List Char} (h : x.text = trim cs) :
    NameSelection.parseChars cs = .ok x.meaning := by
  -- With no characters there is nothing to unwrap; a list is in no braces, and a block is.
  rw [NameSelection.parseChars, ← h]
  cases x with
  | list parts =>
    have hread := PartSyntax.parseList_listText parts
    by_cases hnil : (listText parts).isEmpty = true
    · -- No characters are spelt by parts without a name.
      rw [List.isEmpty_iff] at hnil
      rw [hnil, NameSelection.parseList_eq] at hread
      simp only [text, hnil]
      exact hread
    · simp only [text, if_neg hnil, unwrap?_listText]
      exact hread
  | block parts =>
    have hclosed := splitAtClosing?_append (PartSyntax.openAfter?_listText parts) []
    simp only [text, List.isEmpty_cons, Bool.false_eq_true, if_false, NameSelection.unwrap?,
      hclosed, PartSyntax.trim_isEmpty, PartSyntax.parseList_listText, meaning, blockMeaning]
    split <;> rfl

/-- An expression that is read is spelt. -/
theorem exists_text_eq_trim {cs : List Char} {s : NameSelection}
    (h : NameSelection.parseChars cs = .ok s) : ∃ x : ExprSyntax, x.text = trim cs := by
  -- By what the reader distinguishes: no characters, braces around blanks, a block and a list.
  simp only [NameSelection.parseChars] at h
  split at h
  · rename_i hnil
    exact ⟨.list [], (List.isEmpty_iff.1 hnil).symm⟩
  · split at h
    · rename_i inside hunwrap
      obtain ⟨htrim, -⟩ := NameSelection.unwrap?_eq_some_iff.1 hunwrap
      split at h
      · rename_i hblank
        have hall := Text.trim_eq_nil_iff.1 (List.isEmpty_iff.1 hblank)
        have hone : listText [.blank ⟨inside, hall⟩] = inside := List.intercalate_singleton
        exact ⟨.block [.blank ⟨inside, hall⟩], by rw [text, hone, htrim]⟩
      · obtain ⟨parts, hparts⟩ := PartSyntax.exists_listText_eq h
        exact ⟨.block parts, by rw [text, hparts, htrim]⟩
    · obtain ⟨parts, hparts⟩ := PartSyntax.exists_listText_eq h
      exact ⟨.list parts, hparts⟩

/-- The parser accepts exactly the expressions that are spelt by the grammar, and reads them as what
    they mean. In a block that is spelt, the first brace is closed by the last one. Blanks around
    parts, names and blocks, blank parts beside ones with a name, and braces around a whole list
    with a name do not change what is read. -/
theorem parse_eq_ok_iff :
    (∀ (e : String) (s : NameSelection), NameSelection.parse e = .ok s ↔
      ∃ x : ExprSyntax, x.text = trim e.toList ∧ x.meaning = s) ∧
    (∀ parts : List PartSyntax, openAfter? 0 (listText parts) = some 0) ∧
    ∀ x y : ExprSyntax, Alike x y → ∀ e e' : String, x.text = trim e.toList →
      y.text = trim e'.toList → NameSelection.parse e = NameSelection.parse e' := by
  -- Both directions are the two round trips between what is spelt and what is read.
  refine ⟨fun e s => ⟨fun h => ?_, ?_⟩, PartSyntax.openAfter?_listText, ?_⟩
  · obtain ⟨x, hx⟩ := exists_text_eq_trim h
    have hread := parseChars_of_text_eq hx
    rw [NameSelection.parse, hread] at h
    exact ⟨x, hx, Except.ok.inj h⟩
  · rintro ⟨x, hx, rfl⟩
    exact parseChars_of_text_eq hx
  · intro x y halike e e' hx hy
    rw [NameSelection.parse, NameSelection.parse, parseChars_of_text_eq hx,
      parseChars_of_text_eq hy, halike.meaning_eq]

/-! ## One selection, spelt in two ways -/

/-- No blanks. -/
def unspaced : Blanks := ⟨[], List.forall_mem_nil _⟩

/-- A single space. -/
def space : Blanks := ⟨[' '], List.forall_mem_singleton.2 rfl⟩

/-- A field with one field selected in it, spelt without blanks. -/
def tight : ExprSyntax :=
  list [.nested unspaced ⟨['a'], by decide⟩ unspaced [.bare unspaced ⟨['b'], by decide⟩ unspaced]
    unspaced]

/-- The same with blanks, a blank part and braces around. -/
def loose : ExprSyntax :=
  block [.nested space ⟨['a'], by decide⟩ space [.bare space ⟨['b'], by decide⟩ space] unspaced,
    .blank space]

/-- They differ by blanks, by braces around, and by a blank part beside the field. -/
theorem alike_tight_loose : Alike tight loose := by
  have hinside : AllAlike [.bare unspaced ⟨['b'], by decide⟩ unspaced]
      [.bare space ⟨['b'], by decide⟩ space] := .bare unspaced space _ unspaced space .nil
  let part : PartSyntax :=
    .nested space ⟨['a'], by decide⟩ space [.bare space ⟨['b'], by decide⟩ space] unspaced
  have hnamed : SomeNamed [part] := ⟨part, List.mem_singleton.2 rfl, nofun⟩
  refine .trans (.list (.nested unspaced space _ unspaced space unspaced unspaced hinside .nil)) ?_
  refine .trans (.braces hnamed) (.block ?_)
  exact @AllAlike.blankPart [part] [] space hnamed

/-- Both are read as one selection. -/
theorem parse_eq_ok_iff_tight_loose :
    NameSelection.parse (String.ofList tight.text) =
      NameSelection.parse (String.ofList loose.text) := by
  refine parse_eq_ok_iff.2.2 tight loose alike_tight_loose _ _ ?_ ?_
  · rw [String.toList_ofList]
    rfl
  · rw [String.toList_ofList]
    rfl

end ExprSyntax

end FieldMask
