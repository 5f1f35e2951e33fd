import FieldMask.Proofs.ExpressionSyntax

/-!
# The errors of expressions

An expression that is not read has an error that tells where. Braces that do not match are found
first, in the expression as a whole: one that closes nothing, or else one that stays open. If all of
them match, what is left to go wrong is a single part, and the error is that of the first part that
is at fault: earlier parts come before later ones, and a part before those in its block.

## Key results

- `parseList_of_firstFault`: a list with a part at fault is not read
- `firstFault_of_parseList`: if a balanced list is not read, the error is that of the first fault
- `NameSelection.parse_eq_error`: all errors of expressions, and where they are found
-/

namespace FieldMask

open Text (trim trimmed isBlank)
open PartSyntax (blockText)
open ExprSyntax (unspaced)

/-! ## Faults -/

/-- What is wrong with a part by itself, given without the blanks around it: there is no name in
    front of its first brace, or there is more behind its first block. -/
inductive Faulty (part : List Char) : Cause → Prop where
  | noName {front behind : List Char} (spelt : part = front ++ '\x7b' :: behind)
      (first : '\x7b' ∉ front) (blank : ∀ c ∈ front, isBlank c = true) :
      Faulty part (.missingFieldName (String.ofList part))
  | moreBehind {front block after : List Char}
      (spelt : part = front ++ '\x7b' :: (block ++ '\x7d' :: after)) (first : '\x7b' ∉ front)
      (named : ¬ ∀ c ∈ front, isBlank c = true) (closed : openAfter? 0 block = some 0)
      (more : ¬ ∀ c ∈ after, isBlank c = true) :
      Faulty part (.moreThanOneSpace (String.ofList part))

/-- The error that a list is first at fault with: it arises at a part by itself, or inside the block
    of a part that is in order by itself. There is nothing wrong with the parts before that one. The
    path of the error holds the names of the blocks around, outermost first. -/
inductive FirstFault : List Char → Error → Prop where
  | own {before after : List (List Char)} {part : List Char} {cause : Cause}
      (parts : ∀ p ∈ before ++ part :: after, partAfter? 0 p = some 0)
      (sound : ∀ p ∈ before, ∃ x : PartSyntax, x.text = p)
      (fault : Faulty (trim part) cause) :
      FirstFault ([','].intercalate (before ++ part :: after)) (.of cause)
  | inside {before after : List (List Char)} {pre between post : Blanks} {name : Spelling}
      {block : List Char} {e : Error}
      (parts : ∀ p ∈ before ++ blockText pre name between block post :: after,
        partAfter? 0 p = some 0)
      (sound : ∀ p ∈ before, ∃ x : PartSyntax, x.text = p) (fault : FirstFault block e) :
      FirstFault ([','].intercalate (before ++ blockText pre name between block post :: after))
        (e.under (String.ofList name.val))

/-- A fault is a missing name, or text behind a block. -/
theorem FirstFault.cause_eq {body : List Char} {e : Error} (h : FirstFault body e) :
    ∃ part, e.cause = .missingFieldName part ∨ e.cause = .moreThanOneSpace part := by
  induction h with
  | own parts sound fault =>
    cases fault with
    | noName => exact ⟨_, .inl rfl⟩
    | moreBehind => exact ⟨_, .inr rfl⟩
  | inside parts sound fault ih => exact ih

/-- A list with a fault is balanced. -/
theorem FirstFault.balanced {body : List Char} {e : Error} (h : FirstFault body e) :
    openAfter? 0 body = some 0 := by
  cases h with
  | own parts _ _ => exact openAfter?_intercalate parts
  | inside parts _ _ => exact openAfter?_intercalate parts

/-! ## A fault is an error -/

/-- A part that is at fault by itself is not read. -/
theorem readPart_of_faulty {part : List Char} {cause : Cause} (h : Faulty (trim part) cause) :
    readPart part = .error cause := by
  cases h with
  | noName spelt first blank =>
    exact readPart_of_noName first (Text.trim_eq_nil_iff.2 blank) spelt
  | moreBehind spelt first named closed more =>
    rw [← Text.trim_eq_nil_iff, ← List.isEmpty_iff] at named more
    rw [readPart_of_block first closed spelt, if_neg named, if_neg more]

/-- Reading a list fails at a part that cannot be read, if those before it are in order. -/
theorem parseList_of_addPart {before after : List (List Char)} {part : List Char} {e : Error}
    (hparts : ∀ p ∈ before ++ part :: after, partAfter? 0 p = some 0)
    (hsound : ∀ p ∈ before, ∃ x : PartSyntax, x.text = p)
    (h : ∀ s, NameSelection.addPart s part = .error e) :
    NameSelection.parseList ([','].intercalate (before ++ part :: after)) = .error e := by
  obtain ⟨xs, rfl⟩ := PartSyntax.exists_texts_eq hsound
  have hne : PartSyntax.texts xs ++ part :: after ≠ [] := by simp
  rw [NameSelection.parseList_eq, splitAtCommas_intercalate hne hparts, NameSelection.readParts,
    List.foldlM_append, PartSyntax.foldlM_texts]
  show (part :: after).foldlM NameSelection.addPart _ = _
  rw [List.foldlM_cons, h]
  rfl

/-- What is inside a block fails as a list does: nothing goes wrong in a block of blanks. -/
theorem readBlock_eq_error_iff {block : List Char} {e : Error} :
    NameSelection.readBlock block = .error e ↔ NameSelection.parseList block = .error e := by
  rw [NameSelection.readBlock]
  split
  -- A block of blanks is a list of one part that is left out, so the list does not fail either.
  · rename_i hnil
    have hall := Text.trim_eq_nil_iff.1 (List.isEmpty_iff.1 hnil)
    have hok := PartSyntax.parseList_listText [.blank ⟨block, hall⟩]
    have hone : PartSyntax.listText [.blank ⟨block, hall⟩] = block := List.intercalate_singleton
    rw [hone] at hok
    simp [hok]
  · rfl

/-- A list with a part at fault is not read, and the error is that of the first fault. -/
theorem parseList_of_firstFault {body : List Char} {e : Error} (h : FirstFault body e) :
    NameSelection.parseList body = .error e := by
  -- Along the path of the fault: every block on it passes on what goes wrong inside.
  induction h with
  | own parts sound fault =>
    refine parseList_of_addPart parts sound fun s => ?_
    rw [NameSelection.addPart, readPart_of_faulty fault]
  | inside parts sound fault ih =>
    refine parseList_of_addPart parts sound fun s => ?_
    rw [PartSyntax.addPart_blockText _ _ _ fault.balanced, readBlock_eq_error_iff.2 ih]
    rfl

/-! ## An error is a fault -/

/-- A part that is not read is at fault by itself, or what is inside its block is not read. -/
theorem faulty_of_addPart {part : List Char} {s : NameSelection} {e : Error}
    (hpart : partAfter? 0 part = some 0) (h : NameSelection.addPart s part = .error e) :
    (∃ cause, e = .of cause ∧ Faulty (trim part) cause) ∨
      ∃ before between after, ∃ name : Spelling, ∃ block e',
        part = blockText before name between block after ∧ openAfter? 0 block = some 0 ∧
        NameSelection.parseList block = .error e' ∧ e = e'.under (String.ofList name.val) := by
  -- By the form of the part: one of blanks, one without braces, and one with a block.
  obtain hnil | ⟨hne, hopen⟩ | ⟨front, block, after, heq, hplain, hblock⟩ := part_cases hpart
  · rw [NameSelection.addPart, readPart_blank hnil] at h
    cases h
  · rw [NameSelection.addPart, readPart_bare hne hopen] at h
    cases h
  · have hfirst : '\x7b' ∉ front := fun hmem => (hplain _ hmem).1 rfl
    by_cases hname : trim front = []
    · have hfault : Faulty (trim part) (.missingFieldName (String.ofList (trim part))) :=
        .noName heq hfirst (Text.trim_eq_nil_iff.1 hname)
      rw [NameSelection.addPart, readPart_of_faulty hfault] at h
      cases h
      exact .inl ⟨_, rfl, hfault⟩
    -- A block with a name in front of it is read, so the text behind it decides.
    · by_cases hafter : trim after = []
      · obtain ⟨before, between, behind, name, rfl, -⟩ :=
          PartSyntax.exists_eq_blockText heq hplain hname hafter
        rw [PartSyntax.addPart_blockText before name between hblock] at h
        cases hread : NameSelection.readBlock block with
        | ok child =>
          rw [hread] at h
          cases h
        | error e' =>
          rw [hread] at h
          cases h
          exact .inr ⟨before, between, behind, name, block, e', rfl, hblock,
            readBlock_eq_error_iff.1 hread, rfl⟩
      · rw [Text.trim_eq_nil_iff] at hname hafter
        have hfault : Faulty (trim part) (.moreThanOneSpace (String.ofList (trim part))) :=
          .moreBehind heq hfirst hname hblock hafter
        rw [NameSelection.addPart, readPart_of_faulty hfault] at h
        cases h
        exact .inl ⟨_, rfl, hfault⟩

/-- If a balanced list is not read, the error is that of its first fault. -/
theorem firstFault_of_parseList {body : List Char} {e : Error}
    (hbody : openAfter? 0 body = some 0) (h : NameSelection.parseList body = .error e) :
    FirstFault body e := by
  -- Blocks are shorter than the list they stand in.
  induction hn : body.length using Nat.strong_induction_on generalizing body e with
  | _ n ih =>
    subst hn
    obtain ⟨parts, hparts⟩ := exists_splitAtCommas_eq_ok hbody
    rw [NameSelection.parseList_eq, hparts] at h
    -- The fold over the parts stops at a first one, and those in front of it are sound.
    obtain ⟨before, part, after, s, rfl, hbefore, hpart⟩ := foldlM_eq_error h
    have hbalanced : ∀ p ∈ before ++ part :: after, partAfter? 0 p = some 0 :=
      fun p hp => partAfter?_of_mem_splitAtCommas hparts hp
    have hsound : ∀ p ∈ before, ∃ x : PartSyntax, x.text = p := by
      intro p hp
      obtain ⟨t, t', hadd⟩ := PartSyntax.exists_addPart_eq_ok hp hbefore
      exact PartSyntax.exists_text_eq_of_addPart
        (hbalanced p (List.mem_append_left _ hp)) hadd
        fun name block child _ hchild => PartSyntax.exists_listText_eq hchild
    have hmem : part ∈ before ++ part :: after := by simp
    rw [← intercalate_of_splitAtCommas hparts]
    obtain ⟨cause, rfl, hfault⟩ | ⟨pre, between, post, name, block, e', rfl, hblock, herr, rfl⟩ :=
      faulty_of_addPart (hbalanced part hmem) hpart
    · exact .own hbalanced hsound hfault
    -- The block of the part at fault is shorter than the list, so `ih` gives the fault in it.
    · have hlt : block.length < body.length := by
        have hle := length_le_of_mem_splitAtCommas hparts hmem
        simp only [blockText, List.length_append, List.length_cons] at hle
        omega
      exact .inside hbalanced hsound (ih block.length hlt hblock herr rfl)

/-! ## Whole expressions -/

/-- The list that an expression holds: what is inside its braces if its first character is a brace
    that is closed by its last one, and all of it otherwise. -/
inductive HoldsList : List Char → List Char → Prop where
  | inBraces {inside : List Char} (closed : openAfter? 0 inside = some 0) :
      HoldsList ('\x7b' :: (inside ++ ['\x7d'])) inside
  | whole {cs : List Char}
      (unwrapped : ∀ inside, cs = '\x7b' :: (inside ++ ['\x7d']) → openAfter? 0 inside ≠ some 0) :
      HoldsList cs cs

/-- What is in braces is the list of what is inside, and every other text is a list as a whole. -/
theorem holdsList_iff {cs body : List Char} :
    HoldsList cs body ↔ body = (NameSelection.unwrap? cs).getD cs := by
  constructor
  · intro h
    cases h with
    | inBraces closed => rw [NameSelection.unwrap?_eq_some_iff.2 ⟨rfl, closed⟩, Option.getD_some]
    | whole unwrapped =>
      cases hu : NameSelection.unwrap? cs with
      | none => rfl
      | some inside =>
        obtain ⟨heq, hclosed⟩ := NameSelection.unwrap?_eq_some_iff.1 hu
        exact absurd hclosed (unwrapped inside heq)
  · rintro rfl
    cases hu : NameSelection.unwrap? cs with
    | none =>
      refine .whole fun inside heq hclosed => ?_
      rw [NameSelection.unwrap?_eq_some_iff.2 ⟨heq, hclosed⟩] at hu
      cases hu
    | some inside =>
      obtain ⟨rfl, hclosed⟩ := NameSelection.unwrap?_eq_some_iff.1 hu
      exact .inBraces hclosed

/-- An expression is not read if the list that it holds is not. -/
theorem parseChars_eq_error_iff {cs body : List Char} {e : Error} (h : HoldsList (trim cs) body) :
    NameSelection.parseChars cs = .error e ↔ NameSelection.parseList body = .error e := by
  rw [holdsList_iff.1 h]
  simp only [NameSelection.parseChars]
  split
  · rename_i hnil
    -- Nothing goes wrong in a text of no characters.
    rw [List.isEmpty_iff.1 hnil, show NameSelection.unwrap? [] = none from rfl, Option.getD_none,
      ← readBlock_eq_error_iff]
    simp [NameSelection.readBlock, trim, Text.trimStart, Text.trimEnd]
  · cases NameSelection.unwrap? (trim cs) with
    | none => rfl
    | some inside =>
      rw [Option.getD_some, ← readBlock_eq_error_iff, NameSelection.readBlock]

/-- Braces match on the whole of an expression if they do so in the list that it holds. -/
theorem HoldsList.balanced {cs body : List Char} (h : HoldsList cs body)
    (hcs : openAfter? 0 cs = some 0) : openAfter? 0 body = some 0 := by
  cases h with
  | inBraces closed => exact closed
  | whole _ => exact hcs

/-- If they do not match on the whole, the expression is not in braces. -/
theorem HoldsList.of_not_balanced {cs : List Char} (h : openAfter? 0 cs ≠ some 0) :
    HoldsList cs cs := by
  refine .whole fun inside heq hclosed => h ?_
  -- The brace in front is closed by the last one, so none would stay open.
  have hinside : openAfter? 1 inside = some 1 := openAfter?_of_partAfter? (partAfter?_succ hclosed)
  rw [heq]
  show openAfter? 1 (inside ++ ['\x7d']) = some 0
  rw [openAfter?_append, hinside]
  rfl

namespace NameSelection

/-- An expression whose braces do not match is not read, for the reason that it is no list. -/
theorem parse_of_splitAtCommas {e : String} {cause : Cause}
    (hopen : openAfter? 0 (trim e.toList) ≠ some 0)
    (h : splitAtCommas (trim e.toList) = .error cause) : parse e = .error (.of cause) := by
  rw [parse, parseChars_eq_error_iff (.of_not_balanced hopen), parseList_eq, h]
  rfl

/-- A brace that closes nothing. -/
theorem parse_of_overclosed {e : String} (h : ∃ p, p <+: trim e.toList ∧ Overclosed p) :
    ∃ q rest, trim e.toList = q ++ '\x7d' :: rest ∧ Overclosed (q ++ ['\x7d']) ∧
      (∀ p, p <+: q → ¬ Overclosed p) ∧
      parse e = .error (.of
        (.unexpectedClosingBrace (String.ofList q).utf8ByteSize (trimmed e))) := by
  obtain ⟨p, hp, hover⟩ := h
  -- A prefix that closes too many leaves no count of the braces that are open behind it.
  have hnone : openAfter? 0 (trim e.toList) = none := by
    refine Option.eq_none_iff_forall_ne_some.2 fun n hn => ?_
    exact (openAfter?_zero_eq_some_iff.1 hn).1 p hp hover
  obtain ⟨q, rest, heq, hq⟩ := exists_overclosing hnone
  obtain ⟨hbefore, hcount⟩ := openAfter?_zero_eq_some_iff.1 hq
  refine ⟨q, rest, heq, ?_, hbefore, parse_of_splitAtCommas (by simp [hnone]) ?_⟩
  · rw [Overclosed, List.count_append, List.count_append, ← hcount]
    simp
  -- The separator stops at the same brace as the count.
  · rw [splitAtCommas]
    conv_lhs => rw [heq]
    rw [scanParts_of_closing _ hq, ← heq]
    rfl

/-- What stays open behind an expression that closes no brace too many. -/
theorem openAfter?_of_not_overclosed {cs : List Char} (h : ∀ p, p <+: cs → ¬ Overclosed p) :
    openAfter? 0 cs = some (cs.count '\x7b' - cs.count '\x7d') := by
  have hle : cs.count '\x7d' ≤ cs.count '\x7b' := Nat.not_lt.1 (h cs (List.prefix_refl cs))
  exact openAfter?_zero_eq_some_iff.2 ⟨h, by omega⟩

/-- A brace that stays open. -/
theorem parse_of_open {e : String} (h : ∀ p, p <+: trim e.toList → ¬ Overclosed p)
    (hlt : (trim e.toList).count '\x7d' < (trim e.toList).count '\x7b') :
    parse e = .error (.of (.missingClosingBrace (trimmed e))) := by
  have hopen := openAfter?_of_not_overclosed h
  -- A brace that stays open is one more than none.
  obtain ⟨n, hn⟩ := Nat.exists_eq_succ_of_ne_zero (Nat.sub_ne_zero_of_lt hlt)
  rw [hn] at hopen
  exact parse_of_splitAtCommas (by simp [hopen]) (scanParts_of_open _ hopen)

/-- With matching braces, the errors are the first faults. -/
theorem parse_eq_error_iff_of_balanced {e : String} (h : openAfter? 0 (trim e.toList) = some 0) :
    ∃ body, HoldsList (trim e.toList) body ∧
      ∀ err, (parse e = .error err ↔ FirstFault body err) ∧
        (parse e = .error err → ∃ part, err.cause = .missingFieldName part ∨
          err.cause = .moreThanOneSpace part) := by
  have hholds := holdsList_iff.2 (Eq.refl ((unwrap? (trim e.toList)).getD (trim e.toList)))
  refine ⟨_, hholds, fun err => ?_⟩
  rw [parse, parseChars_eq_error_iff hholds]
  have hfault := firstFault_of_parseList (e := err) (hholds.balanced h)
  exact ⟨⟨hfault, parseList_of_firstFault⟩, fun herr => (hfault herr).cause_eq⟩

/-- The errors of expressions. A brace that closes nothing comes first, at the end of the shortest
    prefix that closes too many; then braces that stay open. Both are found in the expression as a
    whole, so they never have a path. If all braces match, an error is that of the first fault in
    the list that the expression holds. -/
theorem parse_eq_error (e : String) :
    ((∃ p, p <+: trim e.toList ∧ Overclosed p) →
      ∃ q rest, trim e.toList = q ++ '\x7d' :: rest ∧ Overclosed (q ++ ['\x7d']) ∧
        (∀ p, p <+: q → ¬ Overclosed p) ∧
        parse e = .error (.of
          (.unexpectedClosingBrace (String.ofList q).utf8ByteSize (trimmed e)))) ∧
    ((∀ p, p <+: trim e.toList → ¬ Overclosed p) →
      ((trim e.toList).count '\x7d' < (trim e.toList).count '\x7b' →
        parse e = .error (.of (.missingClosingBrace (trimmed e)))) ∧
      (¬ (trim e.toList).count '\x7d' < (trim e.toList).count '\x7b' →
        ∃ body, HoldsList (trim e.toList) body ∧
          ∀ err, (parse e = .error err ↔ FirstFault body err) ∧
            (parse e = .error err → ∃ part, err.cause = .missingFieldName part ∨
              err.cause = .moreThanOneSpace part))) ∧
    ∀ err, parse e = .error err → err.path = [] ∨
      ∃ part, err.cause = .missingFieldName part ∨ err.cause = .moreThanOneSpace part := by
  have hbalanced (h : ∀ p, p <+: trim e.toList → ¬ Overclosed p)
      (hle : ¬ (trim e.toList).count '\x7d' < (trim e.toList).count '\x7b') :
      openAfter? 0 (trim e.toList) = some 0 := by
    rw [openAfter?_of_not_overclosed h, Nat.sub_eq_zero_of_le (Nat.not_lt.1 hle)]
  refine ⟨parse_of_overclosed, fun h => ⟨parse_of_open h, fun hle =>
    parse_eq_error_iff_of_balanced (hbalanced h hle)⟩, fun err herr => ?_⟩
  -- Only with matching braces does an error have a path.
  by_cases hover : ∃ p, p <+: trim e.toList ∧ Overclosed p
  · obtain ⟨q, rest, -, -, -, hparse⟩ := parse_of_overclosed hover
    rw [hparse] at herr
    cases herr
    exact .inl rfl
  · have h : ∀ p, p <+: trim e.toList → ¬ Overclosed p := fun p hp hp' => hover ⟨p, hp, hp'⟩
    by_cases hlt : (trim e.toList).count '\x7d' < (trim e.toList).count '\x7b'
    · rw [parse_of_open h hlt] at herr
      cases herr
      exact .inl rfl
    · obtain ⟨body, -, hiff⟩ := parse_eq_error_iff_of_balanced (hbalanced h hlt)
      exact .inr ((hiff err).2 herr)

/-! ## An error inside a block -/

/-- A block that has a block too many in it: `a{b{c}d}`. -/
def crowded : List Char := ['a', '\x7b', 'b', '\x7b', 'c', '\x7d', 'd', '\x7d']

/-- The fault is that of the part inside. -/
theorem firstFault_crowded :
    FirstFault crowded ⟨["a"], .moreThanOneSpace "b\x7bc\x7dd"⟩ := by
  let block : List Char := ['b', '\x7b', 'c', '\x7d', 'd']
  -- Behind the block `{c}` of `b`, there is a `d` too many.
  have hfault : Faulty (trim block) (.moreThanOneSpace (String.ofList block)) := by
    refine @Faulty.moreBehind block ['b'] ['c'] ['d'] rfl (by decide) ?_ rfl ?_ <;>
      rw [List.forall_mem_singleton] <;> decide
  have hblock : FirstFault block (.of (.moreThanOneSpace (String.ofList block))) := by
    refine @FirstFault.own [] [] block _ (fun p hp => ?_) (fun p hp => ?_) hfault
    · rw [List.mem_singleton.1 hp]
      rfl
    · cases hp
  -- The outer block is that of the part `a{…}`, which is all of the expression.
  have hspelt : crowded = blockText unspaced ⟨['a'], by decide⟩ unspaced block unspaced := rfl
  refine @FirstFault.inside [] [] unspaced unspaced unspaced ⟨['a'], by decide⟩ block _
    (fun p hp => ?_) (fun p hp => ?_) hblock
  · rw [List.mem_singleton.1 hp, ← hspelt]
    rfl
  · cases hp

/-- With matching braces, the error has the name in front of the outer block. -/
theorem parse_eq_error_crowded :
    parse (String.ofList crowded) = .error ⟨["a"], .moreThanOneSpace "b\x7bc\x7dd"⟩ := by
  have htrim : trim (String.ofList crowded).toList = crowded := by
    rw [String.toList_ofList]
    rfl
  have hopen : openAfter? 0 crowded = some 0 := rfl
  obtain ⟨hfirst, hcount⟩ := openAfter?_zero_eq_some_iff.1 hopen
  obtain ⟨body, hbody, hiff⟩ := ((parse_eq_error (String.ofList crowded)).2.1
    (by rw [htrim]; exact hfirst)).2 (by rw [htrim]; decide)
  have hwhole : body = crowded := by
    rw [htrim, holdsList_iff] at hbody
    exact hbody
  exact (hiff _).1.2 (hwhole ▸ firstFault_crowded)

end NameSelection

end FieldMask
