import FieldMask.Proofs.BraceCount
import FieldMask.Proofs.MapOfList

/-!
# Reading a list part by part

`parseList` reads the parts of a list one after the other. Here the step for one part is a
function of its own, `addPart`, and its cases are told by what `readPart` makes of the part.

## Key results

- `parseList_eq`: a list is read by folding `addPart` over its parts
- `block_cases` / `part_cases`: what the parts of a list look like
- `splitField_bare` / `splitField_of_block`: how a text is taken apart
- `readPart_blank` / `readPart_bare` / `readPart_of_block`: what each part is read as
- `IsName.of_readPart_bare` / `IsName.of_readPart_nested`: every name that is read is well-formed
-/

namespace FieldMask

open Text (trim isBlank)

/-! ## Names -/

/-- A text that an expression can spell as a name. -/
structure IsName (cs : List Char) : Prop where
  nonempty : cs ≠ []
  trimmed : trim cs = cs
  plain : ∀ c ∈ cs, IsPlain c

/-- Whether a text is a name can be decided. -/
instance (cs : List Char) : Decidable (IsName cs) :=
  decidable_of_iff (cs ≠ [] ∧ trim cs = cs ∧ cs.all (fun c => decide (IsPlain c)) = true) <| by
    simp only [List.all_eq_true, decide_eq_true_eq]
    exact ⟨fun ⟨h₁, h₂, h₃⟩ => ⟨h₁, h₂, h₃⟩, fun ⟨h₁, h₂, h₃⟩ => ⟨h₁, h₂, h₃⟩⟩

/-- Blanks are plain. -/
theorem isPlain_of_isBlank {c : Char} (h : isBlank c = true) : IsPlain c := by
  refine ⟨?_, ?_, ?_⟩ <;>
  · rintro rfl
    exact absurd h (by decide)

/-! ## The parts of a list -/

namespace NameSelection

/-- Read what is inside a nested block. -/
def readBlock (block : List Char) : Except Error NameSelection :=
  if (trim block).isEmpty then .ok empty else parseList block

/-- Read one part of a list, after the parts that made up a selection. -/
def addPart (s : NameSelection) (part : List Char) : Except Error NameSelection :=
  match readPart part with
  | .error cause => .error (.of cause)
  | .ok .blank => .ok s
  | .ok (.bare name) => .ok (s.set (String.ofList name) undefined)
  | .ok (.nested name block) => do
    let child ← within (String.ofList name) (readBlock block)
    return s.set (String.ofList name) child

/-- Read the parts that a list is split into. -/
def readParts : Except Cause (List (List Char)) → Except Error NameSelection
  | .error cause => .error (.of cause)
  | .ok parts => parts.foldlM addPart undefined

/-- A list is read part by part. -/
theorem parseList_eq (body : List Char) : parseList body = readParts (splitAtCommas body) := by
  rw [parseList]
  split
  · rename_i cause hs
    rw [hs, readParts]
  · rename_i parts hs
    conv_rhs => rw [hs, readParts]
    -- The proofs that the parts belong to the list do not matter for what is read.
    have hval : parts.foldlM addPart undefined =
        parts.attach.foldlM (fun s p => addPart s p.1) undefined := by
      conv_lhs => rw [← List.attach_map_subtype_val parts]
      rw [List.foldlM_map]
    simp only [hval]
    congr 1
    funext s p
    obtain ⟨part, hp⟩ := p
    simp only [addPart, readBlock]
    split <;> rename_i hr <;> rw [hr]
    simp only
    split <;> rfl

end NameSelection

/-! ## What a part is read as -/

/-- A blank part is passed over. -/
theorem readPart_blank {part : List Char} (h : trim part = []) : readPart part = .ok .blank := by
  rw [readPart, h]
  rfl

/-- A text without a brace is all name. -/
theorem splitField_bare {piece : List Char} (hopen : '\x7b' ∉ piece) :
    splitField piece = .ok (.bare piece) := by
  -- Nothing is left from the first brace on.
  have hdrop : piece.dropWhile (· != '\x7b') = [] := by
    refine List.dropWhile_eq_nil_iff.2 fun c hc => ?_
    have hne : c ≠ '\x7b' := by rintro rfl; exact hopen hc
    simpa using hne
  rw [splitField, hdrop]

/-- A part without a brace is all name. -/
theorem readPart_bare {part : List Char} (hne : trim part ≠ []) (hopen : '\x7b' ∉ trim part) :
    readPart part = .ok (.bare (trim part)) := by
  rw [readPart, if_neg (by simpa using hne), splitField_bare hopen]

/-- What stands in front of the first brace of a text. -/
theorem takeWhile_append_brace {front : List Char} (hopen : '\x7b' ∉ front) (behind : List Char) :
    (front ++ '\x7b' :: behind).takeWhile (· != '\x7b') = front := by
  have hfront : ∀ c ∈ front, (c != '\x7b') = true := by
    intro c hc
    -- All that stands in front of the brace is no brace.
    have hne : c ≠ '\x7b' := by rintro rfl; exact hopen hc
    simpa using hne
  rw [List.takeWhile_append_of_pos hfront, List.takeWhile_cons, if_neg (by simp), List.append_nil]

/-- What stands from the first brace of a text on. -/
theorem dropWhile_append_brace {front : List Char} (hopen : '\x7b' ∉ front) (behind : List Char) :
    (front ++ '\x7b' :: behind).dropWhile (· != '\x7b') = '\x7b' :: behind := by
  have hsplit := List.takeWhile_append_dropWhile (p := (· != '\x7b'))
    (l := front ++ '\x7b' :: behind)
  -- What is taken and what is left make up the text, so it is known from what is taken.
  rw [takeWhile_append_brace hopen] at hsplit
  exact List.append_cancel_left hsplit

/-- A part without a name in front of its first brace is not read. -/
theorem readPart_of_noName {part front behind : List Char} (hopen : '\x7b' ∉ front)
    (hblank : trim front = []) (h : trim part = front ++ '\x7b' :: behind) :
    readPart part = .error (.missingFieldName (String.ofList (trim part))) := by
  have hne : ¬ (trim part).isEmpty = true := by simp [h]
  rw [readPart, if_neg hne, splitField, h, dropWhile_append_brace hopen,
    takeWhile_append_brace hopen, hblank]
  rfl

/-- A text with a block is a name in front of the block, unless there is no name, or more behind
    it. -/
theorem splitField_of_block {front block : List Char} (hopen : '\x7b' ∉ front)
    (hblock : openAfter? 0 block = some 0) (after : List Char) :
    splitField (front ++ '\x7b' :: (block ++ '\x7d' :: after)) =
      if (trim front).isEmpty then
        .error (.missingFieldName (String.ofList (front ++ '\x7b' :: (block ++ '\x7d' :: after))))
      else if (trim after).isEmpty then .ok (.nested (trim front) block)
      else
        .error (.moreThanOneSpace
          (String.ofList (front ++ '\x7b' :: (block ++ '\x7d' :: after)))) := by
  rw [splitField, dropWhile_append_brace hopen, takeWhile_append_brace hopen]
  simp only [splitAtClosing?_append hblock after]

/-- A part with a brace is a name in front of a block, unless there is no name, or more behind the
    block. -/
theorem readPart_of_block {part front block after : List Char} (hopen : '\x7b' ∉ front)
    (hblock : openAfter? 0 block = some 0)
    (h : trim part = front ++ '\x7b' :: (block ++ '\x7d' :: after)) :
    readPart part =
      if (trim front).isEmpty then .error (.missingFieldName (String.ofList (trim part)))
      else if (trim after).isEmpty then .ok (.nested (trim front) block)
      else .error (.moreThanOneSpace (String.ofList (trim part))) := by
  have hne : ¬ (trim part).isEmpty = true := by simp [h]
  rw [readPart, if_neg hne, h, splitField_of_block hopen hblock]

/-! ## The parts of a list -/

/-- A part stays balanced if it is trimmed. -/
theorem partAfter?_trim {part : List Char} (h : partAfter? 0 part = some 0) :
    partAfter? 0 (trim part) = some 0 := by
  -- The blanks around a part change no depth, so they leave what is in the middle balanced.
  obtain ⟨pre, post, heq, hpre, hpost⟩ := Text.exists_eq_append_trim part
  have hopen := partAfter?_of_plain fun c hc => isPlain_of_isBlank (hpre c hc)
  have hclose := partAfter?_of_plain fun c hc => isPlain_of_isBlank (hpost c hc)
  rw [heq, partAfter?_append, partAfter?_append, hopen, Option.bind_some] at h
  cases hmid : partAfter? 0 (trim part) with
  | none => rw [hmid] at h; cases h
  | some depth =>
    rw [hmid, Option.bind_some, hclose] at h
    exact h

/-- A balanced text has no brace, or its first brace is closed again. -/
theorem block_cases {piece : List Char} (h : partAfter? 0 piece = some 0) :
    '\x7b' ∉ piece ∨ ∃ front block after, piece = front ++ '\x7b' :: (block ++ '\x7d' :: after) ∧
      (∀ c ∈ front, IsPlain c) ∧ openAfter? 0 block = some 0 := by
  by_cases hopen : '\x7b' ∈ piece
  · obtain ⟨front, behind, heq, hfirst⟩ := List.eq_append_cons_of_mem hopen
    rw [heq, partAfter?_append] at h
    obtain ⟨depth, hdepth, hbehind⟩ := Option.bind_eq_some_iff.1 h
    have hplain := isPlain_of_partAfter? hdepth hfirst
    -- Nothing is open in front of the first brace, so that it is the one that is closed again.
    rw [partAfter?_of_plain hplain, Option.some.injEq] at hdepth
    rw [← hdepth] at hbehind
    have hclosed : openAfter? (0 + 1) behind = some 0 := openAfter?_of_partAfter? hbehind
    obtain ⟨block, after, hjoin, hblock⟩ := exists_eq_append_of_closed hclosed
    exact .inr ⟨front, block, after, by rw [heq, hjoin], hplain, hblock⟩
  · exact .inl hopen

/-- A part of a list is blank, or has no brace, or its first brace is closed again. -/
theorem part_cases {part : List Char} (h : partAfter? 0 part = some 0) :
    trim part = [] ∨ (trim part ≠ [] ∧ '\x7b' ∉ trim part) ∨
      ∃ front block after, trim part = front ++ '\x7b' :: (block ++ '\x7d' :: after) ∧
        (∀ c ∈ front, IsPlain c) ∧ openAfter? 0 block = some 0 := by
  obtain hopen | hblock := block_cases (partAfter?_trim h)
  · by_cases hne : trim part = []
    · exact .inl hne
    · exact .inr (.inl ⟨hne, hopen⟩)
  · exact .inr (.inr hblock)

/-! ## The names that are read -/

/-- A text is a name if it is plain and trimmed away to it. -/
theorem isName_trim {cs : List Char} (hplain : ∀ c ∈ cs, IsPlain c) (hne : trim cs ≠ []) :
    IsName (trim cs) :=
  ⟨hne, Text.trim_trim cs, fun c hc => hplain c (Text.mem_of_mem_trim hc)⟩

/-- A bare name that is read from a part of a list is well-formed. -/
theorem IsName.of_readPart_bare {part name : List Char} (hpart : partAfter? 0 part = some 0)
    (h : readPart part = .ok (.bare name)) : IsName name := by
  -- Only a part without braces is read as a bare name.
  obtain hnil | ⟨hne, hopen⟩ | ⟨front, block, after, heq, hplain, hblock⟩ := part_cases hpart
  · rw [readPart_blank hnil] at h
    cases h
  · rw [readPart_bare hne hopen] at h
    cases h
    exact ⟨hne, Text.trim_trim part, isPlain_of_partAfter? (partAfter?_trim hpart) hopen⟩
  · rw [readPart_of_block (fun hmem => (hplain _ hmem).1 rfl) hblock heq] at h
    split at h
    · cases h
    · split at h <;> cases h

/-- A name that is read in front of a block is well-formed. -/
theorem IsName.of_readPart_nested {part name block : List Char}
    (hpart : partAfter? 0 part = some 0) (h : readPart part = .ok (.nested name block)) :
    IsName name := by
  -- Only a part with a block is read as nested, and its name is plain as it stands before the
  -- brace.
  obtain hnil | ⟨hne, hopen⟩ | ⟨front, block, after, heq, hplain, hblock⟩ := part_cases hpart
  · rw [readPart_blank hnil] at h
    cases h
  · rw [readPart_bare hne hopen] at h
    cases h
  · rw [readPart_of_block (fun hmem => (hplain _ hmem).1 rfl) hblock heq] at h
    split at h
    · cases h
    · rename_i hname
      split at h
      · cases h
        exact isName_trim hplain (by simpa using hname)
      · cases h

end FieldMask
