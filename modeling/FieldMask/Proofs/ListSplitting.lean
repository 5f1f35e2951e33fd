import FieldMask.Proofs.ListReading

/-!
# Splitting a list into parts

A list is split at the commas outside of braces, and each part at the brace that closes its first
one. Both scanners count open braces. The first one checks that every brace that is closed is open,
the second one takes it for granted, and that there is a brace it looks for too: it is only given
parts that the first one has found.

Here balance is said by counting braces, up to any place of a text. The second scanner is compared
with `closingScan`, which counts from the first brace on and has no result where it would have to
close a brace that is not open.

## Key results

- `exists_splitAtCommas_eq_ok_iff`: which texts are lists
- `closingScan_succ` / `closingScan_brace`: the scan for a closing brace closes no brace too many
- `splitsSafely_of_partAfter?`: how a balanced text is taken apart
- `splitAtCommas_exact`: what the parts of a list are, and how they are taken apart
-/

namespace FieldMask

open Text (trim)

/-! ## Balance by counting -/

/-- A text closes as many braces as it opens, and up to any place no more. -/
def Balanced (cs : List Char) : Prop :=
  (∀ p, p <+: cs → ¬ Overclosed p) ∧ cs.count '\x7d' = cs.count '\x7b'

/-- In front of each comma of a text more braces are opened than closed. -/
def CommasInside (cs : List Char) : Prop :=
  ∀ before after, cs = before ++ ',' :: after → before.count '\x7d' < before.count '\x7b'

/-- A text is a block: it begins with an opening brace and ends with the closing brace that matches
    it, as up to any place between the two more braces are opened than closed. -/
structure IsBlock (cs : List Char) : Prop where
  first : cs.head? = some '\x7b'
  last : cs.getLast? = some '\x7d'
  inside : ∀ p, p <+: cs → p ≠ [] → p ≠ cs → p.count '\x7d' < p.count '\x7b'
  closed : cs.count '\x7d' = cs.count '\x7b'

/-- A text is balanced if nothing stays open behind it. -/
theorem balanced_iff {cs : List Char} : Balanced cs ↔ openAfter? 0 cs = some 0 := by
  rw [openAfter?_zero_eq_some_iff, Nat.add_zero, Balanced]

/-- A text is a list if it is balanced. -/
theorem exists_splitAtCommas_eq_ok_iff {body : List Char} :
    (∃ parts, splitAtCommas body = .ok parts) ↔ Balanced body := by
  rw [balanced_iff]
  constructor
  · intro h
    obtain ⟨parts, hparts⟩ := h
    rw [← intercalate_of_splitAtCommas hparts]
    exact openAfter?_intercalate fun part hp => partAfter?_of_mem_splitAtCommas hparts hp
  · exact exists_splitAtCommas_eq_ok

/-- In a part of a list, commas stand inside braces. -/
theorem commasInside_of_partAfter? {part : List Char} {depth : Nat}
    (h : partAfter? 0 part = some depth) : CommasInside part := by
  intro before after heq
  rw [heq, partAfter?_append] at h
  obtain ⟨here, hbefore, hafter⟩ := Option.bind_eq_some_iff.1 h
  obtain ⟨next, hstep, -⟩ := Option.bind_eq_some_iff.1 hafter
  -- The comma would be refused if no brace were open in front of it.
  have hopen : here ≠ 0 := fun hzero => (partStep_eq_some_iff.1 hstep).1 ⟨rfl, hzero⟩
  have hcount := (openAfter?_eq_some_iff.1 (openAfter?_of_partAfter? hbefore)).2
  omega

/-- A balanced text in braces is a block. -/
theorem isBlock_of_balanced {inside : List Char} (h : openAfter? 0 inside = some 0) :
    IsBlock ('\x7b' :: (inside ++ ['\x7d'])) := by
  obtain ⟨hprefixes, hcount⟩ := openAfter?_eq_some_iff.1 h
  refine ⟨rfl, ?_, ?_, ?_⟩
  -- The last character is the brace that has been added.
  · rw [← List.cons_append, List.getLast?_concat]
  · intro p hp hne hall
    obtain rfl | ⟨q, rfl, hq⟩ := List.prefix_cons_iff.1 hp
    · exact absurd rfl hne
    · -- What is left of the prefix ends inside the braces.
      obtain hq | rfl := List.prefix_concat_iff.1 hq |>.symm
      · have := hprefixes q hq
        rw [List.count_cons_self, List.count_cons_of_ne (by decide)]
        omega
      · exact absurd rfl hall
  · rw [List.count_cons_self, List.count_cons_of_ne (by decide), List.count_append,
      List.count_append]
    simp
    omega

/-! ## The scan for a closing brace -/

/-- Scan for the brace that closes a block, counting all open braces from the first one on: what
    the block is, and what comes after it. There is no result if a brace is closed that is not
    open. -/
def closingScan (depth : Nat) : List Char → Option (Option (List Char × List Char))
  | [] => some none
  | c :: rest => (braceStep depth c).bind fun next =>
    if c = '\x7d' ∧ next = 0 then some (some ([c], rest))
    else (closingScan next rest).map (·.map fun (block, after) => (c :: block, after))

/-- Behind the first brace the two scans find the same, and no brace is closed that is not open. -/
theorem closingScan_succ (cs : List Char) (depth : Nat) :
    closingScan (depth + 1) cs =
      some ((splitAtClosing? depth cs).map fun (inside, after) => (inside ++ ['\x7d'], after)) := by
  induction cs generalizing depth with
  | nil => rfl
  | cons c rest ih =>
    -- Where the scan goes on, the character comes in front of what is found from there on.
    have hmore : ∀ deeper,
        (closingScan (deeper + 1) rest).map (·.map fun (block, after) => (c :: block, after)) =
          some (((splitAtClosing? deeper rest).map fun (inside, after) => (c :: inside, after)).map
            fun (inside, after) => (inside ++ ['\x7d'], after)) := by
      intro deeper
      rw [ih, Option.map_some, Option.map_map, Option.map_map]
      rfl
    rw [closingScan, splitAtClosing?, braceStep]
    -- A brace that opens goes one level down, one that closes ends the search or goes one level up.
    by_cases hopen : c = '\x7b'
    · subst hopen
      exact hmore (depth + 1)
    · by_cases hclose : c = '\x7d'
      · subst hclose
        cases depth with
        | zero => rfl
        | succ depth => exact hmore depth
      · rw [if_neg hopen, if_neg hclose, Option.bind_some, if_neg fun h => hclose h.1,
          if_neg fun h => hclose h.1, if_neg hopen, if_neg hclose]
        exact hmore depth

/-- The scan that begins with the first brace closes no brace that is not open. -/
theorem closingScan_brace (behind : List Char) :
    closingScan 0 ('\x7b' :: behind) =
      some ((splitAtClosing? 0 behind).map fun (inside, after) =>
        ('\x7b' :: (inside ++ ['\x7d']), after)) := by
  have hstep : closingScan 0 ('\x7b' :: behind) =
      (closingScan 1 behind).map (·.map fun (block, after) => ('\x7b' :: block, after)) := rfl
  rw [hstep, closingScan_succ, Option.map_some, Option.map_map]
  rfl

/-! ## Taking a part apart -/

/-- How a text is taken apart without harm: the brace that is looked for is there, on the way no
    brace is closed that is not open, and what is found is the inside of a block of the text. -/
structure SplitsSafely (piece : List Char) : Prop where
  closed : ∀ text, splitField piece ≠ .error (.missingClosingBrace text)
  /-- The search from the first brace on is `closingScan`, which never takes one from none. -/
  counted : ∀ behind, piece.dropWhile (· != '\x7b') = '\x7b' :: behind →
    closingScan 0 ('\x7b' :: behind) =
      some ((splitAtClosing? 0 behind).map fun (inside, after) =>
        ('\x7b' :: (inside ++ ['\x7d']), after))
  block : ∀ name inside, splitField piece = .ok (.nested name inside) →
    ∃ front block after, piece = front ++ (block ++ after) ∧ '\x7b' ∉ front ∧ trim front = name ∧
      IsBlock block ∧ 2 ≤ (String.ofList block).utf8ByteSize ∧ (block.drop 1).dropLast = inside

/-- A block is its first brace, what is inside, and its last brace. -/
theorem dropLast_drop_block (inside : List Char) :
    (('\x7b' :: (inside ++ ['\x7d'])).drop 1).dropLast = inside := by
  rw [List.drop_one, List.tail_cons, List.dropLast_concat]

/-- A block has a byte for each of its braces. -/
theorem two_le_utf8ByteSize_block (inside : List Char) :
    2 ≤ (String.ofList ('\x7b' :: (inside ++ ['\x7d']))).utf8ByteSize := by
  rw [utf8ByteSize_ofList_cons, String.ofList_append, String.utf8ByteSize_append]
  have hopen : Char.utf8Size '\x7b' = 1 := rfl
  have hclose : (String.ofList ['\x7d']).utf8ByteSize = 1 := rfl
  omega

/-- A balanced text with all commas inside braces is taken apart without harm. -/
theorem splitsSafely_of_partAfter? {piece : List Char} (h : partAfter? 0 piece = some 0) :
    SplitsSafely piece := by
  obtain hopen | ⟨front, inside, after, rfl, hplain, hinside⟩ := block_cases h
  · -- Without a brace the text is all name, and there is nothing to look for.
    have hbare := splitField_bare hopen
    -- The error and the block are only given for texts with a brace.
    refine ⟨?_, fun behind _ => closingScan_brace behind, ?_⟩
    · intro text herr
      rw [hbare] at herr
      cases herr
    · intro name inside hnested
      rw [hbare] at hnested
      cases hnested
  · -- The first brace is closed again, and the search for the brace that does so ends there.
    have hfront : '\x7b' ∉ front := fun hmem => (hplain _ hmem).1 rfl
    have hsplit := splitField_of_block hfront hinside after
    refine ⟨?_, fun behind _ => closingScan_brace behind, ?_⟩
    -- Of the three results, only the first errors, and it does so for want of a name.
    · intro text herr
      rw [hsplit] at herr
      split at herr
      · cases herr
      · split at herr <;> cases herr
    · intro name block hnested
      rw [hsplit] at hnested
      split at hnested
      · cases hnested
      · split at hnested
        · cases hnested
          exact ⟨front, '\x7b' :: (inside ++ ['\x7d']), after, by simp, hfront, rfl,
            isBlock_of_balanced hinside, two_le_utf8ByteSize_block inside,
            dropLast_drop_block inside⟩
        · cases hnested

/-! ## The parts of a list -/

/-- A text is a list if and only if it is balanced. Its parts, joined by commas, are the text again;
    each of them is balanced, has its commas inside braces, and is taken apart without harm, with
    what is inside its block shorter than the list. -/
theorem splitAtCommas_exact (body : List Char) :
    ((∃ parts, splitAtCommas body = .ok parts) ↔ Balanced body) ∧
      ∀ parts, splitAtCommas body = .ok parts →
        parts ≠ [] ∧ [','].intercalate parts = body ∧
          ∀ part ∈ parts, Balanced part ∧ CommasInside part ∧
            SplitsSafely part ∧ SplitsSafely (trim part) ∧
            ∀ name inside, readPart part = .ok (.nested name inside) →
              splitField (trim part) = .ok (.nested name inside) ∧
                inside.length < body.length := by
  refine ⟨exists_splitAtCommas_eq_ok_iff, fun parts hparts => ?_⟩
  obtain ⟨hne, hjoin⟩ := intercalate_of_scanParts hparts
  refine ⟨hne, hjoin, fun part hmem => ?_⟩
  have hpart := partAfter?_of_mem_splitAtCommas hparts hmem
  refine ⟨balanced_iff.2 (openAfter?_of_partAfter? hpart), commasInside_of_partAfter? hpart,
    splitsSafely_of_partAfter? hpart, splitsSafely_of_partAfter? (partAfter?_trim hpart), ?_⟩
  intro name inside hread
  have hsplit : splitField (trim part) = .ok (.nested name inside) := by
    rw [readPart] at hread
    split at hread
    · cases hread
    · exact hread
  -- A block is shorter than its part, and a part is no longer than the list.
  have hshorter := length_lt_of_readPart hread
  have hle := length_le_of_mem_splitAtCommas hparts hmem
  exact ⟨hsplit, by omega⟩

/-- In the list `a{b,c} ,d` the comma of the block separates no parts. -/
theorem splitAtCommas_exact_blockAndName :
    let block : List Char := ['a', '\x7b', 'b', ',', 'c', '\x7d', ' ']
    splitAtCommas (block ++ [',', 'd']) = .ok [block, ['d']] ∧
      splitField (trim block) = .ok (.nested ['a'] ['b', ',', 'c']) ∧
        SplitsSafely (trim block) ∧ CommasInside block ∧ Balanced block := by
  intro block
  have hparts : splitAtCommas (block ++ [',', 'd']) = .ok [block, ['d']] := rfl
  obtain ⟨-, -, heach⟩ := (splitAtCommas_exact (block ++ [',', 'd'])).2 _ hparts
  obtain ⟨hbalanced, hcommas, -, hsafely, hread⟩ := heach block List.mem_cons_self
  exact ⟨hparts, (hread ['a'] ['b', ',', 'c'] rfl).1, hsafely, hcommas, hbalanced⟩

end FieldMask
