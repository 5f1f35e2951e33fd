import FieldMask.Proofs.BraceScan
import FieldMask.Proofs.ExceptLemmas

/-!
# Counting braces

When a text is balanced, in terms of how many braces of either kind it has, and what becomes of the
scan for parts and for a closing brace in each case. A text fails to be a list for one of two
reasons: somewhere it has closed more braces than it opened, which the scan notices at the first
such brace, or it has opened more than it closes, which is noticed at its end.

## Key results

- `openAfter?_eq_some_iff`: what stays open behind a text, by counting braces
- `exists_overclosing`: a text closes too many braces at a first place
- `scanParts_of_closing` / `scanParts_of_open` / `exists_splitAtCommas_eq_ok`: how the scan ends
- `intercalate_of_splitAtCommas`: splitting a list loses no text
- `eq_append_of_splitAtClosing?`: nor does splitting at a closing brace; what is inside is balanced
- `NameSelection.unwrap?_eq_some_iff`: when braces around a whole expression are taken off
-/

namespace FieldMask

/-! ## Open braces by counting -/

/-- A text closes more braces than it opens. -/
def Overclosed (cs : List Char) : Prop := cs.count '\x7b' < cs.count '\x7d'

/-- With some braces open in front of it, a text leaves as many open as the counts of its braces
    say, provided that up to any place it closes no more than were opened. -/
theorem openAfter?_eq_some_iff {cs : List Char} {depth n : Nat} :
    openAfter? depth cs = some n ↔
      (∀ p, p <+: cs → p.count '\x7d' ≤ depth + p.count '\x7b') ∧
        cs.count '\x7d' + n = depth + cs.count '\x7b' := by
  -- By induction on the text, with the number of open braces in front of what is left.
  induction cs generalizing depth with
  | nil =>
    have hnil : ∀ p, p <+: ([] : List Char) → p.count '\x7d' ≤ depth + p.count '\x7b' := by
      intro p hp
      rw [List.prefix_nil.1 hp, List.count_nil]
      omega
    simp only [openAfter?_nil, Option.some.injEq, List.count_nil]
    constructor
    · intro h
      exact ⟨hnil, by omega⟩
    · intro h
      omega
  | cons c rest ih =>
    -- The prefixes of the text are the empty one and those of the rest behind the character.
    have hstarts : (∀ p, p <+: c :: rest → p.count '\x7d' ≤ depth + p.count '\x7b') ↔
        ∀ p, p <+: rest → (c :: p).count '\x7d' ≤ depth + (c :: p).count '\x7b' := by
      constructor
      · intro h p hp
        exact h (c :: p) (List.cons_prefix_cons.2 ⟨rfl, hp⟩)
      · intro h p hp
        rcases List.prefix_cons_iff.1 hp with rfl | ⟨q, rfl, hq⟩
        · simp
        · exact h q hq
    rw [openAfter?_cons, hstarts, braceStep]
    -- An opening brace counts for every prefix; a closing one is allowed unless none is open.
    by_cases hopen : c = '\x7b'
    · subst hopen
      simp only [if_true, Option.bind_some, ih, List.count_cons_self,
        List.count_cons_of_ne (show '\x7b' ≠ '\x7d' by decide)]
      refine and_congr (forall₂_congr fun p _ => ?_) ?_ <;> omega
    · by_cases hclose : c = '\x7d'
      · subst hclose
        simp only [hopen, if_false, if_true, List.count_cons_self,
          List.count_cons_of_ne (show '\x7d' ≠ '\x7b' by decide)]
        by_cases hdepth : depth = 0
        · -- The brace itself is one too many.
          subst hdepth
          simp only [if_true, Option.bind_none]
          constructor
          · intro h
            cases h
          · rintro ⟨h, -⟩
            have := h [] List.nil_prefix
            simp at this
        · simp only [hdepth, if_false, Option.bind_some, ih]
          refine and_congr (forall₂_congr fun p _ => ?_) ?_ <;> omega
      -- Any other character is counted by neither side.
      · simp only [hopen, hclose, if_false, Option.bind_some, ih,
          List.count_cons_of_ne hopen, List.count_cons_of_ne hclose]

/-- A text is balanced if up to any place it closes no more braces than it opens, and on the whole
    as many. -/
theorem openAfter?_zero_eq_some_iff {cs : List Char} {n : Nat} :
    openAfter? 0 cs = some n ↔
      (∀ p, p <+: cs → ¬ Overclosed p) ∧ cs.count '\x7d' + n = cs.count '\x7b' := by
  rw [openAfter?_eq_some_iff]
  simp only [Overclosed, Nat.zero_add, Nat.not_lt]

/-- A text that closes too many braces does so at a first place: up to there it is balanced. -/
theorem exists_overclosing {cs : List Char} (h : openAfter? 0 cs = none) :
    ∃ q rest, cs = q ++ '\x7d' :: rest ∧ openAfter? 0 q = some 0 := by
  -- The depth does not matter for where the scan gets stuck.
  have hgen : ∀ (cs : List Char) (depth : Nat), openAfter? depth cs = none →
      ∃ q rest, cs = q ++ '\x7d' :: rest ∧ openAfter? depth q = some 0 := by
    intro cs
    induction cs with
    | nil =>
      intro depth h
      cases h
    | cons c rest ih =>
      intro depth h
      rw [openAfter?_cons] at h
      -- Either the character is the one that closes too many, or the scan gets stuck behind it.
      cases hstep : braceStep depth c with
      | none =>
        rw [braceStep] at hstep
        split at hstep
        · cases hstep
        · split at hstep
          · rename_i hclose
            split at hstep
            · rename_i hdepth
              exact ⟨[], rest, by rw [hclose, List.nil_append], by rw [hdepth]; rfl⟩
            · cases hstep
          · cases hstep
      | some next =>
        rw [hstep, Option.bind_some] at h
        obtain ⟨q, more, heq, hq⟩ := ih next h
        refine ⟨c :: q, more, by rw [heq, List.cons_append], ?_⟩
        rw [openAfter?_cons, hstep, Option.bind_some, hq]
  exact hgen cs 0 h

/-! ## Outcomes of the scan for parts -/

/-- A character adds its bytes to those of a text. -/
theorem utf8ByteSize_ofList_cons (c : Char) (cs : List Char) :
    (String.ofList (c :: cs)).utf8ByteSize = c.utf8Size + (String.ofList cs).utf8ByteSize := by
  rw [String.ofList_cons, String.utf8ByteSize_append, String.utf8ByteSize_singleton]

/-- Scanning goes on behind a text that closes no brace too many. What it finds from there on comes
    behind the parts of that text. -/
theorem scanParts_eq_map (body : List Char) {cs : List Char} {depth depth' : Nat}
    (h : openAfter? depth cs = some depth') (start : List Char) (index : Nat) (rest : List Char) :
    ∃ parts start', scanParts body depth start index (cs ++ rest) =
      (scanParts body depth' start' (index + (String.ofList cs).utf8ByteSize) rest).map
        (parts ++ ·) := by
  -- By induction on the text: what has been read moves to the current part or completes it.
  induction cs generalizing depth start index with
  | nil =>
    cases h
    refine ⟨[], start, ?_⟩
    show scanParts body depth' start index rest = (scanParts body depth' start index rest).map _
    cases scanParts body depth' start index rest <;> rfl
  | cons c more ih =>
    obtain ⟨next, hstep, hmore⟩ := Option.bind_eq_some_iff.1 h
    rw [List.cons_append, utf8ByteSize_ofList_cons, ← Nat.add_assoc, scanParts]
    -- A brace that is opened or closed belongs to the current part, as does all but an outer comma.
    obtain ⟨hc, rfl⟩ | ⟨hc, rfl⟩ | ⟨hopen, hclose, rfl⟩ := braceStep_cases hstep
    · rw [if_pos hc]
      exact ih hmore (c :: start) (index + c.utf8Size)
    · subst hc
      exact ih hmore ('\x7d' :: start) (index + Char.utf8Size '\x7d')
    · rw [if_neg hopen, if_neg hclose]
      split
      · rename_i hcomma
        -- A comma outside of braces completes the current part.
        rw [hcomma.2] at hmore
        obtain ⟨parts, start', heq⟩ := ih hmore [] (index + c.utf8Size)
        refine ⟨start.reverse :: parts, start', ?_⟩
        rw [heq]
        cases scanParts body depth' start'
          (index + c.utf8Size + (String.ofList more).utf8ByteSize) rest <;> rfl
      · exact ih hmore (c :: start) (index + c.utf8Size)

/-- A brace that closes nothing is noticed, at its place. -/
theorem scanParts_of_closing (body : List Char) {q : List Char} (h : openAfter? 0 q = some 0)
    (rest : List Char) :
    scanParts body 0 [] 0 (q ++ '\x7d' :: rest) =
      .error (.unexpectedClosingBrace (String.ofList q).utf8ByteSize (String.ofList body)) := by
  -- Up to the brace all goes well, so the scan is at the brace with nothing open.
  obtain ⟨parts, start, heq⟩ := scanParts_eq_map body h [] 0 ('\x7d' :: rest)
  rw [heq, Nat.zero_add, scanParts]
  rfl

/-- Braces that stay open are noticed at the end. -/
theorem scanParts_of_open (body : List Char) {cs : List Char} {n : Nat}
    (h : openAfter? 0 cs = some (n + 1)) :
    scanParts body 0 [] 0 cs = .error (.missingClosingBrace (String.ofList body)) := by
  obtain ⟨parts, start, heq⟩ := scanParts_eq_map body h [] 0 []
  rw [List.append_nil] at heq
  rw [heq]
  rfl

/-- A balanced text has parts. -/
theorem exists_splitAtCommas_eq_ok {body : List Char} (h : openAfter? 0 body = some 0) :
    ∃ parts, splitAtCommas body = .ok parts := by
  obtain ⟨parts, start, heq⟩ := scanParts_eq_map body h [] 0 []
  rw [List.append_nil] at heq
  rw [splitAtCommas, heq]
  exact ⟨parts ++ [start.reverse], rfl⟩

/-- The parts that a scan finds, joined by commas, are the text that was scanned. -/
theorem intercalate_of_scanParts {body : List Char} {depth : Nat} {start : List Char}
    {index : Nat} {cs : List Char} {parts : List (List Char)}
    (h : scanParts body depth start index cs = .ok parts) :
    parts ≠ [] ∧ [','].intercalate parts = start.reverse ++ cs := by
  -- By induction on the text that is left, with the part that is being read.
  induction cs generalizing depth start index parts with
  | nil =>
    simp only [scanParts] at h
    split at h
    · cases h
      exact ⟨List.cons_ne_nil _ _, by rw [List.intercalate_singleton, List.append_nil]⟩
    · cases h
  | cons c rest ih =>
    -- A character of the current part moves from the text to what was read before it.
    have hnext : ∀ next index' : Nat, scanParts body next (c :: start) index' rest = .ok parts →
        parts ≠ [] ∧ [','].intercalate parts = start.reverse ++ c :: rest := by
      intro next index' hscan
      obtain ⟨hne, heq⟩ := ih hscan
      exact ⟨hne, by rw [heq, List.reverse_cons, List.append_assoc, List.singleton_append]⟩
    simp only [scanParts] at h
    split at h
    · exact hnext _ _ h
    · split at h
      · split at h
        · cases h
        · exact hnext _ _ h
      · split at h
        · rename_i hcomma
          obtain ⟨more, hmore, heq⟩ := bind_eq_ok_iff.1 h
          cases heq
          obtain ⟨hne, hjoin⟩ := ih hmore
          obtain ⟨next, others, rfl⟩ := List.exists_cons_of_ne_nil hne
          refine ⟨List.cons_ne_nil _ _, ?_⟩
          rw [List.intercalate_cons_cons, hjoin, hcomma.1]
          simp
        · exact hnext _ _ h

/-- Splitting a list loses no text. -/
theorem intercalate_of_splitAtCommas {body : List Char} {parts : List (List Char)}
    (h : splitAtCommas body = .ok parts) : [','].intercalate parts = body :=
  (intercalate_of_scanParts h).2

/-! ## Blocks -/

/-- Splitting at a closing brace loses no text, and what is inside closes all that it opens. -/
theorem eq_append_of_splitAtClosing? {depth : Nat} {cs inside after : List Char}
    (h : splitAtClosing? depth cs = some (inside, after)) :
    cs = inside ++ '\x7d' :: after ∧ openAfter? depth inside = some 0 := by
  -- By induction on the text, with the number of braces that are open in front of it.
  induction cs generalizing depth inside after with
  | nil => cases h
  | cons c rest ih =>
    rw [splitAtClosing?] at h
    split at h
    · rename_i hend
      cases h
      exact ⟨by rw [hend.1, List.nil_append], by rw [hend.2]; rfl⟩
    · rename_i hend
      obtain ⟨⟨inside', after'⟩, hrest, heq⟩ := Option.map_eq_some_iff.1 h
      cases heq
      obtain ⟨hjoin, hbalanced⟩ := ih hrest
      refine ⟨by rw [hjoin, List.cons_append], ?_⟩
      -- The scanner takes the same step as the count of open braces.
      rw [openAfter?_cons, braceStep]
      by_cases hopen : c = '\x7b'
      · simp only [hopen, if_true] at hbalanced ⊢
        exact hbalanced
      · by_cases hclose : c = '\x7d'
        · have hdepth : depth ≠ 0 := fun hzero => hend ⟨hclose, hzero⟩
          simp only [hclose, hdepth, if_true, if_false] at hbalanced ⊢
          exact hbalanced
        · simp only [hopen, hclose, if_false] at hbalanced ⊢
          exact hbalanced

/-- A text that closes one brace more than it opens closes that brace at some place. -/
theorem exists_eq_append_of_closed {cs : List Char} {depth : Nat}
    (h : openAfter? (depth + 1) cs = some 0) :
    ∃ inside after, cs = inside ++ '\x7d' :: after ∧ openAfter? depth inside = some 0 := by
  -- By induction on the text; only a brace that closes the outermost one ends it.
  induction cs generalizing depth with
  | nil => cases h
  | cons c rest ih =>
    obtain ⟨next, hstep, hrest⟩ := Option.bind_eq_some_iff.1 h
    obtain ⟨hc, rfl⟩ | ⟨hc, hnext⟩ | ⟨hopen, hclose, rfl⟩ := braceStep_cases hstep
    · obtain ⟨inside, after, heq, hinside⟩ := ih hrest
      refine ⟨c :: inside, after, by rw [heq, List.cons_append], ?_⟩
      rw [openAfter?_cons, braceStep, if_pos hc, Option.bind_some, hinside]
    -- The brace closes the one that was open at first, or one that was opened later.
    · cases Nat.succ.inj hnext
      cases depth with
      | zero => exact ⟨[], rest, by rw [hc, List.nil_append], rfl⟩
      | succ depth =>
        obtain ⟨inside, after, heq, hinside⟩ := ih hrest
        refine ⟨c :: inside, after, by rw [heq, List.cons_append], ?_⟩
        rw [hc]
        exact hinside
    · obtain ⟨inside, after, heq, hinside⟩ := ih hrest
      refine ⟨c :: inside, after, by rw [heq, List.cons_append], ?_⟩
      rw [openAfter?_cons, braceStep, if_neg hopen, if_neg hclose, Option.bind_some, hinside]

/-- An expression is unwrapped if its first brace is closed by its last character. -/
theorem NameSelection.unwrap?_eq_some_iff {cs inside : List Char} :
    unwrap? cs = some inside ↔
      cs = '\x7b' :: (inside ++ ['\x7d']) ∧ openAfter? 0 inside = some 0 := by
  constructor
  · intro h
    rw [unwrap?.eq_def] at h
    -- The closing brace that matches the first one has to be the last character.
    split at h
    · rename_i rest
      split at h
      · rename_i hsplit
        cases h
        obtain ⟨heq, hinside⟩ := eq_append_of_splitAtClosing? hsplit
        exact ⟨by rw [heq], hinside⟩
      · cases h
    · cases h
  · rintro ⟨rfl, hinside⟩
    simp only [unwrap?, splitAtClosing?_append hinside []]

end FieldMask
