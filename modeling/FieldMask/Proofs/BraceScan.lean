import FieldMask.NameSelection.Parser
import FieldMask.Proofs.Trimming

/-!
# Scanning for braces and commas

What the scanners of the expression parser do to a text, in terms of the braces that are open in
front of it and behind it. `openAfter?` counts open braces; `partAfter?` does the same for a part
of a list, in which a comma has to stand inside braces.

## Key results

- `braceStep_cases`: what a single character can do
- `openAfter?_append` / `partAfter?_append`: texts are scanned one after the other
- `partAfter?_succ`: what is balanced may stand inside the braces of a part
- `splitAtCommas_intercalate`: parts joined by commas are the parts of the list
- `partAfter?_of_mem_splitAtCommas`: the parts of a list are balanced, with all commas inside braces
- `splitAtClosing?_append`: a brace behind a balanced text is the one that closes it
-/

namespace FieldMask

/-! ## Open braces -/

/-- The number of braces open behind a character. Only an open brace can be closed. -/
def braceStep (depth : Nat) (c : Char) : Option Nat :=
  if c = '\x7b' then some (depth + 1)
  else if c = '\x7d' then (if depth = 0 then none else some (depth - 1))
  else some depth

/-- The number of braces open behind a text, `none` if it closes a brace that is not open. -/
def openAfter? (depth : Nat) (cs : List Char) : Option Nat := cs.foldlM braceStep depth

/-- `braceStep` in a part of a list, where commas have to stand inside braces. -/
def partStep (depth : Nat) (c : Char) : Option Nat :=
  if c = ',' ∧ depth = 0 then none else braceStep depth c

/-- `openAfter?` for a part of a list, where commas have to stand inside braces. -/
def partAfter? (depth : Nat) (cs : List Char) : Option Nat := cs.foldlM partStep depth

/-- What a character can do to the braces: open one, close one, or leave them alone. -/
theorem braceStep_cases {depth next : Nat} {c : Char} (h : braceStep depth c = some next) :
    (c = '\x7b' ∧ next = depth + 1) ∨ (c = '\x7d' ∧ depth = next + 1) ∨
      (c ≠ '\x7b' ∧ c ≠ '\x7d' ∧ next = depth) := by
  rw [braceStep] at h
  split at h
  · rename_i hopen
    cases h
    exact .inl ⟨hopen, rfl⟩
  · rename_i hopen
    split at h
    · rename_i hclose
      split at h
      · cases h
      · cases h
        exact .inr (.inl ⟨hclose, by omega⟩)
    · rename_i hclose
      cases h
      exact .inr (.inr ⟨hopen, hclose, rfl⟩)

/-- A character goes on within a part unless it is a comma outside of braces. -/
theorem partStep_eq_some_iff {depth next : Nat} {c : Char} :
    partStep depth c = some next ↔ ¬ (c = ',' ∧ depth = 0) ∧ braceStep depth c = some next := by
  rw [partStep]
  split <;> simp_all

@[simp] theorem openAfter?_nil (depth : Nat) : openAfter? depth [] = some depth := rfl

@[simp] theorem openAfter?_cons (depth : Nat) (c : Char) (cs : List Char) :
    openAfter? depth (c :: cs) = (braceStep depth c).bind (openAfter? · cs) := rfl

@[simp] theorem openAfter?_append (depth : Nat) (as bs : List Char) :
    openAfter? depth (as ++ bs) = (openAfter? depth as).bind (openAfter? · bs) := by
  rw [openAfter?, List.foldlM_append]; rfl

@[simp] theorem partAfter?_nil (depth : Nat) : partAfter? depth [] = some depth := rfl

@[simp] theorem partAfter?_cons (depth : Nat) (c : Char) (cs : List Char) :
    partAfter? depth (c :: cs) = (partStep depth c).bind (partAfter? · cs) := rfl

@[simp] theorem partAfter?_append (depth : Nat) (as bs : List Char) :
    partAfter? depth (as ++ bs) = (partAfter? depth as).bind (partAfter? · bs) := by
  rw [partAfter?, List.foldlM_append]; rfl

/-- A character is plain if it is neither a brace nor a comma. -/
def IsPlain (c : Char) : Prop := c ≠ '\x7b' ∧ c ≠ '\x7d' ∧ c ≠ ','

instance (c : Char) : Decidable (IsPlain c) := inferInstanceAs (Decidable (_ ∧ _ ∧ _))

/-- Plain characters open and close nothing. -/
theorem partAfter?_of_plain {cs : List Char} (h : ∀ c ∈ cs, IsPlain c) (depth : Nat) :
    partAfter? depth cs = some depth := by
  -- By induction on the text: each character leaves the depth as it is.
  induction cs with
  | nil => rfl
  | cons c rest ih =>
    obtain ⟨hopen, hclose, hcomma⟩ := h c List.mem_cons_self
    have hrest := ih fun d hd => h d (List.mem_cons_of_mem c hd)
    simp [partStep, braceStep, hopen, hclose, hcomma, hrest]

/-- In front of the first brace of a part all characters are plain. -/
theorem isPlain_of_partAfter? {cs : List Char} {depth : Nat} (h : partAfter? 0 cs = some depth)
    (hopen : '\x7b' ∉ cs) : ∀ c ∈ cs, IsPlain c := by
  induction cs with
  | nil => exact fun c hc => absurd hc List.not_mem_nil
  | cons c rest ih =>
    rw [List.mem_cons, not_or] at hopen
    simp only [partAfter?_cons, partStep, braceStep, Ne.symm hopen.1, if_false] at h
    -- A closing brace or a comma would be refused here, where nothing is open.
    split at h
    · cases h
    · rename_i hcomma
      split at h
      · cases h
      · rename_i hclose
        intro d hd
        rcases List.mem_cons.1 hd with rfl | hd
        · exact ⟨Ne.symm hopen.1, hclose, fun e => hcomma ⟨e, trivial⟩⟩
        · exact ih h hopen.2 d hd

/-- A text that may stand somewhere may stand inside one more pair of braces, where its commas
    are the commas of a block. -/
theorem partAfter?_succ {cs : List Char} {depth depth' : Nat}
    (h : openAfter? depth cs = some depth') : partAfter? (depth + 1) cs = some (depth' + 1) := by
  -- By induction on the text; one more open brace in front lets every step go on.
  induction cs generalizing depth with
  | nil => cases h; rfl
  | cons c rest ih =>
    obtain ⟨next, hstep, hrest⟩ := Option.bind_eq_some_iff.1 h
    have hstep' : partStep (depth + 1) c = some (next + 1) := by
      refine partStep_eq_some_iff.2 ⟨fun h => absurd h.2 (Nat.succ_ne_zero depth), ?_⟩
      rw [braceStep]
      obtain ⟨hc, rfl⟩ | ⟨hc, rfl⟩ | ⟨hopen, hclose, rfl⟩ := braceStep_cases hstep
      · rw [if_pos hc]
      · subst hc
        rfl
      · rw [if_neg hopen, if_neg hclose]
    rw [partAfter?_cons, hstep']
    exact ih hrest

/-- The commas of a part do not matter for its braces. -/
theorem openAfter?_of_partAfter? {cs : List Char} {depth depth' : Nat}
    (h : partAfter? depth cs = some depth') : openAfter? depth cs = some depth' := by
  -- By induction on the text, as each step within a part is a step of the braces.
  induction cs generalizing depth with
  | nil => exact h
  | cons c rest ih =>
    obtain ⟨next, hstep, hrest⟩ := Option.bind_eq_some_iff.1 h
    rw [openAfter?_cons, (partStep_eq_some_iff.1 hstep).2]
    exact ih hrest

/-- Balanced parts joined by commas are balanced. -/
theorem openAfter?_intercalate {parts : List (List Char)}
    (h : ∀ part ∈ parts, partAfter? 0 part = some 0) :
    openAfter? 0 ([','].intercalate parts) = some 0 := by
  -- By induction on the parts: a comma between two of them stands outside of braces.
  induction parts with
  | nil => rfl
  | cons part more ih =>
    have hpart := openAfter?_of_partAfter? (h part List.mem_cons_self)
    have hmore := ih fun p hp => h p (List.mem_cons_of_mem part hp)
    cases more with
    | nil => rw [List.intercalate_singleton, hpart]
    | cons next more =>
      rw [List.intercalate_cons_cons, openAfter?_append, openAfter?_append, hpart]
      exact hmore

/-! ## Parts of a list -/

/-- Scanning goes on behind what belongs to the current part. -/
theorem scanParts_append (body : List Char) {part : List Char} {depth depth' : Nat}
    (h : partAfter? depth part = some depth') (start : List Char) (index : Nat)
    (rest : List Char) :
    scanParts body depth start index (part ++ rest) =
      scanParts body depth' (part.reverse ++ start)
        (part.foldl (fun n c => n + c.utf8Size) index) rest := by
  -- By induction on the part; none of its characters is a comma that would end it.
  induction part generalizing depth start index with
  | nil => cases h; rfl
  | cons c more ih =>
    obtain ⟨next, hstep, hmore⟩ := Option.bind_eq_some_iff.1 h
    have hc : scanParts body depth start index (c :: (more ++ rest)) =
        scanParts body next (c :: start) (index + c.utf8Size) (more ++ rest) := by
      obtain ⟨hcomma, hbrace⟩ := partStep_eq_some_iff.1 hstep
      rw [scanParts]
      obtain ⟨hc, rfl⟩ | ⟨hc, rfl⟩ | ⟨hopen, hclose, rfl⟩ := braceStep_cases hbrace
      · rw [if_pos hc]
      · subst hc
        rfl
      · rw [if_neg hopen, if_neg hclose, if_neg hcomma]
    rw [List.cons_append, hc, ih hmore, List.reverse_cons, List.append_assoc, List.foldl_cons]
    rfl

/-- Parts joined by commas are the parts of the list, whatever the text they are cut out of. -/
theorem scanParts_intercalate (body : List Char) {parts : List (List Char)} (hne : parts ≠ [])
    (h : ∀ part ∈ parts, partAfter? 0 part = some 0) (index : Nat) :
    scanParts body 0 [] index ([','].intercalate parts) = .ok parts := by
  -- By induction on the parts: each but the last one is completed by the comma behind it.
  induction parts generalizing index with
  | nil => exact absurd rfl hne
  | cons part more ih =>
    have hpart := h part List.mem_cons_self
    cases more with
    | nil =>
      have hscan := scanParts_append body hpart [] index []
      rw [List.append_nil] at hscan
      rw [List.intercalate_singleton, hscan]
      simp [scanParts]
    | cons next more =>
      rw [List.intercalate_cons_cons, List.append_assoc, scanParts_append body hpart,
        List.singleton_append, scanParts]
      rw [ih (List.cons_ne_nil next more) fun p hp => h p (List.mem_cons_of_mem part hp)]
      simp [bind, Except.bind, pure, Except.pure]

/-- Parts joined by commas are the parts of the list. -/
theorem splitAtCommas_intercalate {parts : List (List Char)} (hne : parts ≠ [])
    (h : ∀ part ∈ parts, partAfter? 0 part = some 0) :
    splitAtCommas ([','].intercalate parts) = .ok parts :=
  scanParts_intercalate _ hne h 0

/-- The parts that a scan finds are balanced, if what was read before is. -/
theorem partAfter?_of_mem_scanParts {body : List Char} {depth : Nat} {start : List Char}
    {index : Nat} {cs : List Char} {parts : List (List Char)} {part : List Char}
    (hstart : partAfter? 0 start.reverse = some depth)
    (h : scanParts body depth start index cs = .ok parts) (hp : part ∈ parts) :
    partAfter? 0 part = some 0 := by
  -- By induction on the text that is left. The invariant is that the current part is balanced up to
  -- the depth.
  induction cs generalizing depth start index parts with
  | nil =>
    simp only [scanParts] at h
    split at h
    · rename_i hdepth
      cases h
      rw [List.mem_singleton.1 hp, hstart, hdepth]
    · cases h
  | cons c rest ih =>
    -- A character of the current part takes what was read one step further.
    have hnext : ∀ next, partStep depth c = some next →
        partAfter? 0 (c :: start).reverse = some next := by
      intro next hstep
      rw [List.reverse_cons, partAfter?_append, hstart, Option.bind_some, partAfter?_cons, hstep]
      rfl
    simp only [scanParts] at h
    split at h
    · rename_i hc
      exact ih (hnext _ (by simp [partStep, braceStep, hc])) h hp
    · rename_i hopen
      split at h
      · rename_i hc
        split at h
        · cases h
        · rename_i hdepth
          exact ih (hnext _ (by simp [partStep, braceStep, hc, hdepth])) h hp
      · rename_i hclose
        -- A comma outside of braces completes the part, and the next one starts with nothing read.
        split at h
        · rename_i hc
          cases hr : scanParts body 0 [] (index + c.utf8Size) rest with
          | error e => rw [hr] at h; cases h
          | ok more =>
            rw [hr] at h
            cases h
            rcases List.mem_cons.1 hp with rfl | hm
            · rw [hstart, hc.2]
            · exact ih rfl hr hm
        · rename_i hcomma
          exact ih (hnext _ (by rw [partStep, if_neg hcomma, braceStep, if_neg hopen,
            if_neg hclose])) h hp

/-- The parts of a list are balanced, and their commas stand inside braces. -/
theorem partAfter?_of_mem_splitAtCommas {body : List Char} {parts : List (List Char)}
    {part : List Char} (h : splitAtCommas body = .ok parts) (hp : part ∈ parts) :
    partAfter? 0 part = some 0 :=
  partAfter?_of_mem_scanParts rfl h hp

/-! ## Blocks -/

/-- A closing brace behind a text that closes all it opens is the one that is looked for. -/
theorem splitAtClosing?_append {inside : List Char} {depth : Nat}
    (h : openAfter? depth inside = some 0) (after : List Char) :
    splitAtClosing? depth (inside ++ '\x7d' :: after) = some (inside, after) := by
  -- By induction on the text inside, with the braces open in front of it.
  induction inside generalizing depth with
  | nil =>
    cases h
    simp [splitAtClosing?]
  | cons c rest ih =>
    obtain ⟨next, hstep, hrest⟩ := Option.bind_eq_some_iff.1 h
    have hmore := ih hrest
    rw [List.cons_append, splitAtClosing?]
    obtain ⟨hc, rfl⟩ | ⟨hc, rfl⟩ | ⟨hopen, hclose, rfl⟩ := braceStep_cases hstep
    · simp [hc, hmore]
    · simp [hc, hmore]
    · simp [hopen, hclose, hmore]

end FieldMask
