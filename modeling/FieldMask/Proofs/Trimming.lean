import FieldMask.Text.Blank
import Mathlib.Data.List.TakeWhile

/-!
# Trimmed texts

A text is trimmed if neither its first nor its last character is blank, which is when `trim`
leaves it alone. Blanks around a text do not change what it is trimmed to.

## Key results

- `trim_eq_self_iff`: `trim` leaves exactly the texts alone that have no blank at either end
- `trim_trim`: what `trim` leaves is trimmed
- `trim_append_left` / `trim_append_right`: blanks around a text do not count
- `exists_eq_append_trim`: a text is what `trim` leaves of it, with blanks around
-/

namespace FieldMask.Text

/-! ## Trimming at the start -/

/-- `trimStart` leaves exactly the texts alone that do not begin with a blank. -/
theorem trimStart_eq_self_iff {cs : List Char} :
    trimStart cs = cs ↔ ∀ c ∈ cs.head?, isBlank c = false := by
  cases cs with
  | nil => simp [trimStart]
  | cons c rest =>
    constructor
    · intro h x hx
      cases hx
      exact isBlank_eq_false_of_trimStart_eq_cons h
    · intro h
      have hc : isBlank c = false := h c rfl
      simp [trimStart, hc]

/-- Blanks at the start do not change what `trimStart` leaves. -/
theorem trimStart_append_left {pre cs : List Char} (h : ∀ c ∈ pre, isBlank c = true) :
    trimStart (pre ++ cs) = trimStart cs := by
  rw [trimStart, List.dropWhile_append_of_pos h, trimStart]

/-- A text that keeps some of its characters keeps all that stand behind them. -/
theorem trimStart_append_right {cs : List Char} (post : List Char) (h : trimStart cs ≠ []) :
    trimStart (cs ++ post) = trimStart cs ++ post := by
  have hne : (cs.dropWhile isBlank).isEmpty = false := by
    rw [List.isEmpty_eq_false_iff]; exact h
  rw [trimStart, List.dropWhile_append, hne, trimStart]
  rfl

/-! ## Trimming at the end -/

/-- `trimEnd` leaves exactly the texts alone that do not end with a blank. -/
theorem trimEnd_eq_self_iff {cs : List Char} :
    trimEnd cs = cs ↔ ∀ c ∈ cs.getLast?, isBlank c = false := by
  rw [trimEnd, List.reverse_eq_iff, trimStart_eq_self_iff, List.head?_reverse]

/-- What `trimEnd` leaves is the beginning of the text. -/
theorem trimEnd_prefix_self (cs : List Char) : trimEnd cs <+: cs := by
  rw [← List.reverse_suffix, trimEnd, List.reverse_reverse]
  exact trimStart_suffix cs.reverse

/-- What `trimEnd` leaves does not end with a blank. -/
theorem isBlank_getLast?_trimEnd (cs : List Char) :
    ∀ c ∈ (trimEnd cs).getLast?, isBlank c = false := by
  intro c hc
  rw [trimEnd, List.getLast?_reverse] at hc
  -- What is left of the reverse does not begin with a blank, and its first character is the last
  -- one here.
  cases hs : trimStart cs.reverse with
  | nil => rw [hs] at hc; cases hc
  | cons d rest =>
    rw [hs] at hc
    cases hc
    exact isBlank_eq_false_of_trimStart_eq_cons hs

/-! ## Trimming at both ends -/

/-- What `trim` leaves does not begin with a blank. -/
theorem isBlank_head?_trim (cs : List Char) : ∀ c ∈ (trim cs).head?, isBlank c = false := by
  intro c hc
  -- Trimming at the end keeps the first character, unless nothing is left.
  have hp : trim cs <+: trimStart cs := trimEnd_prefix_self (trimStart cs)
  cases ht : trim cs with
  | nil => rw [ht] at hc; cases hc
  | cons d rest =>
    rw [ht] at hc hp
    cases hc
    obtain ⟨more, hm⟩ := hp
    exact isBlank_eq_false_of_trimStart_eq_cons hm.symm

/-- `trim` leaves exactly the texts alone that have no blank at either end. -/
theorem trim_eq_self_iff {cs : List Char} :
    trim cs = cs ↔
      (∀ c ∈ cs.head?, isBlank c = false) ∧ ∀ c ∈ cs.getLast?, isBlank c = false := by
  constructor
  -- A trimmed text has no blank at its ends, so a text that is left as it is has none.
  · intro h
    have hl := isBlank_getLast?_trimEnd (trimStart cs)
    rw [show trimEnd (trimStart cs) = cs from h] at hl
    exact ⟨h ▸ isBlank_head?_trim cs, hl⟩
  · rintro ⟨hh, hl⟩
    rw [trim, trimStart_eq_self_iff.2 hh, trimEnd_eq_self_iff.2 hl]

/-- What `trim` leaves is trimmed. -/
@[simp] theorem trim_trim (cs : List Char) : trim (trim cs) = trim cs :=
  trim_eq_self_iff.2 ⟨isBlank_head?_trim cs, isBlank_getLast?_trimEnd (trimStart cs)⟩

/-- Blanks in front of a text do not count. -/
theorem trim_append_left {pre cs : List Char} (h : ∀ c ∈ pre, isBlank c = true) :
    trim (pre ++ cs) = trim cs := by
  rw [trim, trimStart_append_left h, trim]

/-- Blanks behind a text do not count. -/
theorem trim_append_right {cs post : List Char} (h : ∀ c ∈ post, isBlank c = true) :
    trim (cs ++ post) = trim cs := by
  by_cases hs : trimStart cs = []
  · -- Then the text is blank, and so is the longer one.
    have hcs := trimStart_eq_nil_iff.1 hs
    rw [trim_eq_nil_iff.2 hcs, trim_eq_nil_iff]
    intro c hc
    rcases List.mem_append.1 hc with hc | hc
    · exact hcs c hc
    · exact h c hc
  · rw [trim, trimStart_append_right post hs, trim, trimEnd, List.reverse_append,
      trimStart_append_left (fun c hc => h c (List.mem_reverse.1 hc)), trimEnd]

/-- A space is a blank. -/
theorem isBlank_of_mem_space (c : Char) (h : c ∈ [' ']) : isBlank c = true := by
  rw [List.mem_singleton.1 h]
  rfl

/-- A space in front of a text does not count. -/
theorem trim_space_cons (cs : List Char) : trim (' ' :: cs) = trim cs := by
  rw [← List.singleton_append, trim_append_left isBlank_of_mem_space]

/-- A space behind a text does not count. -/
theorem trim_concat_space (cs : List Char) : trim (cs ++ [' ']) = trim cs :=
  trim_append_right isBlank_of_mem_space

/-- A text is what `trim` leaves of it, with blanks around. -/
theorem exists_eq_append_trim (cs : List Char) :
    ∃ pre post, cs = pre ++ trim cs ++ post ∧
      (∀ c ∈ pre, isBlank c = true) ∧ ∀ c ∈ post, isBlank c = true := by
  -- The end of a text is the start of its reverse.
  have hstart := List.takeWhile_append_dropWhile (p := isBlank) (l := cs)
  have hend := List.takeWhile_append_dropWhile (p := isBlank) (l := (trimStart cs).reverse)
  refine ⟨cs.takeWhile isBlank, ((trimStart cs).reverse.takeWhile isBlank).reverse, ?_, ?_, ?_⟩
  -- Reversing twice gives the text without its blanks in front, cut into what `trim` leaves and the
  -- rest.
  · have hrev := congrArg List.reverse hend
    rw [List.reverse_append, List.reverse_reverse] at hrev
    rw [List.append_assoc, trim, trimEnd, trimStart.eq_1 (trimStart cs).reverse, hrev]
    exact hstart.symm
  · exact fun c hc => List.mem_takeWhile_imp hc
  · exact fun c hc => List.mem_takeWhile_imp (List.mem_reverse.1 hc)

/-- What `trim` leaves is a part of the text. -/
theorem mem_of_mem_trim {cs : List Char} {c : Char} (h : c ∈ trim cs) : c ∈ cs :=
  (trimStart_suffix cs).subset ((trimEnd_prefix_self (trimStart cs)).subset h)

end FieldMask.Text
