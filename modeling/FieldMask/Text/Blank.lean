/-!
# Blank characters and trimming

Names and expressions are trimmed of blank characters: those with the Unicode property
White_Space, of which there are twenty-five.

* `trim_eq_nil_iff`: a text is trimmed away exactly if all of it is blank.
* `length_trim_le`: trimming never lengthens a text.
-/

namespace FieldMask.Text

/-- The Unicode property White_Space. -/
def isBlank (c : Char) : Bool :=
  let n := c.toNat
  (0x09 ≤ n && n ≤ 0x0D) || n == 0x20 || n == 0x85 || n == 0xA0 || n == 0x1680 ||
    (0x2000 ≤ n && n ≤ 0x200A) || n == 0x2028 || n == 0x2029 || n == 0x202F || n == 0x205F ||
    n == 0x3000

/-- Drop blank characters at the start. -/
def trimStart (cs : List Char) : List Char := cs.dropWhile isBlank

/-- Drop blank characters at the end. -/
def trimEnd (cs : List Char) : List Char := (trimStart cs.reverse).reverse

/-- Drop blank characters at both ends. -/
def trim (cs : List Char) : List Char := trimEnd (trimStart cs)

/-- `trim` on strings. -/
def trimmed (s : String) : String := String.ofList (trim s.toList)

/-! ## Small facts on trimming -/

/-- Trimming at the start leaves an end of the text. -/
theorem trimStart_suffix (cs : List Char) : trimStart cs <:+ cs := List.dropWhile_suffix _

/-- Trimming at the start makes a text no longer. -/
theorem length_trimStart_le (cs : List Char) : (trimStart cs).length ≤ cs.length :=
  (trimStart_suffix cs).length_le

/-- Trimming makes a text no longer. -/
theorem length_trim_le (cs : List Char) : (trim cs).length ≤ cs.length := by
  have h₁ := length_trimStart_le (trimStart cs).reverse
  have h₂ := length_trimStart_le cs
  simp only [List.length_reverse] at h₁
  simp only [trim, trimEnd, List.length_reverse]
  omega

/-- Nothing is left of texts of blanks, and only of these. -/
theorem trimStart_eq_nil_iff {cs : List Char} :
    trimStart cs = [] ↔ ∀ c ∈ cs, isBlank c = true := by
  induction cs with
  | nil => simp [trimStart]
  | cons c rest ih =>
    by_cases hc : isBlank c = true
    · rw [trimStart, List.dropWhile_cons, if_pos hc, ← trimStart, ih]
      simp [hc]
    · simp [trimStart, hc]

/-- What `trimStart` leaves does not begin with a blank character. -/
theorem isBlank_eq_false_of_trimStart_eq_cons {cs rest : List Char} {c : Char}
    (h : trimStart cs = c :: rest) : isBlank c = false := by
  have hd := List.head?_dropWhile_not isBlank cs
  rw [show List.dropWhile isBlank cs = c :: rest from h] at hd
  simpa using hd

/-- A text is trimmed away exactly if all of it is blank. -/
theorem trim_eq_nil_iff {cs : List Char} : trim cs = [] ↔ ∀ c ∈ cs, isBlank c = true := by
  rw [trim, trimEnd, List.reverse_eq_nil_iff, trimStart_eq_nil_iff]
  constructor
  · intro h
    cases hs : trimStart cs with
    | nil => exact trimStart_eq_nil_iff.1 hs
    | cons c rest =>
      have hc := h c (by simp [hs])
      rw [isBlank_eq_false_of_trimStart_eq_cons hs] at hc
      exact absurd hc Bool.false_ne_true
  · intro h c hc
    exact h c ((trimStart_suffix cs).subset (List.mem_reverse.1 hc))

end FieldMask.Text
