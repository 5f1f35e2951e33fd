import FieldMask.Error
import FieldMask.NameSelection.Basic
import FieldMask.Text.Blank

/-!
# Reading selections

An expression is a list of parts between commas. A part is a name, or a name and one block in
braces that holds the expression of its selection; blank parts do not count. Names, parts and
blocks may have blanks around them, and a name may have blanks inside. A pair of braces around
the whole expression is taken off first.

* `splitAtCommas` cuts a list into parts, at the commas outside of braces.
* `readPart` takes a part apart, into its name and block.
* `NameSelection.parse` reads an expression. Of several parts with one name the last counts.

A list is read by reading the lists in its blocks, which are shorter than the list.
-/

namespace FieldMask

open Text (trim)

/-! ## Parts of a list -/

/-- Scan a list for its parts. `depth` braces are open, `start` is what has been read of the
    current part, in reverse, and `index` counts the bytes read. -/
def scanParts (body : List Char) (depth : Nat) (start : List Char) (index : Nat) :
    List Char → Except Cause (List (List Char))
  | [] =>
    if depth = 0 then .ok [start.reverse]
    else .error (.missingClosingBrace (String.ofList body))
  | c :: rest =>
    let next := index + c.utf8Size
    if c = '\x7b' then scanParts body (depth + 1) (c :: start) next rest
    else if c = '\x7d' then
      if depth = 0 then .error (.unexpectedClosingBrace index (String.ofList body))
      else scanParts body (depth - 1) (c :: start) next rest
    else if c = ',' ∧ depth = 0 then do
      return start.reverse :: (← scanParts body 0 [] next rest)
    else scanParts body depth (c :: start) next rest

/-- The parts of a list, between the commas outside of braces. Braces have to match. -/
def splitAtCommas (body : List Char) : Except Cause (List (List Char)) :=
  scanParts body 0 [] 0 body

/-! ## A single part -/

/-- A part of a list, taken apart. -/
inductive Part where
  | blank
  | bare (name : List Char)
  /-- A name and what is inside its block. -/
  | nested (name block : List Char)
deriving DecidableEq

/-- Split a text behind an opening brace at the brace that closes it: what is inside, and what
    comes after it. `depth` more braces are open. -/
def splitAtClosing? (depth : Nat) : List Char → Option (List Char × List Char)
  | [] => none
  | c :: rest =>
    if c = '\x7d' ∧ depth = 0 then some ([], rest)
    else
      let deeper := if c = '\x7b' then depth + 1 else if c = '\x7d' then depth - 1 else depth
      (splitAtClosing? deeper rest).map fun (inside, after) => (c :: inside, after)

/-- Take a trimmed part apart. -/
def splitField (part : List Char) : Except Cause Part :=
  match part.dropWhile (· != '\x7b') with
  | [] => .ok (.bare part)
  | _ :: behind =>
    let name := trim (part.takeWhile (· != '\x7b'))
    if name.isEmpty then .error (.missingFieldName (String.ofList part))
    else match splitAtClosing? 0 behind with
      | none => .error (.missingClosingBrace (String.ofList part))
      | some (block, after) =>
        if (trim after).isEmpty then .ok (.nested name block)
        else .error (.moreThanOneSpace (String.ofList part))

/-- Take a part apart. -/
def readPart (part : List Char) : Except Cause Part :=
  if (trim part).isEmpty then .ok .blank else splitField (trim part)

/-! ## Lengths

What is inside a block of a list is shorter than the list. -/

/-- No part is longer than what has been read of it and what is left to read. -/
theorem length_le_of_mem_scanParts {body : List Char} {depth : Nat} {start : List Char}
    {index : Nat} {cs : List Char} {parts : List (List Char)} {part : List Char}
    (h : scanParts body depth start index cs = .ok parts) (hp : part ∈ parts) :
    part.length ≤ start.length + cs.length := by
  induction cs generalizing depth start index parts with
  | nil =>
    simp only [scanParts] at h
    split at h
    · cases h
      simp_all
    · exact nomatch h
  -- Each character goes to the current part, or is a comma and ends it.
  | cons c rest ih =>
    simp only [scanParts] at h
    split at h
    · have := ih h hp
      simp only [List.length_cons] at *
      omega
    · split at h
      · split at h
        · exact nomatch h
        · have := ih h hp
          simp only [List.length_cons] at *
          omega
      · split at h
        · cases hr : scanParts body 0 [] (index + c.utf8Size) rest with
          | error e => rw [hr] at h; exact nomatch h
          | ok more =>
            rw [hr] at h
            cases h
            rcases List.mem_cons.1 hp with rfl | hm
            · simp only [List.length_reverse, List.length_cons]
              omega
            · have := ih hr hm
              simp only [List.length_cons, List.length_nil] at *
              omega
        · have := ih h hp
          simp only [List.length_cons] at *
          omega

/-- No part is longer than the body. -/
theorem length_le_of_mem_splitAtCommas {body : List Char} {parts : List (List Char)}
    {part : List Char} (h : splitAtCommas body = .ok parts) (hp : part ∈ parts) :
    part.length ≤ body.length := by
  simpa using length_le_of_mem_scanParts h hp

/-- What stands in braces is shorter than the text from the opening brace on. -/
theorem length_lt_of_splitAtClosing? {depth : Nat} {cs inside after : List Char}
    (h : splitAtClosing? depth cs = some (inside, after)) : inside.length < cs.length := by
  induction cs generalizing depth inside after with
  | nil => simp [splitAtClosing?] at h
  | cons c rest ih =>
    simp only [splitAtClosing?] at h
    split at h
    · cases h
      simp
    · obtain ⟨⟨i, a⟩, hi, he⟩ := Option.map_eq_some_iff.1 h
      cases he
      have := ih hi
      simp only [List.length_cons]
      omega

/-- A block is shorter than the part that it belongs to. -/
theorem length_lt_of_splitField {part name block : List Char}
    (h : splitField part = .ok (.nested name block)) : block.length < part.length := by
  simp only [splitField] at h
  split at h
  · exact nomatch h
  · rename_i c behind hd
    -- What stands behind the first brace is shorter than the part.
    have hle : behind.length < part.length := by
      have := (List.dropWhile_suffix (· != '\x7b') (l := part)).length_le
      rw [hd, List.length_cons] at this
      omega
    split at h
    · exact nomatch h
    · split at h
      · exact nomatch h
      · rename_i inside after hs
        split at h
        · cases h
          have := length_lt_of_splitAtClosing? hs
          omega
        · exact nomatch h

/-- A block is shorter than the part that it is read from. -/
theorem length_lt_of_readPart {part name block : List Char}
    (h : readPart part = .ok (.nested name block)) : block.length < part.length := by
  simp only [readPart] at h
  split at h
  · exact nomatch h
  · have := length_lt_of_splitField h
    have := Text.length_trim_le part
    omega

/-! ## Expressions -/

namespace NameSelection

/-- Read a list. A list without a named part leaves the selection open; a block of blanks is the
    empty selection. Errors inside a block carry the name in front of it. -/
def parseList (body : List Char) : Except Error NameSelection :=
  match hs : splitAtCommas body with
  | .error cause => .error (.of cause)
  | .ok parts =>
    parts.attach.foldlM (fun s ⟨part, hp⟩ =>
      match hr : readPart part with
      | .error cause => .error (.of cause)
      | .ok .blank => .ok s
      | .ok (.bare name) => .ok (s.set (String.ofList name) undefined)
      | .ok (.nested name block) =>
        have : block.length < body.length :=
          Nat.lt_of_lt_of_le (length_lt_of_readPart hr) (length_le_of_mem_splitAtCommas hs hp)
        if (trim block).isEmpty then .ok (s.set (String.ofList name) empty)
        -- Only here does reading go down, into a text that is shorter.
        else do
          let child ← within (String.ofList name) (parseList block)
          return s.set (String.ofList name) child) undefined
termination_by body.length

/-- What is inside the braces around a whole expression, if its first brace is closed by its last
    character. -/
def unwrap? (expr : List Char) : Option (List Char) :=
  match expr with
  | '\x7b' :: rest => match splitAtClosing? 0 rest with
    | some (inside, []) => some inside
    | _ => none
  | _ => none

/-- Read the characters of an expression. -/
def parseChars (expr : List Char) : Except Error NameSelection :=
  let expr := trim expr
  if expr.isEmpty then .ok undefined
  else match unwrap? expr with
    | some inside => if (trim inside).isEmpty then .ok empty else parseList inside
    | none => parseList expr

/-- Read an expression. -/
def parse (expr : String) : Except Error NameSelection := parseChars expr.toList

end NameSelection

end FieldMask
