import FieldMask.Number.Literal

/-!
# JSON tokens

A JSON text is first split into tokens, one character at a time. The scanner is between tokens,
in a word or in a string; a word is a number literal or one of `null`, `true` and `false`. What
is no token becomes `Token.invalid`, so that scanning never fails.
-/

namespace FieldMask

/-- A token of a JSON text. -/
inductive Token where
  | openBrace
  | closeBrace
  | openBracket
  | closeBracket
  | colon
  | comma
  | null
  | bool (b : Bool)
  | number (n : Number)
  | string (s : String)
  /-- Text that is no token. -/
  | invalid

namespace Token

/-- Where the scanner stands inside an escape sequence of a string. -/
inductive Escape where
  /-- Outside of any. -/
  | none
  /-- Behind a backslash. -/
  | backslash
  /-- Behind `\u` and some of its four digits; `high` is the first half of a surrogate pair. -/
  | hex (high : Option Nat) (digits value : Nat)
  /-- Behind the first half of a surrogate pair. -/
  | pair (high : Nat)
  /-- Behind the first half of a surrogate pair and a backslash. -/
  | pairBackslash (high : Nat)

/-- Where the scanner stands. Characters of an unfinished token are kept in reverse. -/
inductive Mode where
  | between
  | word (read : List Char)
  | string (read : List Char) (escape : Escape)

/-- The token of a word. -/
def ofWord (cs : List Char) : Token :=
  if cs = ['n', 'u', 'l', 'l'] then null
  else if cs = ['t', 'r', 'u', 'e'] then bool true
  else if cs = ['f', 'a', 'l', 's', 'e'] then bool false
  else match Number.ofText? cs with
    | some n => number n
    | none => invalid

/-- The token of a single character. -/
def ofChar? (c : Char) : Option Token :=
  if c = '\x7b' then some openBrace
  else if c = '\x7d' then some closeBrace
  else if c = '[' then some openBracket
  else if c = ']' then some closeBracket
  else if c = ':' then some colon
  else if c = ',' then some comma
  else none

/-- Whether a character may stand between tokens. -/
def isSpace (c : Char) : Bool := c == ' ' || c == '\n' || c == '\t' || c == '\r'

/-- The value of a hexadecimal digit of either case. -/
def hexValue? (c : Char) : Option Nat :=
  let n := c.toNat
  if '0'.toNat ≤ n ∧ n ≤ '9'.toNat then some (n - '0'.toNat)
  else if 'a'.toNat ≤ n ∧ n ≤ 'f'.toNat then some (n - 'a'.toNat + 10)
  else if 'A'.toNat ≤ n ∧ n ≤ 'F'.toNat then some (n - 'A'.toNat + 10)
  else none

/-- The character of a backslash escape of one letter. -/
def unescape? (c : Char) : Option Char :=
  match c with
  | '"' => some '"'
  | '\\' => some '\\'
  | '/' => some '/'
  | 'b' => some '\x08'
  | 'f' => some '\x0c'
  | 'n' => some '\n'
  | 'r' => some '\r'
  | 't' => some '\t'
  | _ => Option.none

/-- The scanner between tokens, at a character: the tokens it ends, and where it goes. -/
def startAt (c : Char) : List Token × Mode :=
  if isSpace c then ([], .between)
  else if c = '"' then ([], .string [] .none)
  else match ofChar? c with
    | some token => ([token], .between)
    | none => ([], .word [c])

/-- The scanner behind the four digits of `\u`: a surrogate has to be one of a pair. -/
def codeUnit? (read : List Char) (high : Option Nat) (value : Nat) :
    Option (List Char × Escape) :=
  match high with
  | none =>
    if 0xDC00 ≤ value ∧ value < 0xE000 then none
    else if 0xD800 ≤ value ∧ value < 0xDC00 then some (read, .pair value)
    else some (Char.ofNat value :: read, .none)
  | some high =>
    if 0xDC00 ≤ value ∧ value < 0xE000 then
      some (Char.ofNat (0x10000 + (high - 0xD800) * 0x400 + (value - 0xDC00)) :: read, .none)
    else none

/-- The scanner inside a string, at a character. `none` if no string goes on like this. -/
def stringStep? (read : List Char) (escape : Escape) (c : Char) : Option (List Char × Escape) :=
  match escape with
  | .none =>
    if c = '\\' then some (read, .backslash)
    else if c.toNat < 0x20 then none
    else some (c :: read, .none)
  | .backslash =>
    if c = 'u' then some (read, .hex none 0 0)
    else (unescape? c).map fun e => (e :: read, .none)
  | .hex high digits value =>
    match hexValue? c with
    | some d =>
      if digits = 3 then codeUnit? read high (16 * value + d)
      else some (read, .hex high (digits + 1) (16 * value + d))
    | none => none
  | .pair high => if c = '\\' then some (read, .pairBackslash high) else none
  | .pairBackslash high => if c = 'u' then some (read, .hex (some high) 0 0) else none

/-- The tokens of a text, the scanner standing in a mode. -/
def scan : Mode → List Char → List Token
  | .between, [] => []
  | .word read, [] => [ofWord read.reverse]
  | .string .., [] => [invalid]
  | .between, c :: rest =>
    let (ended, mode) := startAt c
    ended ++ scan mode rest
  -- A word ends where something else begins.
  | .word read, c :: rest =>
    if isSpace c || c = '"' || (ofChar? c).isSome then
      let (ended, mode) := startAt c
      ofWord read.reverse :: (ended ++ scan mode rest)
    else scan (.word (c :: read)) rest
  | .string read .none, '"' :: rest =>
    string (String.ofList read.reverse) :: scan .between rest
  | .string read escape, c :: rest =>
    match stringStep? read escape c with
    | some (read, escape) => scan (.string read escape) rest
    -- What follows a broken string cannot be told from what is inside it.
    | none => [invalid]

end Token

end FieldMask
