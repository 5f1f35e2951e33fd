import FieldMask.Text.Unprintable

/-!
# Quoted text

Text between double quotes, as messages show a name that may hold anything. Quotes, backslashes
and the usual control characters have short escapes; other characters without a visible form are
written by their code point, as in `\u{200b}`.
-/

namespace FieldMask.Text

/-- The escape of a character in quoted text, or the character itself. -/
def quotedChar (c : Char) : List Char :=
  match c with
  | '\x00' => ['\\', '0']
  | '\t' => ['\\', 't']
  | '\r' => ['\\', 'r']
  | '\n' => ['\\', 'n']
  | '\\' => ['\\', '\\']
  | '"' => ['\\', '"']
  | c =>
    if isUnprintable c then
      ['\\', 'u', '\x7b'] ++ Nat.toDigits 16 c.toNat ++ ['\x7d']
    else [c]

/-- A text between double quotes, with escapes. -/
def quoted (s : String) : String :=
  String.ofList ('"' :: s.toList.flatMap quotedChar ++ ['"'])

/-- A text between double quotes, as it is. -/
def inQuotes (s : String) : String := "\"" ++ s ++ "\""

end FieldMask.Text
