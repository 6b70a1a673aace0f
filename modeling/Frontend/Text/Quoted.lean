import Frontend.Text.Extender
import Frontend.Text.Printable

/-!
Quoted text, the form in which texts are shown to a reader: between double quotes, with short
escapes for the quote, the backslash and four controls, and the code point in hexadecimal for
whatever cannot be shown on its own. A single quote needs no escape.
-/

namespace Frontend.Text

/-- The code point of `c` as `\u`, a brace, lower-case hexadecimal digits and a brace. -/
def codePointEscape (c : Char) : List Char :=
  ['\\', 'u', '\x7b'] ++ Nat.toDigits 16 c.toNat ++ ['\x7d']

/-- How one character is written between the quotes. -/
def escape (c : Char) : List Char :=
  if c = '"' then ['\\', '"']
  else if c = '\\' then ['\\', '\\']
  else if c = '\n' then ['\\', 'n']
  else if c = '\t' then ['\\', 't']
  else if c = '\r' then ['\\', 'r']
  else if c = '\x00' then ['\\', '0']
  else if isExtender c || !isPrintable c then codePointEscape c
  else [c]

/-- A text between quotes, every character escaped as it needs. -/
def quote (s : String) : String :=
  String.ofList ('"' :: s.toList.flatMap escape ++ ['"'])

end Frontend.Text
