import Peg.Text.Unprintable

/-!
# Quoted characters and strings

The two ways in which a rule shows the characters it stands for.

A single character is shown between apostrophes. Only the three characters that would break the
line or the columns, and the apostrophe itself, are escaped; even a backslash stands for itself.

A string is shown between double quotes. The double quote and the backslash are escaped, a few
controls have a letter of their own, and what has no glyph is written by its number.

## Main definitions

* `quotedChar` — the form of a single character
* `escaped` / `quotedString` — the form of a character within a string / the form of a string
-/

namespace Peg.Text

/-- A character between apostrophes, with tab, carriage return, line feed and apostrophe escaped. -/
def quotedChar (c : Char) : List Char :=
  '\x27' :: body ++ ['\x27']
where
  /-- What stands between the apostrophes. -/
  body : List Char :=
    match c with
    | '\t' => ['\\', 't']
    | '\r' => ['\\', 'r']
    | '\n' => ['\\', 'n']
    | '\x27' => ['\\', '\x27']
    | c => [c]

/-- The number of a character in hexadecimal, in small letters and without leading zeros. -/
def byNumber (c : Char) : List Char :=
  '\\' :: 'u' :: '\x7b' :: Nat.toDigits 16 c.toNat ++ ['\x7d']

/-- The form of a character within a string. -/
def escaped (c : Char) : List Char :=
  match c with
  | '\x00' => ['\\', '0']
  | '\t' => ['\\', 't']
  | '\r' => ['\\', 'r']
  | '\n' => ['\\', 'n']
  | '\x22' => ['\\', '\x22']
  | '\\' => ['\\', '\\']
  | c => if isUnprintable c then byNumber c else [c]

/-- A string between double quotes. -/
def quotedString (chars : List Char) : List Char :=
  '\x22' :: chars.flatMap escaped ++ ['\x22']

end Peg.Text
