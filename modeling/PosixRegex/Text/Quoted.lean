import PosixRegex.Text.Shown

/-!
# Quoted texts

A text between double quotes, in a form that shows every character. Inside the quotes, the double
quote and the backslash are marked by a backslash; tab, line feed, carriage return and the null
character have a letter or digit; visible characters stand for themselves; and any other character
is written as its code point in braces.
-/

namespace PosixRegex.Text

/-- A character by its code point. -/
def codePoint (c : Char) : List Char :=
  ['\\', 'u', '\x7b'] ++ Nat.toDigits 16 c.toNat ++ ['\x7d']

/-- A character as it appears between the quotes. -/
def quotedChar (c : Char) : List Char :=
  match c with
  | '\x00' => ['\\', '0']
  | '\t' => ['\\', 't']
  | '\r' => ['\\', 'r']
  | '\n' => ['\\', 'n']
  | '"' => ['\\', '"']
  | '\\' => ['\\', '\\']
  | c =>
    if (' ' ≤ c ∧ c ≤ '~') ∨ ('\x7f' < c ∧ isShown c) then [c] else codePoint c

/-- A text in quotes. -/
def quoted (s : String) : String :=
  String.ofList ('"' :: (s.toList.flatMap quotedChar ++ ['"']))

end PosixRegex.Text
