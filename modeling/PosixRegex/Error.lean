/-!
# Errors

Everything that can go wrong while a pattern is compiled or a search is run. Each error has a fixed
message and the number that `regcomp` and `regexec` report for it; `Error.ofCode` reads such a
number back and keeps a number without a name of its own.
-/

namespace PosixRegex

/-- The causes for which a pattern is refused or a search is given up. -/
inductive Error where
  /-- The pattern is malformed in a way that no other cause describes. -/
  | badPattern
  /-- A collating symbol or an equivalence class in a bracket expression names no byte. -/
  | collation
  /-- A bracket expression names a class that does not exist. -/
  | characterClass
  /-- A backslash stands before a byte that cannot be escaped, or at the end. -/
  | escape
  /-- A back-reference refers to a group that is not closed yet. -/
  | subexpression
  /-- A bracket expression, or an item inside one, is not closed. -/
  | bracketBalance
  /-- A parenthesis has no partner. -/
  | parenthesesBalance
  /-- A `{` is not followed by any closing brace. -/
  | braceBalance
  /-- A range in a bracket expression is descending, or an end of it is a class. -/
  | range
  /-- A repetition has nothing to repeat, follows another one, or has bad bounds. -/
  | repetition
  /-- The memory allowance of a search is used up. -/
  | outOfMemory
  /-- The pattern nests too deep, or its automaton has too many states. -/
  | tooComplex
  /-- An error number without a name of its own. -/
  | unlisted (code : Int)
deriving DecidableEq, Repr, Inhabited

namespace Error

/-- The text shown for an error. -/
def message : Error → String
  | badPattern => "invalid regular expression"
  | collation => "invalid collation character"
  | characterClass => "invalid character class name"
  | escape => "invalid escape sequence"
  | subexpression => "invalid back reference"
  | bracketBalance => "unmatched [ or [^"
  | parenthesesBalance => "unmatched ( or )"
  | braceBalance => "unmatched \x7b"
  | range => "invalid range end"
  | repetition => "invalid repetition"
  | outOfMemory => "memory exhausted"
  | tooComplex => "regular expression too big"
  | unlisted code => s!"unknown regex error (code {code})"

/-- The number of an error, as `<regex.h>` counts them. -/
def code : Error → Int
  | badPattern => 2
  | collation => 3
  | characterClass => 4
  | escape => 5
  | subexpression => 6
  | bracketBalance => 7
  | parenthesesBalance => 8
  | braceBalance => 9
  | range => 11
  | outOfMemory => 12
  | repetition => 13
  | tooComplex => 15
  | unlisted code => code

/-- The error that a number stands for. Bad contents of an interval (10) and a misplaced repetition
(13) are one cause here. -/
def ofCode : Int → Error
  | 2 => badPattern
  | 3 => collation
  | 4 => characterClass
  | 5 => escape
  | 6 => subexpression
  | 7 => bracketBalance
  | 8 => parenthesesBalance
  | 9 => braceBalance
  | 10 => repetition
  | 11 => range
  | 12 => outOfMemory
  | 13 => repetition
  | 15 => tooComplex
  | code => unlisted code

/-- A number other than 10 is the number of the error it stands for. -/
theorem code_ofCode {code : Int} (h : code ≠ 10) : (ofCode code).code = code := by
  unfold ofCode
  split
  case h_9 => exact absurd rfl h
  all_goals rfl

end Error

end PosixRegex
