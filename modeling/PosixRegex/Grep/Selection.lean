import PosixRegex.Grep.Lines
import PosixRegex.Regex.Scan

/-!
# Selected lines

A line is selected when the pattern matches in it, or, under inversion, when it does not. Lines are
examined one after the other until a search fails. What is printed of a line, and whether anything
is printed at all, does not bear on which lines are selected.
-/

namespace PosixRegex.Grep

/-- What to look for in lines and what to print of them. -/
structure Settings where
  /-- Letters stand for both of their cases. -/
  ignoreCase : Bool := false
  /-- Select the lines without a match. -/
  invert : Bool := false
  /-- Print the number of selected lines, and no lines. -/
  countOnly : Bool := false
  /-- Print the matches in a line, each on a line of its own. -/
  matchesOnly : Bool := false
  /-- Print the number of a line before it. -/
  numbered : Bool := false
  /-- A match has to cover the whole line. -/
  wholeLine : Bool := false
deriving DecidableEq, Repr, Inhabited

namespace Settings

/-- The options under which the pattern is compiled. -/
def options (s : Settings) : Options := { caseInsensitive := s.ignoreCase }

/-- The matches that count in a line. Where a match has to cover the line, it is enough to look at
the first one, because it is the longest that starts at the start of the line. -/
def spans (s : Settings) (r : Regex) (line : List UInt8) : Except Error (List (Nat × Nat)) := do
  let text := line.toArray
  if s.wholeLine then
    let found ← r.firstSpan text
    return (found.toList.map Span.bounds).filter (· == (0, text.size))
  else if s.matchesOnly then
    let found ← (r.scan text).toExcept
    return found.filterMap fun m => m.whole?.map Span.bounds
  else
    let found ← r.firstSpan text
    return found.toList.map Span.bounds

end Settings

/-- A line that has been searched. -/
structure Examined where
  /-- The number of the line, counted from 1. -/
  number : Nat
  /-- The bytes of the line. -/
  line : List UInt8
  /-- The matches that count in the line. -/
  spans : List (Nat × Nat)
deriving DecidableEq, Repr, Inhabited

/-- Whether a line is selected. -/
def Examined.isSelected (s : Settings) (e : Examined) : Bool := e.spans.isEmpty == s.invert

/-- Searches lines, of which the first has a given number, up to the first search that fails. -/
def examine (s : Settings) (r : Regex) (number : Nat) :
    List (List UInt8) → List Examined × Option Error
  | [] => ([], none)
  | line :: rest =>
    match s.spans r line with
    | .error e => ([], some e)
    | .ok spans =>
      let (others, failure) := examine s r (number + 1) rest
      (⟨number, line, spans⟩ :: others, failure)

/-- The selected lines of a text, and the error that ended the search. -/
def select (s : Settings) (r : Regex) (text : List UInt8) : List Examined × Option Error :=
  let (examined, failure) := examine s r 1 (lines text)
  (examined.filter (·.isSelected s), failure)

end PosixRegex.Grep
