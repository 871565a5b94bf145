import PosixRegex.Grep.Selection

/-!
# What is printed

The output for the lines of one text: selected lines, or the matches in them, or just their number.
Each line of output can be preceded by the name of the text and the number of the line.
-/

namespace PosixRegex.Grep

/-- The bytes of a label that precedes a line of output. -/
def label (content : String) : List UInt8 := (content ++ ":").toUTF8.toList

/-- What precedes the output for a line: the name of the text if it is shown, and the number of the
line if it is asked for. -/
def linePrefix (s : Settings) (name : Option String) (number : Nat) : List UInt8 :=
  (name.map label).getD [] ++ if s.numbered then label (toString number) else []

/-- The output for a selected line. Only the matches that are not empty are printed alone, and an
inverted selection has none. -/
def lineReport (s : Settings) (name : Option String) (e : Examined) : List UInt8 :=
  let before := linePrefix s name e.number
  if s.countOnly then []
  else if s.matchesOnly then
    if s.invert then []
    else (e.spans.filter fun span => span.1 != span.2).flatMap fun span =>
      before ++ terminated ((e.line.drop span.1).take (span.2 - span.1))
  else before ++ terminated e.line

/-- The line of output that gives the number of selected lines. -/
def countReport (name : Option String) (selected : Nat) : List UInt8 :=
  (name.map label).getD [] ++ terminated (toString selected).toUTF8.toList

/-- What comes of searching texts. -/
structure Outcome where
  /-- The output, up to the point where the search came to its end or was given up. -/
  output : List UInt8
  /-- Whether a line was selected. -/
  selected : Bool
  /-- The error for which the search was given up. -/
  failure : Option Error
deriving DecidableEq, Repr, Inhabited

/-- Searches one text. The number of selected lines is printed only if no search failed. -/
def searchText (s : Settings) (r : Regex) (name : Option String) (text : List UInt8) : Outcome :=
  let (chosen, failure) := select s r text
  let summary :=
    if s.countOnly && failure.isNone then countReport name chosen.length else []
  ⟨chosen.flatMap (lineReport s name) ++ summary, !chosen.isEmpty, failure⟩

end PosixRegex.Grep
