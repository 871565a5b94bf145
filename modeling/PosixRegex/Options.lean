/-!
# Options

The settings that go into compiling a pattern, and those that are given with each search.
-/

namespace PosixRegex

/-- Settings of a compiled pattern. -/
structure Options where
  /-- Letters stand for both of their cases. -/
  caseInsensitive : Bool := false
  /-- A line feed separates lines: the anchors hold at every line, and neither `.` nor a negated
  bracket expression matches a line feed. -/
  newline : Bool := false
  /-- The greatest number of states that an automaton may have. -/
  stateLimit : Nat := 100000
  /-- The greatest number of candidates that matching with back-references may produce from one
  start position. -/
  candidateLimit : Nat := 1000000
deriving DecidableEq, Repr, Inhabited

/-- Settings of one search. -/
structure SearchFlags where
  /-- The start of the text is not the start of a line. -/
  notBol : Bool := false
  /-- The end of the text is not the end of a line. -/
  notEol : Bool := false
deriving DecidableEq, Repr, Inhabited

end PosixRegex
