import PosixRegex.Regex.Basic

/-!
# Successive matches

The matches in a text one after the other, without overlaps. The search for the next match starts at
the end of a match, or one byte further when the match is empty. It ends after the last match and
after an error.
-/

namespace PosixRegex

/-- A search for successive matches. -/
structure Scan where
  /-- The pattern searched for. -/
  regex : Regex
  /-- The text searched. -/
  haystack : Array UInt8
  /-- The position where the search goes on; `none` once it has ended. -/
  cursor : Option Nat
deriving Repr, Inhabited

/-- The search for all matches in a text, from its start. -/
def Regex.scan (r : Regex) (haystack : Array UInt8) : Scan := ⟨r, haystack, some 0⟩

namespace Scan

/-- The position after a match where the search goes on. -/
def resume (s : Span) : Nat := if s.isEmpty then s.stop + 1 else s.stop

/-- The next match, or the error that ends the search; `none` once it has ended. -/
def next (s : Scan) : Option (Except Error Match) × Scan :=
  match s.cursor with
  | none => (none, s)
  | some start =>
    match s.regex.matchFrom s.haystack start {} with
    | .error e => (some (.error e), { s with cursor := none })
    | .ok none => (none, { s with cursor := none })
    | .ok (some found) =>
      -- After an empty match at the very end there is no position left.
      let cursor := found.whole?.bind fun span =>
        if resume span ≤ s.haystack.size then some (resume span) else none
      (some (.ok found), { s with cursor })

/-- The matches that are left, at most as many as given, and the search after them. -/
def take (s : Scan) : Nat → List (Except Error Match) × Scan
  | 0 => ([], s)
  | n + 1 =>
    match s.next with
    | (none, s) => ([], s)
    | (some found, s) =>
      let (others, s) := s.take n
      (found :: others, s)

/-- As many matches as a search can yield: no two searches start at the same position, and a text of
`n` bytes has `n + 1` positions. -/
def bound (s : Scan) : Nat := s.haystack.size + 1

/-- All matches that are left. -/
def toList (s : Scan) : List (Except Error Match) := (s.take s.bound).1

/-- All matches that are left, or the error that ends the search. -/
def toExcept (s : Scan) : Except Error (List Match) := s.toList.mapM id

end Scan

end PosixRegex
