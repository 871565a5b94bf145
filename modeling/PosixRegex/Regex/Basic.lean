import PosixRegex.Expr.Parser
import PosixRegex.Expr.Candidates
import PosixRegex.Automaton.Search
import PosixRegex.Engine
import PosixRegex.Match

/-!
# Regular expressions

A pattern is compiled once and can then be searched for in any number of texts. A search looks at
the whole text, also when it starts further on, so `^` and `$` do not depend on where it starts.
-/

namespace PosixRegex

/-- A compiled pattern. -/
structure Regex where
  /-- The pattern as written. -/
  pattern : List UInt8
  /-- The options it was compiled with. -/
  options : Options
  /-- What a search runs. -/
  engine : Engine
deriving Repr, Inhabited

namespace Regex

/-- Compiles a pattern. -/
def compile (pattern : List UInt8) (options : Options) : Except Error Regex := do
  let t ← Expr.parse pattern
  let engine ← Engine.ofExpr options t
  return ⟨pattern, options, engine⟩

/-- The number of groups. -/
def groupCount (r : Regex) : Nat := r.engine.groupCount

/-- The automaton of a pattern without back-references. -/
def automaton? (r : Regex) : Option Automaton :=
  match r.engine with
  | .automaton a => some a
  | .enumeration _ => none

/-- The record of the leftmost-longest match that starts at a given position or later. A simulation
that is cut short counts as one that has used up its memory. -/
def search (r : Regex) (haystack : Array UInt8) (start : Nat) (flags : SearchFlags) :
    Except Error (Option Slots) :=
  let subject : Subject := ⟨haystack, r.options, flags⟩
  match r.engine with
  | .automaton a =>
    match a.search subject start with
    | some found => .ok found
    | none => .error .outOfMemory
  | .enumeration t => t.search subject start

/-- The leftmost-longest match that starts at a given position or later; `none` when there is none,
as when the position lies past the end. -/
def matchFrom (r : Regex) (haystack : Array UInt8) (start : Nat) (flags : SearchFlags) :
    Except Error (Option Match) := do
  return (← r.search haystack start flags).map fun slots => ⟨haystack, slots⟩

/-- The first match in a text. -/
def firstMatch (r : Regex) (haystack : Array UInt8) : Except Error (Option Match) :=
  r.matchFrom haystack 0 {}

/-- The span of the first match in a text. -/
def firstSpan (r : Regex) (haystack : Array UInt8) : Except Error (Option Span) := do
  return (← r.firstMatch haystack).bind Match.whole?

/-- Whether there is a match in a text. -/
def occursIn (r : Regex) (haystack : Array UInt8) : Except Error Bool := do
  return (← r.firstMatch haystack).isSome

/-- The pattern as text. -/
def text (r : Regex) : String := Text.ofBytesLossy r.pattern

/-- The written form of a compiled pattern. -/
def describe (r : Regex) : String := "Regex(" ++ Text.quoted r.text ++ ")"

end Regex

end PosixRegex
