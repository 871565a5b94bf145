import PosixRegex.Slots
import PosixRegex.Text.Quoted
import PosixRegex.Text.Utf8

/-!
# Matches

What a successful search yields: a span of the text for the whole match, and one for each group that
took part in it. A group that took no part is not the same as one that matched the empty string.
-/

namespace PosixRegex

/-- A span of a text. -/
structure Span where
  /-- The text. -/
  haystack : Array UInt8
  /-- The position of the first byte. -/
  start : Nat
  /-- The position after the last byte. -/
  stop : Nat
deriving DecidableEq, Repr, Inhabited

namespace Span

/-- The number of bytes of a span. -/
def size (s : Span) : Nat := s.stop - s.start

/-- Whether a span is empty. -/
def isEmpty (s : Span) : Bool := s.start == s.stop

/-- The positions where a span starts and ends. -/
def bounds (s : Span) : Nat × Nat := (s.start, s.stop)

/-- The bytes of a span. -/
def bytes (s : Span) : List UInt8 := (s.haystack.extract s.start s.stop).toList

/-- The bytes of a span as text, if they are valid UTF-8. -/
def text? (s : Span) : Option String := Text.ofBytes? s.bytes

/-- The written form of a span: its bounds, and its text or else its bytes. -/
def describe (s : Span) : String :=
  let content :=
    match s.text? with
    | some text => "text: " ++ Text.quoted text
    | none => "bytes: [" ++ ", ".intercalate (s.bytes.map fun b => toString b.toNat) ++ "]"
  "Match \x7b " ++ s!"start: {s.start}, end: {s.stop}, " ++ content ++ " \x7d"

end Span

/-- The spans of all groups of a match, the whole match being group 0. -/
structure Match where
  /-- The text that was searched. -/
  haystack : Array UInt8
  /-- The record of the groups. -/
  slots : Slots
deriving DecidableEq, Repr, Inhabited

namespace Match

/-- The number of groups, with group 0. -/
def size (m : Match) : Nat := m.slots.length

/-- The span of a group, if it took part. -/
def group? (m : Match) (group : Nat) : Option Span :=
  (m.slots.span? group).map fun (start, stop) => ⟨m.haystack, start, stop⟩

/-- The span of the whole match. -/
def whole? (m : Match) : Option Span := m.group? 0

/-- The spans of all groups in the order of their numbers. -/
def groups (m : Match) : List (Option Span) := (List.range m.size).map m.group?

/-- The written form of the span of a group with a given number. -/
def describeGroup (index : Nat) (s : Option Span) : String :=
  toString index ++ ": " ++
    match s with
    | some s => "Some(" ++ s.describe ++ ")"
    | none => "None"

/-- The written form of all groups. -/
def describe (m : Match) : String :=
  "\x7b" ++ ", ".intercalate (m.groups.mapIdx describeGroup) ++ "\x7d"

end Match

end PosixRegex
