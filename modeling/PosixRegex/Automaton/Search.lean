import PosixRegex.Automaton.Exploration

/-!
# Search by simulation

All threads of an automaton advance over the text together, one byte at a time. A thread that
reaches the accepting state has found a match; the best match is kept, and threads that started
later are given up. Since a thread begins at every position until a match is known, the match that
is kept at the end is the leftmost one, and the longest of those.
-/

namespace PosixRegex.Automaton

/-- A simulation between two bytes. -/
structure Simulation where
  /-- The threads at the present position. -/
  current : ThreadSet
  /-- Room for the threads at the next position. -/
  spare : ThreadSet
  /-- For each state, how many visits of it are not over; there are none between two bytes. -/
  openVisits : Array Nat
  /-- The best match so far. -/
  best : Option Slots
deriving Repr, Inhabited

/-- Adds the threads that a thread with a given record leads to when it enters a state at a
position. -/
def addThread (a : Automaton) (subject : Subject) (pos : Nat) (threads : ThreadSet)
    (openVisits : Array Nat) (id : Nat) (record : Slots) : Option (ThreadSet × Array Nat) :=
  let begun : Exploration := ⟨threads, record, openVisits, [.visit id]⟩
  match begun.run a subject pos (Exploration.fuel a) with
  | some e => some (e.threads, e.openVisits)
  | none => none

/-- Whether a thread started later than the best match. -/
def isLate (best : Option Slots) (record : Slots) : Bool :=
  match best.bind Slots.start?, record.start? with
  | some first, some start => first < start
  | _, _ => false

/-- Advances the thread in one state over a byte into a position. -/
def advanceThread (a : Automaton) (subject : Subject) (pos : Nat) (b : UInt8) (best : Option Slots)
    (current : ThreadSet) (next : ThreadSet × Array Nat) (id : Nat) :
    Option (ThreadSet × Array Nat) :=
  match a.states[id]?.bind (State.step? b) with
  | none => some next
  | some target =>
    if isLate best (current.record id) then some next
    else addThread a subject pos next.1 next.2 target (current.record id)

namespace Simulation

/-- A simulation that has not begun. -/
def init (a : Automaton) : Simulation where
  current := .empty a.states.size a.slotCount
  spare := .empty a.states.size a.slotCount
  openVisits := Array.replicate a.states.size 0
  best := none

/-- Begins a thread at a position, unless a match is known. -/
def seed (a : Automaton) (subject : Subject) (pos : Nat) (s : Simulation) : Option Simulation :=
  match s with
  | ⟨current, spare, openVisits, none⟩ =>
    match addThread a subject pos current openVisits a.start (.initial a.groupCount pos) with
    | some (current, openVisits) => some ⟨current, spare, openVisits, none⟩
    | none => none
  | s => some s

/-- Takes the match that ends at a position, if there is one and it beats the best so far. -/
def harvest (a : Automaton) (pos : Nat) (s : Simulation) : Simulation :=
  if s.current.contains a.accept then
    let found := (s.current.record a.accept).leave 0 pos
    if s.best.all found.beats then { s with best := some found } else s
  else
    s

/-- Whether nothing that is still to come can change the outcome. -/
def isSettled (s : Simulation) : Bool := s.current.isEmpty && s.best.isSome

/-- Advances all threads over a byte into a position. -/
def advance (a : Automaton) (subject : Subject) (pos : Nat) (b : UInt8) (s : Simulation) :
    Option Simulation :=
  match s with
  | ⟨current, spare, openVisits, best⟩ =>
    match current.dense.foldlM (advanceThread a subject pos b best current) (spare, openVisits) with
    | some (next, openVisits) => some ⟨next, current.clear, openVisits, best⟩
    | none => none

/-- Runs a simulation over the bytes that remain before the end of the text; the position is told by
their number. The outcome is the record of the best match. -/
def run (a : Automaton) (subject : Subject) : (remaining : Nat) → Simulation → Option (Option Slots)
  | 0, s => (s.seed a subject subject.size).map fun s => (s.harvest a subject.size).best
  | remaining + 1, s => do
    let pos := subject.size - (remaining + 1)
    let s := (← s.seed a subject pos).harvest a pos
    -- Without threads nothing more can be found, and no new ones begin once a match is known.
    if s.isSettled then return s.best
    match subject.byteAt? pos with
    | none => return s.best
    | some b => run a subject remaining (← s.advance a subject (pos + 1) b)

end Simulation

/-- The record of the leftmost-longest match that starts at a given position or later. The outer
option is `none` when an exploration does not come to its end. -/
def search (a : Automaton) (subject : Subject) (start : Nat) : Option (Option Slots) :=
  if subject.size < start then some none
  else Simulation.run a subject (subject.size - start) (Simulation.init a)

end PosixRegex.Automaton
