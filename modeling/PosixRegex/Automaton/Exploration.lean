import PosixRegex.Subject
import PosixRegex.Automaton.Basic
import PosixRegex.Automaton.ThreadSet

/-!
# States reached without consuming

From the state that a thread enters, all states that can be reached without consuming a byte are
visited depth first, and the thread's record is kept for each of them. There is one record at a
time: slots of it are overwritten on the way down and put back on the way up. The work that remains,
including each slot that has to be put back, is a list of tasks.

A state that has a thread already is visited again when the new record beats the one it has. At a
tie the earlier thread stays, unless the new one has come back, by a pass over an empty loop body,
to a state whose visit is not over, and has entered more groups.
-/

namespace PosixRegex.Automaton

/-- A piece of work that remains. -/
inductive Task where
  /-- Visit a state with the present record. -/
  | visit (id : Nat)
  /-- Put back what a slot of the record held before. -/
  | restore (slot : Nat) (value : Option Nat)
  /-- End the visit of a state. -/
  | finish (id : Nat)
deriving DecidableEq, Repr, Inhabited

/-- An exploration in progress. -/
structure Exploration where
  /-- The threads found so far. -/
  threads : ThreadSet
  /-- The record of the thread at the place that is being explored. -/
  record : Slots
  /-- For each state, how many visits of it are not over. -/
  openVisits : Array Nat
  /-- The work that remains, the next piece first. -/
  tasks : List Task
deriving Repr, Inhabited

namespace Exploration

/-- Puts tasks in front of the work that remains. -/
def schedule (e : Exploration) (tasks : List Task) : Exploration :=
  { e with tasks := tasks ++ e.tasks }

/-- The tasks that put back what slots of a record hold. -/
def restores (v : Slots) (slots : List Nat) : List Task :=
  slots.map fun slot => .restore slot (v.slot? slot)

/-- Visits a state with a record in which slots are overwritten, and puts what they hold at present
back afterwards, the last one first. -/
def divert (e : Exploration) (record : Slots) (overwritten : List Nat) (next : Nat) : Exploration :=
  { e with record, tasks := .visit next :: restores e.record overwritten.reverse ++ e.tasks }

/-- Whether the present record takes the place of the one that a state has. -/
def displaces (e : Exploration) (id : Nat) : Bool :=
  match e.record.order (e.threads.record id) with
  | .gt => true
  | .eq => 0 < e.openVisits.getD id 0 && (e.threads.record id).entered < e.record.entered
  | .lt => false

/-- Begins the visit of a state: gives it the present record and notes that the visit is not
over. -/
def begin (e : Exploration) (id : Nat) : Exploration where
  threads := e.threads.setRecord id e.record
  record := e.record
  openVisits := e.openVisits.modify id (· + 1)
  tasks := .finish id :: e.tasks

/-- Leads on from a state that is being visited. -/
def follow (subject : Subject) (pos : Nat) (e : Exploration) : State → Exploration
  | .byte _ _ | .set _ _ | .accept => e
  | .skip next => e.schedule [.visit next]
  | .branch targets => e.schedule (targets.map .visit)
  | .assertion anchor next => if subject.holds pos anchor then e.schedule [.visit next] else e
  | .enterGroup group lastNested next =>
    -- All slots of the group and of those that are forgotten with it.
    let overwritten := List.range' (2 * group) (2 * (lastNested + 1) - 2 * group)
    e.divert (e.record.enter group lastNested pos) overwritten next
  | .leaveGroup group next => e.divert (e.record.leave group pos) [2 * group + 1] next

/-- Visits a state: one without a thread gets the present record, one with a thread only if the
present record displaces its own. -/
def visit (a : Automaton) (subject : Subject) (pos : Nat) (e : Exploration) (id : Nat) :
    Exploration :=
  match a.states[id]? with
  | none => e
  | some state =>
    if e.threads.contains id then
      if e.displaces id then (e.begin id).follow subject pos state else e
    else
      ({ e with threads := e.threads.insert id }.begin id).follow subject pos state

/-- Does one piece of work. -/
def perform (a : Automaton) (subject : Subject) (pos : Nat) (e : Exploration) : Task → Exploration
  | .visit id => e.visit a subject pos id
  | .restore slot value => { e with record := e.record.setSlot slot value }
  | .finish id => { e with openVisits := e.openVisits.modify id (· - 1) }

/-- Works until no work remains, on at most as many tasks as given; `none` when work would
remain. -/
def run (a : Automaton) (subject : Subject) (pos : Nat) : Nat → Exploration → Option Exploration
  | 0, e => if e.tasks.isEmpty then some e else none
  | fuel + 1, e =>
    match e.tasks with
    | [] => some e
    | task :: tasks => run a subject pos fuel ({ e with tasks }.perform a subject pos task)

/-- As many tasks as one exploration can need. A state is visited again only for a record that has
gone round fewer of the loops around it or has entered more groups, so it is visited no more often
than the square of the number of groups allows. -/
def fuel (a : Automaton) : Nat :=
  let n := a.states.size + a.groupCount + 3
  n * n * n * n

end Exploration

end PosixRegex.Automaton
