import PosixRegex.Expr.Leaf

/-!
# Automata

A nondeterministic automaton over bytes with one start state and one accepting state. Two kinds of
states consume a byte; the others lead on without consuming, and on the way they record a position
for a group, test an anchor, or branch.
-/

namespace PosixRegex

namespace Automaton

/-- A state of an automaton. States are named by their number. -/
inductive State where
  /-- Consumes one given byte. -/
  | byte (b : UInt8) (next : Nat)
  /-- Consumes one byte of a set. -/
  | set (bytes : ByteSet) (next : Nat)
  /-- Leads to several states; of two that fare equally well the earlier one is preferred. -/
  | branch (targets : List Nat)
  /-- Enters a group. The groups inside it, which are numbered up to `lastNested`, are forgotten, so
  that none keeps a span from an earlier pass. -/
  | enterGroup (group lastNested next : Nat)
  /-- Leaves a group. -/
  | leaveGroup (group next : Nat)
  /-- Leads on where an anchor holds. -/
  | assertion (anchor : Anchor) (next : Nat)
  /-- Leads on. -/
  | skip (next : Nat)
  /-- Accepts what has been consumed. -/
  | accept
deriving DecidableEq, Repr, Inhabited

namespace State

/-- The states that a state leads to. -/
def successors : State → List Nat
  | byte _ next | set _ next | enterGroup _ _ next | leaveGroup _ next | assertion _ next
  | skip next => [next]
  | branch targets => targets
  | accept => []

/-- The state that consumes a byte of a set; a set of one byte is tested by comparison. -/
def consume (s : ByteSet) (next : Nat) : State :=
  match s.single? with
  | some b => byte b next
  | none => set s next

/-- The state to go to after reading a byte; `none` when the state does not consume that byte. -/
def step? (b : UInt8) : State → Option Nat
  | byte a next => if a = b then some next else none
  | set s next => if s.contains b then some next else none
  | _ => none

end State

end Automaton

/-- An automaton. -/
structure Automaton where
  /-- The states; a state's number is its index. -/
  states : Array Automaton.State
  /-- The state where every run begins. -/
  start : Nat
  /-- The accepting state. -/
  accept : Nat
  /-- The number of groups. -/
  groupCount : Nat
deriving DecidableEq, Repr, Inhabited

namespace Automaton

/-- The number of slots that record the spans of all groups and of the whole match: a start and an
end for each. -/
def slotCount (a : Automaton) : Nat := 2 * (a.groupCount + 1)

/-- Marks all states that can be reached from those on a stack. A state that is marked already, or a
number that names no state, is passed over. -/
def mark (a : Automaton) (seen : Array Bool) : List Nat → Array Bool
  | [] => seen
  | id :: stack =>
    if h : ∃ _ : id < seen.size, seen[id] = false then
      mark a (seen.set id true h.1) ((a.states[id]?.map State.successors).getD [] ++ stack)
    else
      mark a seen stack
termination_by stack => (seen.count false, stack.length)
decreasing_by
  · apply Prod.Lex.left
    obtain ⟨hid, h⟩ := h
    have hpos : 0 < seen.count false := Array.count_pos_iff.2 (h ▸ Array.getElem_mem hid)
    rw [Array.count_set, h, if_pos (show (false == false) = true from rfl),
      if_neg (show ¬(true == false) = true from Bool.false_ne_true)]
    omega
  · exact Prod.Lex.right _ (Nat.lt_succ_self _)

/-- For each state, whether it can be reached from the start state. -/
def reachable (a : Automaton) : Array Bool :=
  a.mark (Array.replicate a.states.size false) [a.start]

end Automaton

end PosixRegex
