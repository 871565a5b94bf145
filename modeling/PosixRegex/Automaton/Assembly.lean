import PosixRegex.Error
import PosixRegex.Automaton.OfExpr

/-!
# Assembling an automaton

The automaton of a tree is laid down state by state. A state takes the next number, and is refused
when the automaton has as many states as the options allow; with that the whole automaton is
refused.

Where a state leads to may not be known when it is laid down. Each part of a tree leaves one state
behind that is still to be led on, and it is connected when the number of what follows is known. A
branching state gets its targets one by one in the same way.

How many states there will be is not known beforehand. What comes out is known: it is the automaton
that `Automaton.ofExpr` lays out at once.
-/

namespace PosixRegex

namespace Automaton

/-- Stands for a target that is not known yet. -/
def unconnected : Nat := 18446744073709551615

/-- Leads a state on to a target, which a branching state gets besides those that it has. -/
def State.connect (target : Nat) : State → State
  | byte b _ => byte b target
  | set s _ => set s target
  | branch targets => branch (targets ++ [target])
  | enterGroup group lastNested _ => enterGroup group lastNested target
  | leaveGroup group _ => leaveGroup group target
  | assertion anchor _ => assertion anchor target
  | skip _ => skip target
  | accept => accept

/-- What has been laid down for a part of a tree. -/
structure Segment where
  /-- The state where the part is entered. -/
  entry : Nat
  /-- The state of the part that is still to be led on. -/
  exit : Nat
deriving DecidableEq, Repr, Inhabited

/-- A step in assembling an automaton: it adds to the states that are there, or refuses the
automaton. -/
abbrev Assembly := StateT (Array State) (Except Error)

namespace Assembly

/-- Lays down a state and yields its number. -/
def lay (limit : Nat) (st : State) : Assembly Nat := fun states =>
  if states.size < limit then .ok (states.size, states.push st) else .error .tooComplex

/-- Leads a state on to a target. -/
def connect (id target : Nat) : Assembly Unit := fun states =>
  .ok ((), states.modify id (State.connect target))

/-- Lays down a single state as a part. -/
def single (limit : Nat) (st : State) : Assembly Segment := do
  let id ← lay limit st
  return ⟨id, id⟩

/-- Lays down copies of a part one after the other behind a state; yields the state that is still to
be led on. -/
def copies (part : Assembly Segment) : (n exit : Nat) → Assembly Nat
  | 0, exit => return exit
  | n + 1, exit => do
    let copy ← part
    connect exit copy.entry
    copies part n copy.exit

/-- Lays down copies of a part one after the other behind a state, each with a state before it that
branches to the copy or to `join`; yields the state that is still to be led on. -/
def optionals (limit : Nat) (part : Assembly Segment) (join : Nat) : (n exit : Nat) → Assembly Nat
  | 0, exit => return exit
  | n + 1, exit => do
    let branch ← lay limit (.branch [])
    connect exit branch
    let copy ← part
    connect branch copy.entry
    connect branch join
    optionals limit part join n copy.exit

/-- Lays down copies of a part behind an entry: those that must be taken, and then a loop around the
last of them or a copy for each further pass that may be taken. -/
def repeated (limit : Nat) (part : Assembly Segment) (min : Nat) (max : Option Nat) :
    Assembly Segment := do
  let entry ← lay limit (.skip unconnected)
  match max with
  | none =>
    if min = 0 then
      let branch ← lay limit (.branch [])
      connect entry branch
      let body ← part
      connect branch body.entry
      connect body.exit branch
      return ⟨entry, branch⟩
    else
      let exit ← copies part (min - 1) entry
      let body ← part
      connect exit body.entry
      let branch ← lay limit (.branch [])
      connect body.exit branch
      connect branch body.entry
      return ⟨entry, branch⟩
  | some max =>
    let exit ← copies part min entry
    if min < max then
      let join ← lay limit (.skip unconnected)
      let last ← optionals limit part join (max - min) exit
      connect last join
      return ⟨entry, join⟩
    else
      return ⟨entry, exit⟩

end Assembly

end Automaton

namespace Expr

open Automaton Automaton.Assembly

mutual

/-- Lays down a tree. A back-reference is no matter for an automaton. -/
def assemble (o : Options) : Expr → Assembly Segment
  | empty => single o.stateLimit (.skip unconnected)
  | concat [] => single o.stateLimit (.skip unconnected)
  | concat (first :: rest) => do
    let part ← first.assemble o
    let exit ← assembleRest o rest part.exit
    return ⟨part.entry, exit⟩
  | alternation branches => do
    let branch ← lay o.stateLimit (.branch [])
    let join ← lay o.stateLimit (.skip unconnected)
    assembleBranches o branch join branches
    return ⟨branch, join⟩
  | loop body min max => repeated o.stateLimit (body.assemble o) min max
  | group index body => do
    let enter ← lay o.stateLimit (.enterGroup index (index + body.groupCount) unconnected)
    let part ← body.assemble o
    let leave ← lay o.stateLimit (.leaveGroup index unconnected)
    connect enter part.entry
    connect part.exit leave
    return ⟨enter, leave⟩
  | anchor kind => single o.stateLimit (.assertion kind unconnected)
  | backref _ => throw .badPattern
  | literal b => single o.stateLimit (leafState o (literal b) unconnected)
  | any => single o.stateLimit (leafState o any unconnected)
  | set s negated => single o.stateLimit (leafState o (set s negated) unconnected)
  | named cls negated => single o.stateLimit (leafState o (named cls negated) unconnected)
termination_by structural t => t

/-- Lays down trees one after the other behind a state; yields the state that is still to be led
on. -/
def assembleRest (o : Options) : List Expr → (exit : Nat) → Assembly Nat
  | [], exit => return exit
  | t :: ts, exit => do
    let part ← t.assemble o
    connect exit part.entry
    assembleRest o ts part.exit
termination_by structural ts => ts

/-- Lays down trees as the targets of a branching state, all of which lead on to the same state. -/
def assembleBranches (o : Options) (branch join : Nat) : List Expr → Assembly Unit
  | [] => return
  | t :: ts => do
    let part ← t.assemble o
    connect branch part.entry
    connect part.exit join
    assembleBranches o branch join ts
termination_by structural ts => ts

end

/-- Lays down a tree and the accepting state, which the tree is led on to. -/
def assembleAccepting (o : Options) (t : Expr) : Assembly Segment := do
  let part ← t.assemble o
  let accept ← lay o.stateLimit .accept
  connect part.exit accept
  return ⟨part.entry, accept⟩

end Expr

/-- Assembles the automaton of a tree, from no states on. -/
def Automaton.assemble (o : Options) (t : Expr) : Except Error Automaton := do
  let (part, states) ← t.assembleAccepting o #[]
  return { states, start := part.entry, accept := part.exit, groupCount := t.groupCount }

end PosixRegex
