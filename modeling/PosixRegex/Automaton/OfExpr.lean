import PosixRegex.Automaton.Basic

/-!
# The automaton of a tree

A tree becomes a run of consecutive states, its fragment, which is entered at its first state and
leads on to a given state. `Expr.stateCount` is the length of the fragment, so the number of every
state is known before it is laid down, and the parts of a fragment can point forward.

A repetition is unrolled: the copies that must be taken, then either a loop around the last of them
or one branching state and one copy for each further pass that may be taken.
-/

namespace PosixRegex

namespace Expr

mutual

/-- The number of states of a tree's fragment. -/
def stateCount : Expr → Nat
  | concat items => if items.isEmpty then 1 else stateCountAll items
  | alternation branches => 2 + stateCountAll branches
  | group _ body => 2 + body.stateCount
  | loop body min none => if min = 0 then 2 + body.stateCount else 2 + min * body.stateCount
  | loop body min (some max) =>
    if min < max then 2 + min * body.stateCount + (max - min) * (1 + body.stateCount)
    else 1 + min * body.stateCount
  | _ => 1
termination_by structural t => t

/-- The number of states of several fragments together. -/
def stateCountAll : List Expr → Nat
  | [] => 0
  | t :: ts => t.stateCount + stateCountAll ts
termination_by structural ts => ts

end

/-- The fragment of a part of a tree, given the number of its first state and the number of the
state that it leads on to. -/
abbrev Fragment := Nat → Nat → List Automaton.State

namespace Fragment

/-- Where a chain of fragments laid down at `base` is entered: at `base`, or, when there are none,
at the state after the chain. -/
def entry (none : Bool) (base next : Nat) : Nat := if none then next else base

/-- A chain of `n` copies of a fragment of `size` states. -/
def copies (fragment : Fragment) (size : Nat) : (n : Nat) → Fragment
  | 0, _, _ => []
  | n + 1, base, next =>
    fragment base (entry (n == 0) (base + size) next) ++ copies fragment size n (base + size) next

/-- A chain of `n` copies of a fragment of `size` states, each behind a state that branches to the
copy or to the end of the chain. -/
def optionals (fragment : Fragment) (size : Nat) : (n : Nat) → Fragment
  | 0, _, _ => []
  | n + 1, base, next =>
    .branch [base + 1, next] ::
      (fragment (base + 1) (entry (n == 0) (base + 1 + size) next) ++
        optionals fragment size n (base + 1 + size) next)

theorem length_copies {fragment : Fragment} {size : Nat}
    (h : ∀ base next, (fragment base next).length = size) (n base next : Nat) :
    (copies fragment size n base next).length = n * size := by
  induction n generalizing base with
  | zero => simp [copies]
  | succ n ih => simp [copies, h, ih, Nat.add_mul, Nat.add_comm]

theorem length_optionals {fragment : Fragment} {size : Nat}
    (h : ∀ base next, (fragment base next).length = size) (n base next : Nat) :
    (optionals fragment size n base next).length = n * (1 + size) := by
  induction n generalizing base with
  | zero => simp [optionals]
  | succ n ih => simp [optionals, h, ih, Nat.add_mul]; omega

end Fragment

/-- The first states of the fragments of branches that are laid down one after the other. -/
def branchStarts (base : Nat) : List Expr → List Nat
  | [] => []
  | t :: ts => base :: branchStarts (base + t.stateCount) ts

/-- The state of a leaf. -/
def leafState (o : Options) (t : Expr) (next : Nat) : Automaton.State :=
  .consume ((t.byteSet? o).getD ∅) next

mutual

/-- The fragment of a tree. A back-reference is no matter for an automaton, and its place is taken
by a state that leads nowhere. -/
def fragment (o : Options) : Expr → Fragment
  | empty, _, next => [.skip next]
  | concat items, base, next =>
    if items.isEmpty then [.skip next] else sequence o items base next
  | alternation branches, base, next =>
    .branch (branchStarts (base + 2) branches) :: .skip next ::
      choices o branches (base + 2) (base + 1)
  | loop body min max, base, next =>
    let size := body.stateCount
    match max with
    | none =>
      if min = 0 then
        .skip (base + 1) :: .branch [base + 2, next] :: body.fragment o (base + 2) (base + 1)
      else
        -- The last copy that must be taken is the body of the loop.
        let last := base + 1 + (min - 1) * size
        .skip (base + 1) :: (Fragment.copies (body.fragment o) size (min - 1) (base + 1) last ++
          body.fragment o last (last + size) ++ [.branch [last, next]])
    | some max =>
      if min < max then
        -- The copies that may be taken all lead on through one state, which comes before them.
        let exit := base + 1 + min * size
        .skip (Fragment.entry (min == 0) (base + 1) (exit + 1)) ::
          (Fragment.copies (body.fragment o) size min (base + 1) (exit + 1) ++
            .skip next :: Fragment.optionals (body.fragment o) size (max - min) (exit + 1) exit)
      else
        .skip (Fragment.entry (min == 0) (base + 1) next) ::
          Fragment.copies (body.fragment o) size min (base + 1) next
  | group index body, base, next =>
    .enterGroup index (index + body.groupCount) (base + 1) ::
      (body.fragment o (base + 1) (base + 1 + body.stateCount) ++ [.leaveGroup index next])
  | anchor kind, _, next => [.assertion kind next]
  | backref _, _, _ => [.branch []]
  | literal b, _, next => [leafState o (literal b) next]
  | any, _, next => [leafState o any next]
  | set s negated, _, next => [leafState o (set s negated) next]
  | named cls negated, _, next => [leafState o (named cls negated) next]
termination_by structural t => t

/-- The fragments of several trees, each leading on to the next. -/
def sequence (o : Options) : List Expr → Fragment
  | [], _, _ => []
  | t :: ts, base, next =>
    t.fragment o base (Fragment.entry ts.isEmpty (base + t.stateCount) next) ++
      sequence o ts (base + t.stateCount) next
termination_by structural ts => ts

/-- The fragments of several trees, each leading on to the same state. -/
def choices (o : Options) : List Expr → Fragment
  | [], _, _ => []
  | t :: ts, base, next => t.fragment o base next ++ choices o ts (base + t.stateCount) next
termination_by structural ts => ts

end

mutual

/-- A fragment has as many states as its tree calls for. -/
theorem length_fragment (o : Options) (t : Expr) (base next : Nat) :
    (t.fragment o base next).length = t.stateCount := by
  cases t with
  | concat items =>
    rw [fragment, stateCount]
    split
    · rfl
    · exact length_sequence o items base next
  | alternation branches =>
    simp only [fragment, stateCount, List.length_cons, length_choices o branches]; omega
  | loop body min max =>
    -- The copies of the body have one length, whatever the numbers of their states.
    have h := length_fragment o body
    cases max with
    | none =>
      simp only [fragment, stateCount]
      split
      · simp [h]; omega
      · rename_i hm
        obtain ⟨m, rfl⟩ := Nat.exists_eq_succ_of_ne_zero hm
        simp [Fragment.length_copies h, h, Nat.add_mul]; omega
    | some max =>
      simp only [fragment, stateCount]
      split
      · simp [Fragment.length_copies h, Fragment.length_optionals h]; omega
      · simp [Fragment.length_copies h]; omega
  | group index body =>
    simp [fragment, stateCount, length_fragment o body]; omega
  | _ => rfl
termination_by structural t

/-- A chain of fragments has as many states as its trees call for. -/
theorem length_sequence (o : Options) (ts : List Expr) (base next : Nat) :
    (sequence o ts base next).length = stateCountAll ts := by
  cases ts with
  | nil => rfl
  | cons t ts =>
    simp only [sequence, stateCountAll, List.length_append, length_fragment o t,
      length_sequence o ts]
termination_by structural ts

/-- Fragments of branches have as many states as their trees call for. -/
theorem length_choices (o : Options) (ts : List Expr) (base next : Nat) :
    (choices o ts base next).length = stateCountAll ts := by
  cases ts with
  | nil => rfl
  | cons t ts =>
    simp only [choices, stateCountAll, List.length_append, length_fragment o t,
      length_choices o ts]
termination_by structural ts

end

end Expr

/-- The automaton of a tree: its fragment, laid down from state 0 on, and the accepting state after
it. -/
def Automaton.ofExpr (o : Options) (t : Expr) : Automaton where
  states := (t.fragment o 0 t.stateCount ++ [State.accept]).toArray
  start := 0
  accept := t.stateCount
  groupCount := t.groupCount

/-- The automaton of a tree has one state beside those of the fragment. -/
@[simp]
theorem Automaton.size_ofExpr (o : Options) (t : Expr) :
    (Automaton.ofExpr o t).states.size = t.stateCount + 1 := by
  rw [ofExpr, List.size_toArray, List.length_append, Expr.length_fragment, List.length_singleton]

end PosixRegex
