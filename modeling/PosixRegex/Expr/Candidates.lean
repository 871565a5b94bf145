import Std.Data.TreeSet
import PosixRegex.Error
import PosixRegex.Subject
import PosixRegex.Slots
import PosixRegex.Expr.Leaf

/-!
# Matching by enumeration

A tree with back-references is matched by listing every way in which it can match at a position: the
candidates, each with its end and its record. A sequence extends the candidates of its first part by
those of the next, a loop goes round as long as there are candidates to extend, and repeated
candidates are dropped.

The number of candidates is limited. Each tree charges the candidates that it produces, and the
search is given up when the allowance is used up.
-/

namespace PosixRegex

/-- One way in which a tree can match. -/
structure Candidate where
  /-- The position after the match. -/
  stop : Nat
  /-- The record of the groups. -/
  slots : Slots
deriving DecidableEq, Repr, Inhabited

/-- Computations that use up an allowance of candidates. -/
abbrev Rationed := StateT Nat (Except Error)

namespace Candidate

/-- The numbers that tell a candidate from all others: its end, and the slots of its record. -/
def key (c : Candidate) : List (Option Nat) := some c.stop :: c.slots.toRow

theorem key_inj {c d : Candidate} : c.key = d.key ↔ c = d := by
  refine ⟨fun h => ?_, congrArg key⟩
  obtain ⟨hstop, hrow⟩ := List.cons.inj h
  have hslots : c.slots = d.slots := by
    rw [← Slots.ofRow_toRow c.slots, hrow, Slots.ofRow_toRow]
  cases c
  cases d
  cases hstop
  cases hslots
  rfl

/-- Drops the candidates that have occurred before. -/
def distinct (cs : List Candidate) : List Candidate :=
  (cs.foldl keepNew (∅, [])).2.reverse
where
  /-- Keeps a candidate that is not among the ones seen. -/
  keepNew (state : Std.TreeSet (List (Option Nat)) × List Candidate) (c : Candidate) :
      Std.TreeSet (List (Option Nat)) × List Candidate :=
    let (known, seen) := state.1.containsThenInsert c.key
    if known then state else (seen, c :: state.2)

namespace distinct

variable {state : Std.TreeSet (List (Option Nat)) × List Candidate}

/-- The state of dropping repeated candidates: the candidates seen are the ones kept, each once. -/
def Tracks (state : Std.TreeSet (List (Option Nat)) × List Candidate) : Prop :=
  (∀ c, state.1.contains c.key = true ↔ c ∈ state.2) ∧ state.2.Nodup

theorem keepNew_eq (state : Std.TreeSet (List (Option Nat)) × List Candidate) (c : Candidate) :
    keepNew state c =
      if state.1.contains c.key then state else (state.1.insert c.key, c :: state.2) := by
  rw [← Std.TreeSet.containsThenInsert_fst, ← Std.TreeSet.containsThenInsert_snd]
  rfl

theorem tracks_keepNew (h : Tracks state) (c : Candidate) : Tracks (keepNew state c) := by
  rw [keepNew_eq]
  split
  · exact h
  · rename_i hc
    refine ⟨fun d => ?_, List.nodup_cons.2 ⟨fun hm => hc ((h.1 c).2 hm), h.2⟩⟩
    rw [Std.TreeSet.contains_insert, Bool.or_eq_true, beq_iff_eq, Std.compare_eq_iff_eq, key_inj,
      h.1, List.mem_cons, eq_comm]

theorem tracks_foldl (h : Tracks state) (cs : List Candidate) : Tracks (cs.foldl keepNew state) := by
  induction cs generalizing state with
  | nil => exact h
  | cons c cs ih => exact ih (tracks_keepNew h c)

theorem mem_keepNew (h : Tracks state) (c d : Candidate) :
    d ∈ (keepNew state c).2 ↔ d ∈ state.2 ∨ d = c := by
  rw [keepNew_eq]
  split
  · rename_i hc
    exact ⟨Or.inl, fun hd => hd.elim id fun hd => hd ▸ (h.1 c).1 hc⟩
  · rw [List.mem_cons, or_comm]

theorem mem_foldl (h : Tracks state) (cs : List Candidate) (d : Candidate) :
    d ∈ (cs.foldl keepNew state).2 ↔ d ∈ state.2 ∨ d ∈ cs := by
  induction cs generalizing state with
  | nil => simp only [List.foldl_nil, List.not_mem_nil, or_false]
  | cons c cs ih =>
    rw [List.foldl_cons, ih (tracks_keepNew h c), mem_keepNew h, List.mem_cons, or_assoc]

theorem tracks_nil : Tracks (∅, []) :=
  ⟨fun c => by simp only [Std.TreeSet.contains_emptyc, Bool.false_eq_true, List.not_mem_nil],
    List.nodup_nil⟩

end distinct

/-- No candidate is lost, and none is made up. -/
@[simp]
theorem mem_distinct {cs : List Candidate} {c : Candidate} : c ∈ distinct cs ↔ c ∈ cs := by
  rw [distinct, List.mem_reverse, distinct.mem_foldl distinct.tracks_nil, List.mem_nil_iff,
    false_or]

/-- Each candidate occurs once. -/
theorem nodup_distinct (cs : List Candidate) : (distinct cs).Nodup := by
  exact List.pairwise_reverse.2 ((distinct.tracks_foldl distinct.tracks_nil cs).2.imp Ne.symm)

/-- Charges candidates to the allowance. -/
def ration (cs : List Candidate) : Rationed (List Candidate) := fun allowance =>
  if cs.length ≤ allowance then .ok (cs, allowance - cs.length) else .error .outOfMemory

/-- The candidates that extend the given ones, in order, each with the one that it extends. -/
def extend (step : Candidate → Rationed (List Candidate)) (front : List Candidate) :
    Rationed (List (Candidate × Candidate)) := do
  let found ← front.mapM fun c => return (← step c).map fun d => (c, d)
  return found.flatten

/-- Goes round a loop, at most as many times as given: `count` passes lie behind, and `front` is
where they end. The outcome is what ends the loop, in blocks, the last one first.

A pass beyond the minimum that consumes nothing can end the loop, but the loop does not go on from
there. -/
def rounds (body : Candidate → Rationed (List Candidate)) (min : Nat) :
    (passes count : Nat) → (front : List Candidate) → (ends : List (List Candidate)) →
      Rationed (List (List Candidate))
  | 0, _, _, ends => return ends
  | passes + 1, count, front, ends => do
    if front.isEmpty then return ends
    let found ← extend body front
    -- Below the minimum a pass counts whether it consumes or not.
    let (stalled, moving) := found.partition fun (c, d) => min ≤ count && d.stop == c.stop
    let next := distinct (moving.map (·.2))
    let ended := stalled.map (·.2) ++ if min ≤ count + 1 then next else []
    rounds body min passes (count + 1) next (ended :: ends)

/-- The candidates of a loop from a given one, at most `passes` times round. Not to begin at all
comes last, where the minimum allows it. -/
def loop (body : Candidate → Rationed (List Candidate)) (min passes : Nat) (c : Candidate) :
    Rationed (List Candidate) := do
  let ends ← rounds body min passes 0 [c] []
  return distinct (ends.reverse.flatten ++ if min = 0 then [c] else [])

end Candidate

namespace Expr

/-- The greatest number of times that a loop can go round from a position. Where no maximum is
given, each pass beyond the minimum that the loop goes on from consumes a byte, and one more pass is
needed to find that there is nothing left. -/
def passes (subject : Subject) (min : Nat) (max : Option Nat) (pos : Nat) : Nat :=
  max.getD (min + (subject.size - pos) + 1)

/-- The candidate of a leaf with a given set of bytes, if it matches at the end of a candidate. -/
def leafCandidates (subject : Subject) (s : Option ByteSet) (c : Candidate) : List Candidate :=
  match s, subject.byteAt? c.stop with
  | some s, some b => if s.contains b then [⟨c.stop + 1, c.slots⟩] else []
  | _, _ => []

/-- The candidate of a back-reference, if the span of its group occurs again at the end of a
candidate. A group that took no part has no span to occur again. -/
def backrefCandidates (subject : Subject) (index : Nat) (c : Candidate) : List Candidate :=
  match c.slots.span? index with
  | some (start, stop) =>
    if subject.repeats start stop c.stop then [⟨c.stop + (stop - start), c.slots⟩] else []
  | none => []

mutual

/-- The ways in which a tree can match from the end of a candidate on. -/
def candidates (subject : Subject) : Expr → Candidate → Rationed (List Candidate)
  | empty, c => Candidate.ration [c]
  | literal b, c =>
    Candidate.ration (leafCandidates subject ((literal b).byteSet? subject.options) c)
  | any, c => Candidate.ration (leafCandidates subject (any.byteSet? subject.options) c)
  | set s negated, c =>
    Candidate.ration (leafCandidates subject ((set s negated).byteSet? subject.options) c)
  | named cls negated, c =>
    Candidate.ration (leafCandidates subject ((named cls negated).byteSet? subject.options) c)
  | anchor kind, c => Candidate.ration (if subject.holds c.stop kind then [c] else [])
  | backref index, c => Candidate.ration (backrefCandidates subject index c)
  | concat items, c => do Candidate.ration (← sequenceCandidates subject items [c])
  | alternation branches, c => do
    Candidate.ration (Candidate.distinct (← branchCandidates subject branches c))
  | group index body, c => do
    let entered := c.slots.enter index (index + body.groupCount) c.stop
    let found ← body.candidates subject ⟨c.stop, entered⟩
    Candidate.ration (found.map fun d => ⟨d.stop, d.slots.leave index d.stop⟩)
  | loop body min max, c => do
    Candidate.ration
      (← Candidate.loop (body.candidates subject) min (passes subject min max c.stop) c)
termination_by structural t => t

/-- The ways in which trees can match one after the other, from the end of any of the given
candidates on. -/
def sequenceCandidates (subject : Subject) : List Expr → List Candidate → Rationed (List Candidate)
  | [], front => return front
  | t :: ts, front => do
    let found ← Candidate.extend (t.candidates subject) front
    -- The parts that are left are not asked, and charge nothing.
    if found.isEmpty then return []
    sequenceCandidates subject ts (Candidate.distinct (found.map (·.2)))
termination_by structural ts => ts

/-- The ways in which one of several trees can match, those of an earlier tree first. -/
def branchCandidates (subject : Subject) : List Expr → Candidate → Rationed (List Candidate)
  | [], _ => return []
  | t :: ts, c => do
    let found ← t.candidates subject c
    return found ++ (← branchCandidates subject ts c)
termination_by structural ts => ts

end

/-- The best of the matches that begin at a position: the first that no other one beats after it. -/
def bestOf (found : List Candidate) : Option Slots :=
  found.foldl keepBetter none
where
  /-- Keeps the better of two matches, the earlier one at a tie. -/
  keepBetter (best : Option Slots) (c : Candidate) : Option Slots :=
    let found := c.slots.leave 0 c.stop
    if best.all found.beats then some found else best

/-- The best match that begins at a position. -/
def matchAt (subject : Subject) (t : Expr) (pos : Nat) : Except Error (Option Slots) := do
  let origin : Candidate := ⟨pos, .initial t.groupCount pos⟩
  let found ← (t.candidates subject origin).run' subject.options.candidateLimit
  return bestOf found

/-- The best match that begins at the first possible position, when as many positions remain as
given. -/
def searchFrom (subject : Subject) (t : Expr) : (remaining : Nat) → Except Error (Option Slots)
  | 0 => t.matchAt subject subject.size
  | remaining + 1 => do
    match ← t.matchAt subject (subject.size - (remaining + 1)) with
    | some found => return some found
    | none => searchFrom subject t remaining

/-- The record of the leftmost-longest match that starts at a given position or later. -/
def search (subject : Subject) (t : Expr) (start : Nat) : Except Error (Option Slots) :=
  if subject.size < start then .ok none
  else t.searchFrom subject (subject.size - start)

end Expr

end PosixRegex
