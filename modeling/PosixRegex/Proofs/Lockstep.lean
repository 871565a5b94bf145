import PosixRegex.Proofs.Closure

/-!
# Search in lockstep

What the simulation knows between two bytes. Each thread stands for a path that began at some
position, and each path that began early enough leads, by comparisons that are not lost, to the
thread in its state. Which paths are early enough depends on the best match: once one is known, only
paths that begin where it begins or before still matter, and those have all been begun by then.

- `Simulation.Tracks`: the threads of a simulation at a position.
- `Settles`: all matches that end before a position lead to the best one.
- `search_settles`: the search ends with a match to which all others lead.
- `Knows`, `search_knows`: that is the leftmost match, and the longest one from there.
- `search_leftmost_longest`: in terms of the tree it is the leftmost-longest span.
- `search_derivation`: its record is that of one derivation.
-/

namespace PosixRegex.Automaton

variable {a : Automaton} {spans : Nat → Nat → Prop} {scopes : List Scope} {subject : Subject}
  {start pos bound bound' q r s e : Nat} {b : UInt8} {v w : Slots} {best : Option Slots}

/-! ### Threads that stand for paths -/

/-- A state has a path to it, from a position where a match may begin. -/
def Arrives (a : Automaton) (subject : Subject) (start pos q : Nat) (v : Slots) : Prop :=
  ∃ s, start ≤ s ∧ v.start? = some s ∧ a.Path subject (a.origin s) ⟨q, ⟨pos, v⟩⟩

theorem Arrives.of_path (ha : a.Scoped spans scopes) (hs : start ≤ s)
    (h : a.Path subject (a.origin s) ⟨q, ⟨pos, v⟩⟩) : a.Arrives subject start pos q v :=
  ⟨s, hs, (h.start?_eq ha).1, h⟩

theorem Arrives.step (ha : a.Scoped spans scopes) (h : a.Arrives subject start pos q v) {pos' : Nat}
    (hstep : Step a subject ⟨q, ⟨pos, v⟩⟩ ⟨r, ⟨pos', w⟩⟩) : a.Arrives subject start pos' r w := by
  obtain ⟨s, hle, hs, hpath⟩ := h
  exact ⟨s, hle, (hstep.start?_eq ha).trans hs, hpath.tail hstep⟩

theorem Arrives.exists_start (h : a.Arrives subject start pos q v) : ∃ s, v.start? = some s := by
  obtain ⟨s, -, hs, -⟩ := h
  exact ⟨s, hs⟩

theorem Arrives.admitted (ha : a.Scoped spans scopes) (h : a.Arrives subject start pos q v) :
    Thread.Admitted a spans scopes ⟨q, ⟨pos, v⟩⟩ := by
  obtain ⟨s, -, -, hpath⟩ := h
  exact hpath.admitted ha

theorem Arrives.recent (ha : a.Scoped spans scopes) (h : a.Arrives subject start pos q v) :
    Thread.Recent ⟨q, ⟨pos, v⟩⟩ := by
  obtain ⟨s, -, -, hpath⟩ := h
  exact (hpath.start?_eq ha).2

/-- The thread that begins a match. -/
theorem arrives_start (hle : start ≤ pos) :
    a.Arrives subject start pos a.start (.initial a.groupCount pos) :=
  ⟨pos, hle, rfl, Path.refl a subject _⟩

/-- Records that lead from one to another in a state do so after a move, too. -/
theorem ascends_of_move (ha : a.Scoped spans scopes) {st : State} (hst : a.states[q]? = some st)
    (hmem : (r, w) ∈ st.moves subject pos v) (hv : a.Arrives subject start pos q v) {u : Slots}
    (h : Slots.Ascends (a.Arrives subject start pos q) v u) :
    (r, st.effect pos u) ∈ st.moves subject pos u ∧
      Slots.Ascends (a.Arrives subject start pos r) w (st.effect pos u) := by
  obtain ⟨rfl, hmoves⟩ := State.mem_moves hmem
  refine ⟨hmoves u, h.map (fun x hx => ?_) (fun x y hx hy hle => ?_) hv⟩
  · exact hx.step ha (step_of_mem_moves hst (hmoves x))
  · exact order_effect_ne_lt ha hst (hy.admitted ha) (hx.admitted ha) hle

/-- Records that lead from one to another in a state do so after a byte is read, too. -/
theorem ascends_of_read (ha : a.Scoped spans scopes) {st : State} (hst : a.states[q]? = some st)
    (hb : subject.byteAt? pos = some b) (hstep : st.step? b = some r)
    (h : Slots.Ascends (a.Arrives subject start pos q) v w) :
    Slots.Ascends (a.Arrives subject start (pos + 1) r) v w :=
  h.mono fun _ hu => hu.step ha ((step_iff hst _).2 (.inr ⟨b, r, hb, hstep, rfl⟩))

/-- A record leads to a record of a match that began no later. -/
theorem exists_start_le_of_ascends (h : Slots.Ascends (a.Arrives subject start pos q) v w)
    (hs : v.start? = some s) : ∃ p, w.start? = some p ∧ p ≤ s := by
  refine h.preserves (T := fun u => ∃ p, u.start? = some p ∧ p ≤ s) (fun x y hx hy hle => ?_)
    ⟨s, hs, Nat.le_refl s⟩
  obtain ⟨p, hp, hps⟩ := hx
  obtain ⟨k, hk⟩ := hy.exists_start
  refine ⟨k, hk, Nat.le_of_not_lt fun hlt => hle ?_⟩
  exact Slots.order_eq_gt_iff.1 (Slots.order_eq_gt_of_start? hp hk (Nat.lt_of_le_of_lt hps hlt))

namespace ThreadSet

/-- The threads of a set stand for paths to a position, and cover all that is reached in place. -/
structure Follows (a : Automaton) (subject : Subject) (start pos : Nat) (t : ThreadSet) : Prop where
  /-- The set has room for the states of the automaton and their records. -/
  wellformed : t.Wellformed a.states.size a.groupCount
  /-- Each thread stands for a path. -/
  arrives : ∀ {q v}, t.Holds q v → a.Arrives subject start pos q v
  /-- What the threads move to is covered. -/
  closed : t.Closed a subject pos (a.Arrives subject start pos)

theorem follows_of_empty {t : ThreadSet} (hwf : t.Wellformed a.states.size a.groupCount)
    (hempty : ∀ q, t.contains q = false) : t.Follows a subject start pos := by
  have hnone {q : Nat} {v : Slots} (h : t.Holds q v) : False :=
    Bool.false_ne_true ((hempty q).symm.trans h.1)
  exact ⟨hwf, fun h => (hnone h).elim, fun h _ _ _ _ => (hnone h).elim⟩

/-- Adding a thread that stands for a path. -/
theorem Follows.addThread (ha : a.Scoped spans scopes) {t : ThreadSet}
    (h : t.Follows a subject start pos) (openVisits : Array Nat) (hq : q < a.states.size)
    (hv : a.Arrives subject start pos q v)
    (hpast : ∀ g p, 0 < g → (v.mark g).start? = some p → p < pos) :
    ∃ t' openVisits', Automaton.addThread a subject pos t openVisits q v = some (t', openVisits') ∧
      t'.Follows a subject start pos ∧
      (∀ {r w}, t.Covers (a.Arrives subject start pos) r w →
        t'.Covers (a.Arrives subject start pos) r w) ∧
      t'.Covers (a.Arrives subject start pos) q v := by
  obtain ⟨⟨t', openVisits'⟩, hresult⟩ :=
    exists_addThread subject ha (hv.admitted ha) hpast h.wellformed openVisits
  obtain ⟨_, -, hadmits⟩ := hv.admitted ha
  -- The new threads stand for paths that go on in place.
  obtain ⟨hwf, harrives, hclosed, hkept, hcovers⟩ := addThread_covers ha
    (fun hr hst hmem => hr.step ha (step_of_mem_moves hst hmem)) h.wellformed h.arrives h.closed
    hresult hq hv hadmits.length_eq
  exact ⟨t', openVisits', hresult, ⟨hwf, harrives, hclosed⟩, hkept, hcovers⟩

end ThreadSet

/-! ### From one position to the next -/

/-- A thread that started no later than the best match is not late. -/
theorem isLate_eq_false (hs : v.start? = some s)
    (hbest : ∀ w ∈ best, ∀ k, w.start? = some k → s ≤ k) : isLate best v = false := by
  unfold isLate
  split
  · rename_i first start hfirst hstart
    cases hs.symm.trans hstart
    obtain ⟨w, hw, hk⟩ := Option.bind_eq_some_iff.1 hfirst
    rw [decide_eq_false_iff_not]
    exact Nat.not_lt.2 (hbest w hw _ hk)
  · rfl

/-- Advancing one thread over a byte: if it is not late it is covered where it leads to. -/
theorem advanceThread_follows (ha : a.Scoped spans scopes) (best : Option Slots)
    {current : ThreadSet} (hcurrent : current.Follows a subject start pos)
    (hb : subject.byteAt? pos = some b) {id : Nat} (hid : current.contains id = true)
    {next : ThreadSet} (hnext : next.Follows a subject start (pos + 1)) (openVisits : Array Nat) :
    ∃ next' openVisits',
      advanceThread a subject (pos + 1) b best current (next, openVisits) id =
        some (next', openVisits') ∧
      next'.Follows a subject start (pos + 1) ∧
      (∀ {r w}, next.Covers (a.Arrives subject start (pos + 1)) r w →
        next'.Covers (a.Arrives subject start (pos + 1)) r w) ∧
      ∀ st target, a.states[id]? = some st → st.step? b = some target →
        isLate best (current.record id) = false →
          next'.Covers (a.Arrives subject start (pos + 1)) target (current.record id) := by
  unfold advanceThread
  split
  · -- The state does not read the byte.
    rename_i hnone
    refine ⟨next, openVisits, rfl, hnext, fun h => h, fun st target hst hstep => ?_⟩
    rw [hst] at hnone
    cases hstep.symm.trans hnone
  · rename_i target htarget
    split
    · -- The thread is given up.
      rename_i hlate
      refine ⟨next, openVisits, rfl, hnext, fun h => h, fun _ _ _ _ hnot => ?_⟩
      cases hlate.symm.trans hnot
    · -- Reading the byte is a step of the path that the thread stands for.
      obtain ⟨st, hst, hstep⟩ := Option.bind_eq_some_iff.1 htarget
      have harrives := hcurrent.arrives ⟨hid, rfl⟩
      have hread : Step a subject ⟨id, ⟨pos, current.record id⟩⟩
          ⟨target, ⟨pos + 1, current.record id⟩⟩ :=
        (step_iff hst _).2 (.inr ⟨b, target, hb, hstep, rfl⟩)
      obtain ⟨next', openVisits', hadd, hfollows, hkept, hcovers⟩ :=
        hnext.addThread ha openVisits (hread.state_lt ha) (harrives.step ha hread)
          fun g p _ hp => Nat.lt_succ_of_le (harrives.recent ha g p hp)
      refine ⟨next', openVisits', hadd, hfollows, hkept, fun st' target' hst' hstep' _ => ?_⟩
      cases hst.symm.trans hst'
      cases hstep.symm.trans hstep'
      exact hcovers

/-- Advancing several threads over a byte, one after the other. -/
theorem advanceThreads_follows (ha : a.Scoped spans scopes) (best : Option Slots)
    {current : ThreadSet} (hcurrent : current.Follows a subject start pos)
    (hb : subject.byteAt? pos = some b) {ids : List Nat}
    (hids : ∀ id ∈ ids, current.contains id = true) {next : ThreadSet}
    (hnext : next.Follows a subject start (pos + 1)) (openVisits : Array Nat) :
    ∃ next' openVisits',
      ids.foldlM (advanceThread a subject (pos + 1) b best current) (next, openVisits) =
        some (next', openVisits') ∧
      next'.Follows a subject start (pos + 1) ∧
      (∀ {r w}, next.Covers (a.Arrives subject start (pos + 1)) r w →
        next'.Covers (a.Arrives subject start (pos + 1)) r w) ∧
      ∀ q ∈ ids, ∀ st target, a.states[q]? = some st → st.step? b = some target →
        isLate best (current.record q) = false →
          next'.Covers (a.Arrives subject start (pos + 1)) target (current.record q) := by
  induction ids generalizing next openVisits with
  | nil => exact ⟨next, openVisits, rfl, hnext, fun h => h, fun q hq => absurd hq List.not_mem_nil⟩
  | cons id ids ih =>
    obtain ⟨next₁, openVisits₁, hone, hfollows₁, hkept₁, hcovers₁⟩ :=
      advanceThread_follows ha best hcurrent hb (hids id List.mem_cons_self) hnext openVisits
    obtain ⟨next', openVisits', hfold, hfollows, hkept, hcovers⟩ :=
      ih (fun q hq => hids q (List.mem_cons_of_mem _ hq)) hfollows₁ openVisits₁
    refine ⟨next', openVisits', ?_, hfollows, fun h => hkept (hkept₁ h), fun q hq => ?_⟩
    · rw [List.foldlM_cons, hone]
      exact hfold
    · intro st target hst hstep hlate
      rcases List.mem_cons.1 hq with rfl | hq
      · -- What the first thread has reached is not lost by advancing the others.
        exact hkept (hcovers₁ st target hst hstep hlate)
      · exact hcovers q hq st target hst hstep hlate

/-- A path does not go backwards. -/
theorem Path.start_le {x : Thread} (h : a.Path subject (a.origin s) x) : s ≤ x.place.stop :=
  h.preserves (P := fun x => s ≤ x.place.stop)
    (fun _ _ hx hstep => Nat.le_trans hx hstep.stop_le.1) (Nat.le_refl s)

/-- Where a path leads at a position its record is covered, when it is wherever a path gets to that
position. -/
theorem ThreadSet.Follows.covers_of_path (ha : a.Scoped spans scopes) {t : ThreadSet}
    (ht : t.Follows a subject start pos) (hs : start ≤ s)
    (hbegin : s = pos →
      t.Covers (a.Arrives subject start pos) a.start (.initial a.groupCount s))
    (hread : ∀ {q c v b st target}, a.Path subject (a.origin s) ⟨q, ⟨c, v⟩⟩ → c + 1 = pos →
      subject.byteAt? c = some b → a.states[q]? = some st → st.step? b = some target →
        t.Covers (a.Arrives subject start pos) target v)
    (h : a.Path subject (a.origin s) ⟨q, ⟨pos, v⟩⟩) :
    t.Covers (a.Arrives subject start pos) q v := by
  -- The induction is along the path; before the position there is nothing to show.
  refine (h.preserves (P := fun x => a.Path subject (a.origin s) x ∧ (x.place.stop = pos →
    t.Covers (a.Arrives subject start pos) x.state x.place.slots)) (fun x y hx hstep => ?_)
    ⟨Path.refl a subject _, hbegin⟩).2 rfl
  obtain ⟨hpath, hx⟩ := hx
  refine ⟨hpath.tail hstep, fun hy => ?_⟩
  obtain ⟨q, c, v⟩ := x
  obtain ⟨st, hst⟩ := hstep.exists_state
  rcases (step_iff hst y).1 hstep with ⟨r, w, hmem, rfl⟩ | ⟨b, target, hb, htarget, rfl⟩
  · -- A move in place: the thread that the state has can make it too.
    obtain rfl : c = pos := hy
    obtain ⟨u, hu, hascends⟩ := hx rfl
    obtain ⟨hmem', hascends'⟩ := ascends_of_move ha hst hmem (.of_path ha hs hpath) hascends
    exact (ht.closed hu hst hmem').of_ascends hascends'
  · exact hread hpath hy hb hst htarget

/-! ### What a simulation knows -/

/-- No match is known that begins before a position. -/
def Matters (best : Option Slots) (s : Nat) : Prop := ∀ w ∈ best, ∀ k, w.start? = some k → s ≤ k

namespace Simulation

/-- The threads of a simulation at a position, when matches have been begun at all positions before
a given one. -/
structure Tracks (a : Automaton) (subject : Subject) (start pos begun : Nat) (sim : Simulation) :
    Prop where
  /-- The threads stand for paths. -/
  follows : sim.current.Follows a subject start pos
  /-- There is room for the threads at the next position. -/
  spare_wellformed : sim.spare.Wellformed a.states.size a.groupCount
  /-- That room is empty. -/
  spare_empty : ∀ q, sim.spare.contains q = false
  /-- A path that still matters leads to the thread in its state. -/
  covers : ∀ {s}, start ≤ s → s < begun → Matters sim.best s → ∀ {q v},
    a.Path subject (a.origin s) ⟨q, ⟨pos, v⟩⟩ →
      sim.current.Covers (a.Arrives subject start pos) q v

end Simulation

/-- The automaton accepts the bytes between two positions. -/
def Accepts (a : Automaton) (subject : Subject) (s e : Nat) : Prop :=
  ∃ v, a.Path subject (a.origin s) ⟨a.accept, ⟨e, v⟩⟩

/-- A record is that of a match which starts at a given position or later and ends before a
bound. -/
def Reports (a : Automaton) (subject : Subject) (start bound : Nat) (w : Slots) : Prop :=
  ∃ s e v, start ≤ s ∧ e < bound ∧ a.Path subject (a.origin s) ⟨a.accept, ⟨e, v⟩⟩ ∧
    w = v.leave 0 e

theorem Reports.mono (h : a.Reports subject start bound w) (hle : bound ≤ bound') :
    a.Reports subject start bound' w := by
  obtain ⟨s, e, v, hs, he, hpath, rfl⟩ := h
  exact ⟨s, e, v, hs, Nat.lt_of_lt_of_le he hle, hpath, rfl⟩

theorem ascends_mono (h : Slots.Ascends (a.Reports subject start bound) v w)
    (hle : bound ≤ bound') : Slots.Ascends (a.Reports subject start bound') v w :=
  h.mono fun _ hu => hu.mono hle

/-- The records of all matches that end before a bound lead to the best record; there is no record
when there is no such match. -/
structure Settles (a : Automaton) (subject : Subject) (start bound : Nat) (best : Option Slots) :
    Prop where
  /-- Without a record there is no match yet. -/
  none : best = none → ∀ s e, start ≤ s → a.Accepts subject s e → bound ≤ e
  /-- The record is that of a match. -/
  some : ∀ w ∈ best, a.Reports subject start bound w
  /-- All matches lead to it. -/
  ascends : ∀ w ∈ best, ∀ {s e v}, start ≤ s → e < bound →
    a.Path subject (a.origin s) ⟨a.accept, ⟨e, v⟩⟩ →
      Slots.Ascends (a.Reports subject start bound) (v.leave 0 e) w

/-- A record is that of the leftmost match among those that end before a bound, and of the longest
one from there; there is no record when there is no such match. -/
structure Knows (a : Automaton) (subject : Subject) (start bound : Nat) (best : Option Slots) :
    Prop where
  /-- Without a record there is no match yet. -/
  none : best = none → ∀ s e, start ≤ s → a.Accepts subject s e → bound ≤ e
  /-- The record is that of a match, and no other match begins earlier, or there and ends later. -/
  some : ∀ w ∈ best, ∃ s e v, start ≤ s ∧ e < bound ∧
    a.Path subject (a.origin s) ⟨a.accept, ⟨e, v⟩⟩ ∧ w = v.leave 0 e ∧
      ∀ s' e', start ≤ s' → e' < bound → a.Accepts subject s' e' → s ≤ s' ∧ (s' = s → e' ≤ e)

/-- When a match is accepted the whole match is closed. -/
theorem Path.mark_zero_leave (ha : a.Scoped spans scopes)
    (h : a.Path subject (a.origin s) ⟨q, ⟨e, v⟩⟩) :
    (v.leave 0 e).mark 0 = ⟨some s, some e⟩ := by
  have hs : (v.mark 0).start? = some s := (h.start?_eq ha).1
  rw [Slots.mark_leave_self (Slots.lt_length_of_start? hs), Mark.closed, hs]

/-- The record of a match tells where the match begins. -/
theorem Path.start?_leave (ha : a.Scoped spans scopes)
    (h : a.Path subject (a.origin s) ⟨q, ⟨e, v⟩⟩) : (v.leave 0 e).start? = some s := by
  rw [Slots.start?, h.mark_zero_leave ha]

/-- Matches that begin at a position matter when the best match does not begin earlier. -/
theorem matters_of_path (ha : a.Scoped spans scopes)
    (h : a.Path subject (a.origin s) ⟨q, ⟨e, v⟩⟩) {s' : Nat} :
    Matters (some (v.leave 0 e)) s' ↔ s' ≤ s := by
  constructor
  · exact fun hmatters => hmatters _ rfl s (h.start?_leave ha)
  · intro hle w hw k hk
    cases hw
    cases (h.start?_leave ha).symm.trans hk
    exact hle

/-- Records that lead from one to another in the accepting state do so when the match is closed. -/
theorem ascends_of_accept (ha : a.Scoped spans scopes) (hv : a.Arrives subject start pos a.accept v)
    (h : Slots.Ascends (a.Arrives subject start pos a.accept) v w) :
    Slots.Ascends (a.Reports subject start (pos + 1)) (v.leave 0 pos) (w.leave 0 pos) := by
  refine h.map (f := (·.leave 0 pos)) (fun x hx => ?_) (fun x y hx hy hle => ?_) hv
  · obtain ⟨s, hs, -, hpath⟩ := hx
    exact ⟨s, pos, x, hs, Nat.lt_succ_self pos, hpath, rfl⟩
  · -- Group 0 is open in every record of the accepting state.
    obtain ⟨bound, -, hscope⟩ := ha.accept
    obtain ⟨here, hhere, hadmits⟩ := hy.admitted ha
    cases hscope.symm.trans hhere
    obtain ⟨hset, hopen⟩ := hadmits.opened 0 (List.mem_singleton_self 0)
    obtain ⟨s, hs⟩ := hx.exists_start
    rw [Slots.order_leave (Slots.lt_length_of_isSome hset) (Slots.lt_length_of_start? hs) hopen]
    exact hle

namespace Settles

/-- A match that does not matter begins later than the best one. -/
theorem ascends_of_not_matters (ha : a.Scoped spans scopes) (h : Settles a subject start bound best)
    (hpath : a.Path subject (a.origin s) ⟨q, ⟨e, v⟩⟩) (hnot : ¬Matters best s) :
    ∃ w ∈ best, Slots.Ascends (a.Reports subject start bound) (v.leave 0 e) w := by
  unfold Matters at hnot
  push Not at hnot
  obtain ⟨w, hw, k, hk, hlt⟩ := hnot
  refine ⟨w, hw, .single (h.some w hw) ?_⟩
  rw [Slots.order_eq_gt_of_start? hk (hpath.start?_leave ha) hlt]
  nofun

/-- What is settled carries over to a later bound when no match that matters ends in between. -/
theorem carry (ha : a.Scoped spans scopes) (h : Settles a subject start bound best)
    (hle : bound ≤ bound') (hno : ∀ s e, start ≤ s → bound ≤ e → e < bound' → Matters best s →
      ¬a.Accepts subject s e) : Settles a subject start bound' best := by
  refine ⟨fun hnone s e hs haccepts => ?_, fun w hw => (h.some w hw).mono hle,
    fun w hw s e v hs he hpath => ascends_mono ?_ hle⟩
  · have he := h.none hnone s e hs haccepts
    -- When no match is known every match matters.
    refine Nat.le_of_not_lt fun hlt => hno s e hs he hlt (fun w hw => ?_) haccepts
    cases hnone.symm.trans hw
  · by_cases hlt : e < bound
    · exact h.ascends w hw hs hlt hpath
    · -- A match that ends later does not matter.
      obtain ⟨w', hw', hascends⟩ := h.ascends_of_not_matters ha hpath fun hmatters =>
        hno s e hs (Nat.le_of_not_lt hlt) he hmatters ⟨v, hpath⟩
      cases hw.symm.trans hw'
      exact hascends

/-- When the best record so far, and the matches that end at the bound and matter, lead to a record,
all matches do that have ended. -/
theorem ascends_succ (ha : a.Scoped spans scopes) (h : Settles a subject start pos best)
    (hbest : ∀ u ∈ best, Slots.Ascends (a.Reports subject start (pos + 1)) u w)
    (hhere : ∀ s v, start ≤ s → Matters best s →
      a.Path subject (a.origin s) ⟨a.accept, ⟨pos, v⟩⟩ →
        Slots.Ascends (a.Reports subject start (pos + 1)) (v.leave 0 pos) w)
    (hs : start ≤ s) (he : e < pos + 1) (hpath : a.Path subject (a.origin s) ⟨a.accept, ⟨e, v⟩⟩) :
    Slots.Ascends (a.Reports subject start (pos + 1)) (v.leave 0 e) w := by
  rcases Nat.eq_or_lt_of_le (Nat.le_of_lt_succ he) with rfl | hlt
  · by_cases hmatters : Matters best s
    · exact hhere s v hs hmatters hpath
    · obtain ⟨u, hu, hascends⟩ := h.ascends_of_not_matters ha hpath hmatters
      exact (ascends_mono hascends (Nat.le_succ e)).trans (hbest u hu)
  · -- The match has ended before, so a record is known.
    cases hcase : best with
    | none => exact absurd hlt (Nat.not_lt_of_le (h.none hcase s e hs ⟨v, hpath⟩))
    | some u =>
      have hu := ascends_mono (h.ascends u hcase hs hlt hpath) (Nat.le_succ pos)
      exact hu.trans (hbest u hcase)

/-- A record to which all matches lead is that of the leftmost-longest one. -/
theorem knows (ha : a.Scoped spans scopes) (h : Settles a subject start bound best) :
    Knows a subject start bound best := by
  refine ⟨h.none, fun w hw => ?_⟩
  obtain ⟨s, e, v, hs, he, hpath, rfl⟩ := h.some w hw
  refine ⟨s, e, v, hs, he, hpath, rfl, fun s' e' hs' he' ⟨v', hpath'⟩ => ?_⟩
  have hclosed (u : Slots) (hu : a.Reports subject start bound u) : (u.mark 0).IsClosed := by
    obtain ⟨s, e, v, -, -, hpath, rfl⟩ := hu
    rw [hpath.mark_zero_leave ha]
    exact ⟨rfl, rfl⟩
  have hzero := (h.ascends _ hw hs' he' hpath').mark_zero hclosed
    (hclosed _ ⟨s', e', v', hs', he', hpath', rfl⟩)
  rw [hpath.mark_zero_leave ha, hpath'.mark_zero_leave ha] at hzero
  -- The span of the best match is that of the other one, or comes before it.
  rcases hzero with heq | ⟨i, j, k, l, hbest, hother, hlt⟩
  · cases heq
    exact ⟨Nat.le_refl _, fun _ => Nat.le_refl _⟩
  · cases hbest
    cases hother
    exact ⟨by omega, by omega⟩

end Settles

namespace Simulation

variable {sim : Simulation}

/-- Beginning a thread, unless a match is known; then none that begins here could matter. -/
theorem seed_tracks (ha : a.Scoped spans scopes) (hle : start ≤ pos)
    (h : sim.Tracks a subject start pos pos) (hsettles : Settles a subject start pos sim.best) :
    ∃ sim', sim.seed a subject pos = some sim' ∧ sim'.best = sim.best ∧
      sim'.Tracks a subject start pos (pos + 1) := by
  obtain ⟨current, spare, openVisits, best⟩ := sim
  obtain ⟨hfollows, hspare, hempty, hcovers⟩ := h
  cases best with
  | none =>
    -- No match is known, so a thread begins here.
    obtain ⟨current', openVisits', hadd, hfollows', hkept, hbegun⟩ :=
      hfollows.addThread ha openVisits (ha.lt_of_within ha.start) (arrives_start hle)
        fun g p hg hp => by
          rw [Slots.mark_initial_of_pos _ _ hg] at hp
          cases hp
    refine ⟨⟨current', spare, openVisits', none⟩, by simp only [seed, hadd], rfl, hfollows', hspare,
      hempty, fun {s} hs hlt hmatters q v hpath => ?_⟩
    rcases Nat.eq_or_lt_of_le (Nat.le_of_lt_succ hlt) with rfl | hlt
    · -- A path that begins here has not read anything yet.
      refine hfollows'.covers_of_path ha hs (fun _ => hbegun) (fun hpath' hc _ _ _ => ?_) hpath
      have := hpath'.start_le
      dsimp only at this
      omega
    · exact hkept (hcovers hs hlt hmatters hpath)
  | some w =>
    -- A match is known. What matters begins no later than that match, which ended before.
    refine ⟨_, rfl, rfl, hfollows, hspare, hempty, fun {s} hs hlt hmatters q v hpath => ?_⟩
    obtain ⟨s', e, u, -, hepos, hpath', rfl⟩ := hsettles.some w rfl
    have hle' := (matters_of_path ha hpath').1 hmatters
    have := hpath'.start_le
    dsimp only at this
    exact hcovers hs (by omega) hmatters hpath

/-- A match that ends here and matters leads to that of the thread in the accepting state. -/
theorem Tracks.ascends_accept (ha : a.Scoped spans scopes)
    (h : sim.Tracks a subject start pos (pos + 1)) (hs : start ≤ s) (hmatters : Matters sim.best s)
    (hpath : a.Path subject (a.origin s) ⟨a.accept, ⟨pos, v⟩⟩) :
    sim.current.contains a.accept = true ∧ Slots.Ascends (a.Reports subject start (pos + 1))
      (v.leave 0 pos) ((sim.current.record a.accept).leave 0 pos) := by
  obtain ⟨u, ⟨hcontains, rfl⟩, hascends⟩ :=
    h.covers hs (Nat.lt_succ_of_le hpath.start_le) hmatters hpath
  exact ⟨hcontains, ascends_of_accept ha (.of_path ha hs hpath) hascends⟩

/-- Taking the match that ends here, if it is the best one so far. -/
theorem harvest_settles (ha : a.Scoped spans scopes) (h : sim.Tracks a subject start pos (pos + 1))
    (hsettles : Settles a subject start pos sim.best) :
    Settles a subject start (pos + 1) (sim.harvest a pos).best ∧
      (sim.harvest a pos).Tracks a subject start pos (pos + 1) := by
  unfold harvest
  split
  · rename_i hcontains
    dsimp only
    -- The accepting state has a thread, so its record closed here is a match.
    obtain ⟨k, hk, -, hpath⟩ := h.follows.arrives ⟨hcontains, rfl⟩
    have hreports : a.Reports subject start (pos + 1)
        ((sim.current.record a.accept).leave 0 pos) :=
      ⟨k, pos, _, hk, Nat.lt_succ_self pos, hpath, rfl⟩
    split
    · -- The match takes the place of the best one, which it beats.
      rename_i hbeats
      have hgt (u : Slots) (hu : u ∈ sim.best) :
          ((sim.current.record a.accept).leave 0 pos).order u = .gt := by
        rw [hu, Option.all_some] at hbeats
        exact beq_iff_eq.1 hbeats
      refine ⟨⟨nofun, fun w hw => ?_, fun w hw s e v hs he hpath' => ?_⟩, h.follows,
        h.spare_wellformed, h.spare_empty, fun {s} hs hlt hmatters q v hpath' => ?_⟩
      · cases hw
        exact hreports
      · cases hw
        refine hsettles.ascends_succ ha (fun u hu => .single hreports ?_)
          (fun s v hs hmatters hpath' => (h.ascends_accept ha hs hmatters hpath').2) hs he hpath'
        rw [hgt u hu]
        nofun
      · -- What matters beside the new match has mattered before, since the new one began no later.
        refine h.covers hs hlt (fun u hu p hp => ?_) hpath'
        refine Nat.le_trans ((matters_of_path ha hpath).1 hmatters) (Nat.le_of_not_lt fun hlt => ?_)
        cases (Slots.order_eq_gt_iff.1 (hgt u hu)).symm.trans
          (Slots.order_eq_gt_of_start? hp (hpath.start?_leave ha) hlt)
    · -- The match leads to the best one, which it does not beat.
      rename_i hbeats
      have hsome (w : Slots) (hw : w ∈ sim.best) : a.Reports subject start (pos + 1) w :=
        (hsettles.some w hw).mono (Nat.le_succ pos)
      refine ⟨⟨fun hnone => ?_, hsome, fun w hw s e v hs he hpath' => ?_⟩, h⟩
      · rw [hnone] at hbeats
        exact absurd rfl hbeats
      · refine hsettles.ascends_succ ha (fun u hu => ?_) (fun s v hs hmatters hpath' => ?_) hs he
          hpath'
        · cases hw.symm.trans hu
          exact .refl _ w
        · refine (h.ascends_accept ha hs hmatters hpath').2.tail (hsome w hw) fun hlt => ?_
          rw [hw, Option.all_some] at hbeats
          exact hbeats (beq_iff_eq.2 (Slots.order_eq_gt_iff.2 hlt))
  · rename_i hnot
    -- No match ends here, so the best one settles one position more.
    refine ⟨hsettles.carry ha (Nat.le_succ pos) fun s e hs hle hlt hmatters ⟨v, hpath⟩ => ?_, h⟩
    obtain rfl : e = pos := by omega
    exact hnot (h.ascends_accept ha hs hmatters hpath).1

/-- Advancing all threads over a byte. -/
theorem advance_tracks (ha : a.Scoped spans scopes) (h : sim.Tracks a subject start pos (pos + 1))
    (hb : subject.byteAt? pos = some b) :
    ∃ sim', sim.advance a subject (pos + 1) b = some sim' ∧ sim'.best = sim.best ∧
      sim'.Tracks a subject start (pos + 1) (pos + 1) := by
  obtain ⟨current, spare, openVisits, best⟩ := sim
  obtain ⟨hfollows, hspare, hempty, hcovers⟩ := h
  have hmem {q : Nat} : q ∈ current.dense.toList ↔ current.contains q = true := by
    rw [Array.mem_toList_iff]
    exact hfollows.wellformed.mem_dense_iff
  obtain ⟨next, openVisits', hfold, hnext, -, hadvanced⟩ :=
    advanceThreads_follows ha best hfollows hb (fun q hq => hmem.1 hq)
      (ThreadSet.follows_of_empty hspare hempty) openVisits
  rw [Array.foldlM_toList] at hfold
  refine ⟨⟨next, current.clear, openVisits', best⟩, by simp only [advance, hfold], rfl, hnext,
    hfollows.wellformed.clear, ThreadSet.contains_clear current, ?_⟩
  intro s hs hlt hmatters q v hpath
  -- A path gets to the next position by reading the byte, and a thread reads it too.
  refine hnext.covers_of_path ha hs (fun heq => absurd heq (Nat.ne_of_lt hlt)) ?_ hpath
  intro q c v b' st target hpath' hc hb' hst htarget
  obtain rfl : c = pos := Nat.succ_injective hc
  cases hb.symm.trans hb'
  obtain ⟨u, ⟨hcontains, rfl⟩, hascends⟩ := hcovers hs hlt hmatters hpath'
  obtain ⟨p, hp, hle⟩ := exists_start_le_of_ascends hascends (hpath'.start?_eq ha).1
  have hlate : isLate best (current.record q) = false :=
    isLate_eq_false hp fun w hw k hk => Nat.le_trans hle (hmatters w hw k hk)
  exact (hadvanced q (hmem.2 hcontains) st target hst htarget hlate).of_ascends
    (ascends_of_read ha hst hb htarget hascends)

/-- When there are no threads left, no path that matters leads on from here. -/
theorem Tracks.stop_lt_of_isEmpty (h : sim.Tracks a subject start pos (pos + 1))
    (hempty : sim.current.isEmpty = true) (hs : start ≤ s) (hlt : s < pos + 1)
    (hmatters : Matters sim.best s) {x : Thread} (hpath : a.Path subject (a.origin s) x) :
    x.place.stop < pos := by
  have hnone {q : Nat} {v : Slots} (hpath : a.Path subject (a.origin s) ⟨q, ⟨pos, v⟩⟩) : False := by
    obtain ⟨u, ⟨hcontains, -⟩, -⟩ := h.covers hs hlt hmatters hpath
    have hmem := h.follows.wellformed.mem_dense_iff.2 hcontains
    rw [ThreadSet.isEmpty, Array.isEmpty_iff] at hempty
    rw [hempty] at hmem
    exact Array.not_mem_empty _ hmem
  -- A path gets from one position to the next one, so it cannot leave this one out.
  have hbefore {x : Thread} (hpath : a.Path subject (a.origin s) x) (hle : x.place.stop ≤ pos) :
      x.place.stop < pos := by
    refine Nat.lt_of_le_of_ne hle fun heq => ?_
    obtain ⟨q, c, v⟩ := x
    obtain rfl : c = pos := heq
    exact hnone hpath
  refine (hpath.preserves (P := fun x => a.Path subject (a.origin s) x ∧ x.place.stop < pos)
    (fun x y hx hstep => ?_) ⟨Path.refl a subject _, ?_⟩).2
  · have hy := hx.1.tail hstep
    exact ⟨hy, hbefore hy (Nat.le_trans hstep.stop_le.2 hx.2)⟩
  · exact hbefore (Path.refl a subject _) (Nat.le_of_lt_succ hlt)

/-- To the record of a simulation that has no threads left all matches lead. -/
theorem Tracks.settles_of_isSettled (ha : a.Scoped spans scopes)
    (h : sim.Tracks a subject start pos (pos + 1))
    (hsettles : Settles a subject start (pos + 1) sim.best) (hsettled : sim.isSettled = true)
    {bound : Nat} (hle : pos + 1 ≤ bound) : Settles a subject start bound sim.best := by
  rw [isSettled, Bool.and_eq_true] at hsettled
  obtain ⟨hempty, hsome⟩ := hsettled
  obtain ⟨w, hw⟩ := Option.isSome_iff_exists.1 hsome
  obtain ⟨k, e, u, -, he, hpath, rfl⟩ := hsettles.some w hw
  refine hsettles.carry ha hle fun s e' hs he' _ hmatters haccepts => ?_
  -- What matters begins no later than the best match, hence no later than here.
  have hlt : s < pos + 1 := by
    rw [hw, matters_of_path ha hpath] at hmatters
    exact Nat.lt_of_le_of_lt (Nat.le_trans hmatters hpath.start_le) he
  obtain ⟨v, hpath'⟩ := haccepts
  have := h.stop_lt_of_isEmpty hempty hs hlt hmatters hpath'
  dsimp only at this
  omega

/-- The simulation comes to its end, and all matches lead to its record then. -/
theorem run_settles (ha : a.Scoped spans scopes) {remaining : Nat} (hle : remaining ≤ subject.size)
    (hstart : start ≤ subject.size - remaining)
    (h : sim.Tracks a subject start (subject.size - remaining) (subject.size - remaining))
    (hsettles : Settles a subject start (subject.size - remaining) sim.best) :
    ∃ best, run a subject remaining sim = some best ∧
      Settles a subject start (subject.size + 1) best := by
  induction remaining generalizing sim with
  | zero =>
    rw [Nat.sub_zero] at hstart h hsettles
    -- At the end of the text there is no byte to read.
    obtain ⟨sim₁, hseed, hbest, htracks⟩ := seed_tracks ha hstart h hsettles
    rw [← hbest] at hsettles
    obtain ⟨hsettles', -⟩ := harvest_settles ha htracks hsettles
    exact ⟨_, by rw [run, hseed]; rfl, hsettles'⟩
  | succ remaining ih =>
    obtain ⟨sim₁, hseed, hbest, htracks⟩ := seed_tracks ha hstart h hsettles
    rw [← hbest] at hsettles
    obtain ⟨hsettles', htracks'⟩ := harvest_settles ha htracks hsettles
    have hpos : subject.size - (remaining + 1) + 1 = subject.size - remaining := by omega
    obtain ⟨b, hb⟩ : ∃ b, subject.byteAt? (subject.size - (remaining + 1)) = some b :=
      ⟨_, Array.getElem?_eq_getElem (show _ < subject.haystack.size from by
        rw [Subject.size] at hle ⊢
        omega)⟩
    rw [run, hseed]
    simp only [Option.bind_eq_bind, Option.bind_some]
    split
    · -- No match that matters can come any more.
      rename_i hsettled
      exact ⟨_, rfl, htracks'.settles_of_isSettled ha hsettles' hsettled (by omega)⟩
    · obtain ⟨sim₂, hadvance, hbest', htracks''⟩ := advance_tracks ha htracks' hb
      simp only [hb, hadvance, Option.bind_some]
      rw [← hbest', hpos] at hsettles'
      rw [hpos] at htracks''
      exact ih (by omega) (by omega) htracks'' hsettles'

/-- A simulation that has not begun has no threads. -/
theorem tracks_init (a : Automaton) (subject : Subject) (start : Nat) :
    Tracks a subject start start start (init a) where
  follows :=
    ThreadSet.follows_of_empty (ThreadSet.wellformed_empty _ _) (ThreadSet.contains_empty _ _)
  spare_wellformed := ThreadSet.wellformed_empty _ _
  spare_empty := ThreadSet.contains_empty _ _
  covers hs hlt := absurd hs (Nat.not_le_of_lt hlt)

end Simulation

/-- No match ends before the search starts. -/
theorem settles_none (a : Automaton) (subject : Subject) (hle : bound ≤ start) :
    Settles a subject start bound none := by
  refine ⟨fun _ s e hs haccepts => ?_, nofun, nofun⟩
  obtain ⟨v, hpath⟩ := haccepts
  exact Nat.le_trans hle (Nat.le_trans hs hpath.start_le)

/-- The search comes to its end, and all matches lead to its outcome. -/
theorem search_settles (ha : a.Scoped spans scopes) (subject : Subject) (start : Nat) :
    ∃ best, a.search subject start = some best ∧
      Settles a subject start (subject.size + 1) best := by
  unfold search
  split
  · exact ⟨none, rfl, settles_none a subject (by omega)⟩
  · rename_i hlt
    have hsize : subject.size - (subject.size - start) = start := by omega
    refine Simulation.run_settles ha (Nat.sub_le _ _) (Nat.le_of_eq hsize.symm) ?_ ?_
    · rw [hsize]
      exact Simulation.tracks_init a subject start
    · rw [hsize]
      exact settles_none a subject (Nat.le_refl _)

/-- The outcome of the search is the best match of all. -/
theorem search_knows (ha : a.Scoped spans scopes) (subject : Subject) (start : Nat) :
    ∃ best, a.search subject start = some best ∧
      Knows a subject start (subject.size + 1) best := by
  obtain ⟨best, hsearch, hsettles⟩ := search_settles ha subject start
  exact ⟨best, hsearch, hsettles.knows ha⟩

/-- The automaton of a tree accepts what the tree matches. -/
theorem accepts_ofExpr_iff (subject : Subject) {t : Expr} (hback : t.hasBackref = false)
    (hord : t.Orderly 0) (s e : Nat) :
    (ofExpr subject.options t).Accepts subject s e ↔ t.Matches subject s e := by
  rw [Expr.matches_iff_exists_derives hback s e (.initial t.groupCount s)]
  exact exists_congr fun w => path_ofExpr_iff subject hback hord _ ⟨e, w⟩

end PosixRegex.Automaton

namespace PosixRegex

/-- The spans that a tree matches, from a position on. -/
def Expr.spansFrom (t : Expr) (subject : Subject) (start : Nat) : Set (Nat × Nat) :=
  {m | start ≤ m.1 ∧ m.1 ≤ m.2 ∧ m.2 ≤ subject.size ∧ t.Matches subject m.1 m.2}

namespace Automaton

/-- Searching in lockstep finds the leftmost-longest match. When a pattern with the tree `t` is run
as an automaton `a`, `a.search` comes to its end. It finds no match just when
`t.spansFrom subject start` is empty; otherwise group 0 of the record `v` that it finds goes from
the least start `s` of these spans to the greatest end `e` of those that start at `s`. -/
theorem search_leftmost_longest {pattern : List UInt8} {t : Expr} (ht : Expr.parse pattern = .ok t)
    {o : Options} {a : Automaton} (ha : Engine.ofExpr o t = .ok (.automaton a))
    (haystack : Array UInt8) (flags : SearchFlags) (start : Nat) :
    let subject : Subject := ⟨haystack, o, flags⟩
    (a.search subject start = some none ↔ t.spansFrom subject start = ∅) ∧
      ((t.spansFrom subject start).Nonempty → ∃ v s e, a.search subject start = some (some v) ∧
        v.span? 0 = some (s, e) ∧
        IsLeast {s | ∃ e, (s, e) ∈ t.spansFrom subject start} s ∧
        IsGreatest {e | (s, e) ∈ t.spansFrom subject start} e) := by
  intro subject
  have hord := Expr.orderly_of_parse ht
  obtain ⟨hback, -, rfl⟩ := engine_ofExpr_eq_automaton_iff.1 ha
  have hscoped := scoped_ofExpr o hord
  -- The spans of the tree are the matches of the automaton.
  have hmem (s e : Nat) : (s, e) ∈ t.spansFrom subject start ↔
      start ≤ s ∧ e < subject.size + 1 ∧ (ofExpr o t).Accepts subject s e := by
    rw [accepts_ofExpr_iff subject hback hord]
    constructor
    · rintro ⟨hs, -, he, hmatch⟩
      exact ⟨hs, Nat.lt_succ_of_le he, hmatch⟩
    · rintro ⟨hs, he, hmatch⟩
      obtain ⟨w, hw⟩ := hmatch.exists_derives []
      exact ⟨hs, hw.extends.stop_le, Nat.le_of_lt_succ he, hmatch⟩
  obtain ⟨best, hsearch, hknows⟩ := search_knows hscoped subject start
  cases best with
  | none =>
    have hempty : t.spansFrom subject start = ∅ := by
      refine Set.eq_empty_of_forall_notMem fun ⟨s, e⟩ hse => ?_
      obtain ⟨hs, he, haccepts⟩ := (hmem s e).1 hse
      exact absurd (hknows.none rfl s e hs haccepts) (Nat.not_le_of_lt he)
    refine ⟨⟨fun _ => hempty, fun _ => hsearch⟩, fun hne => ?_⟩
    rw [hempty] at hne
    exact absurd hne Set.not_nonempty_empty
  | some w =>
    obtain ⟨s, e, v, hs, he, hpath, rfl, hbest⟩ := hknows.some w rfl
    have hse : (s, e) ∈ t.spansFrom subject start := (hmem s e).2 ⟨hs, he, v, hpath⟩
    refine ⟨⟨fun hnone => ?_, fun hempty => ?_⟩, fun _ => ⟨_, s, e, hsearch, ?_, ?_, ?_⟩⟩
    · cases hsearch.symm.trans hnone
    · rw [hempty] at hse
      exact hse.elim
    · rw [Slots.span?, hpath.mark_zero_leave hscoped]
      rfl
    · refine ⟨⟨e, hse⟩, fun s' ⟨e', hmem'⟩ => ?_⟩
      obtain ⟨hs', he', haccepts⟩ := (hmem s' e').1 hmem'
      exact (hbest s' e' hs' he' haccepts).1
    · refine ⟨hse, fun e' hmem' => ?_⟩
      obtain ⟨hs', he', haccepts⟩ := (hmem s e').1 hmem'
      exact (hbest s e' hs' he' haccepts).2 rfl

/-- In `xab` the match of `a|ab` is `ab`, which is longer than the one of the first branch. -/
theorem search_leftmost_longest_branches :
    let t : Expr := .alternation [.literal 97, .concat [.literal 97, .literal 98]]
    let a := ofExpr {} t
    let subject : Subject := ⟨#[120, 97, 98], {}, {}⟩
    Expr.parse [97, 124, 97, 98] = .ok t ∧ Engine.ofExpr {} t = .ok (.automaton a) ∧
      a.search subject 0 = some (some [⟨some 1, some 3⟩]) ∧
      IsLeast {s | ∃ e, (s, e) ∈ t.spansFrom subject 0} 1 ∧
      IsGreatest {e | (1, e) ∈ t.spansFrom subject 0} 3 := by
  intro t a subject
  have hparse : Expr.parse [97, 124, 97, 98] = .ok t := rfl
  have hengine : Engine.ofExpr {} t = .ok (.automaton a) := rfl
  have hsearch : a.search subject 0 = some (some [⟨some 1, some 3⟩]) := by decide +kernel
  obtain ⟨hnone, hsome⟩ := search_leftmost_longest hparse hengine #[120, 97, 98] {} 0
  have hne : (t.spansFrom subject 0).Nonempty := by
    rw [Set.nonempty_iff_ne_empty]
    intro hempty
    cases hsearch.symm.trans (hnone.2 hempty)
  obtain ⟨v, s, e, hsearch', hspan, hleast, hgreatest⟩ := hsome hne
  cases hsearch.symm.trans hsearch'
  obtain ⟨rfl, rfl⟩ : 1 = s ∧ 3 = e := Prod.mk.inj (Option.some.inj hspan)
  exact ⟨hparse, hengine, hsearch, hleast, hgreatest⟩

/-- A match that is found in lockstep is one derivation. All that the record `v` tells, of the whole
match from `s` to `e` and of each group, comes from a single derivation of `t` over this span, which
begins with the `initial` record, where only the start of the whole match is known. -/
theorem search_derivation {pattern : List UInt8} {t : Expr} (ht : Expr.parse pattern = .ok t)
    {o : Options} {a : Automaton} (ha : Engine.ofExpr o t = .ok (.automaton a))
    (haystack : Array UInt8) (flags : SearchFlags) (start : Nat) {v : Slots}
    (hsearch : a.search ⟨haystack, o, flags⟩ start = some (some v)) :
    ∃ s e w, start ≤ s ∧ s ≤ e ∧ e ≤ haystack.size ∧ v.span? 0 = some (s, e) ∧
      t.Derives ⟨haystack, o, flags⟩ ⟨s, .initial t.groupCount s⟩ ⟨e, w⟩ ∧ v = w.leave 0 e := by
  have hord := Expr.orderly_of_parse ht
  obtain ⟨hback, -, rfl⟩ := engine_ofExpr_eq_automaton_iff.1 ha
  have hscoped := scoped_ofExpr o hord
  obtain ⟨best, hsearch', hknows⟩ := search_knows hscoped ⟨haystack, o, flags⟩ start
  cases hsearch.symm.trans hsearch'
  -- The record is that of an accepting path, and the path is a derivation.
  obtain ⟨s, e, w, hs, he, hpath, rfl, -⟩ := hknows.some v rfl
  refine ⟨s, e, w, hs, hpath.start_le, Nat.le_of_lt_succ he, ?_, ?_, rfl⟩
  · rw [Slots.span?, hpath.mark_zero_leave hscoped]
    rfl
  · exact (path_ofExpr_iff ⟨haystack, o, flags⟩ hback hord _ ⟨e, w⟩).1 hpath

/-- In `ab` the last pass of `((a)|b)*` is over `b`, and the span of `(a)` from the pass before is
forgotten. -/
theorem search_derivation_last_pass :
    let t : Expr := .loop (.group 1 (.alternation [.group 2 (.literal 97), .literal 98])) 0 none
    let a := ofExpr {} t
    let subject : Subject := ⟨#[97, 98], {}, {}⟩
    Expr.parse [40, 40, 97, 41, 124, 98, 41, 42] = .ok t ∧
      Engine.ofExpr {} t = .ok (.automaton a) ∧
      a.search subject 0 = some (some [⟨some 0, some 2⟩, ⟨some 1, some 2⟩, ⟨none, none⟩]) ∧
      ∃ w, t.Derives subject ⟨0, .initial 2 0⟩ ⟨2, w⟩ ∧
        w.leave 0 2 = [⟨some 0, some 2⟩, ⟨some 1, some 2⟩, ⟨none, none⟩] := by
  intro t a subject
  have hparse : Expr.parse [40, 40, 97, 41, 124, 98, 41, 42] = .ok t := by decide +kernel
  have hengine : Engine.ofExpr {} t = .ok (.automaton a) := rfl
  have hsearch : a.search subject 0 =
      some (some [⟨some 0, some 2⟩, ⟨some 1, some 2⟩, ⟨none, none⟩]) := by decide +kernel
  obtain ⟨s, e, w, -, -, -, hspan, hderives, hw⟩ :=
    search_derivation hparse hengine #[97, 98] {} 0 hsearch
  obtain ⟨rfl, rfl⟩ : 0 = s ∧ 2 = e := Prod.mk.inj (Option.some.inj hspan)
  exact ⟨hparse, hengine, hsearch, w, hderives, hw.symm⟩

end Automaton

end PosixRegex
