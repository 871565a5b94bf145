import Mathlib.Logic.Function.Conjugate
import Mathlib.Logic.Function.Iterate
import PosixRegex.Proofs.Shift
import PosixRegex.Proofs.Termination
import PosixRegex.Proofs.Unwinding

/-!
# Explorations in view of some states

An exploration may visit states that do not matter for what is asked of it. Seen through the states
that do, it is a machine that goes from one errand to the next: the threads in these states in the
order of their arrival, how many of their visits are not over, and the visits that are still to be
made and to be ended.

Whatever else an exploration does cannot be seen, as long as no other state leads to one in view. So
two explorations that look alike end alike, although one of them may visit more states than the
other. Moving the text on moves all records on, and nothing else.

- `ThreadSet.visible`: the threads in view.
- `Exploration.view`, `View.step`: an exploration in view of some states, and what it does next.
- `Exploration.perform_view`: a task cannot be seen, or is one step of the view.
- `View.step_shift`: the steps of a view further on.
- `addThread_visible`: adding a thread to sets that look alike.
-/

namespace PosixRegex.Automaton

namespace ThreadSet

/-- The threads in the states in view, in the order of their arrival. -/
def visible (live : Nat → Bool) (t : ThreadSet) : List (Nat × Slots) :=
  (t.dense.toList.filter live).map fun id => (id, t.record id)

/-- The threads with a record for a state: it replaces the one that the state has, or is that of a
new thread. -/
def putRecord (threads : List (Nat × Slots)) (id : Nat) (v : Slots) : List (Nat × Slots) :=
  if (threads.lookup id).isSome then threads.map fun p => if p.1 = id then (id, v) else p
  else threads ++ [(id, v)]

/-- The first thread in a state is the one that is found. -/
theorem lookup_cons (id : Nat) (v : Slots) (threads : List (Nat × Slots)) (other : Nat) :
    ((id, v) :: threads).lookup other = if other = id then some v else threads.lookup other := by
  rw [List.lookup_cons]
  by_cases hother : other = id
  · simp [hother]
  · simp [hother, beq_eq_false_iff_ne.2 hother]

theorem lookup_replace (threads : List (Nat × Slots)) (id other : Nat) (v : Slots) :
    (threads.map fun p => if p.1 = id then (id, v) else p).lookup other =
      if other = id then (threads.lookup id).map fun _ => v else threads.lookup other := by
  induction threads with
  | nil => simp
  | cons p threads ih =>
    obtain ⟨q, u⟩ := p
    rw [List.map_cons, lookup_cons, lookup_cons]
    by_cases hq : q = id
    · subst hq
      rw [if_pos rfl, if_pos rfl, lookup_cons, ih]
      split <;> rfl
    · rw [if_neg hq, if_neg (Ne.symm hq), lookup_cons, ih]
      by_cases hother : other = id
      · rw [if_neg (hother ▸ Ne.symm hq), if_pos hother, if_pos hother]
      · rw [if_neg hother, if_neg hother]

/-- A state has the record that was put there, and the other states keep theirs. -/
theorem lookup_putRecord (threads : List (Nat × Slots)) (id other : Nat) (v : Slots) :
    (putRecord threads id v).lookup other =
      if other = id then some v else threads.lookup other := by
  unfold putRecord
  split
  · rename_i hsome
    obtain ⟨u, hu⟩ := Option.isSome_iff_exists.1 hsome
    rw [lookup_replace, hu]
    rfl
  · rename_i hnone
    rw [List.lookup_append, lookup_cons]
    by_cases hother : other = id
    · subst hother
      rw [Option.not_isSome_iff_eq_none.1 hnone]
      rfl
    · rw [if_neg hother, if_neg hother]
      exact Option.or_none

variable {live : Nat → Bool} {t : ThreadSet} {states groups id : Nat} {v w : Slots}

/-- A state is added behind the others. -/
theorem visible_insert (live : Nat → Bool) (t : ThreadSet) (id : Nat) :
    (t.insert id).visible live =
      t.visible live ++ if live id then [(id, t.record id)] else [] := by
  have hdense : (t.insert id).dense.toList = t.dense.toList ++ [id] := Array.toList_push
  rw [visible, hdense, List.filter_append, List.map_append]
  refine congrArg (t.visible live ++ ·) ?_
  cases hlive : live id <;> simp [hlive, record, insert]

namespace Wellformed

/-- What is in view are threads. -/
theorem mem_visible (h : t.Wellformed states groups) :
    (id, v) ∈ t.visible live ↔ live id = true ∧ t.Holds id v := by
  simp only [visible, List.mem_map, List.mem_filter, Array.mem_toList_iff, h.mem_dense_iff,
    Prod.mk.injEq, Holds]
  constructor
  · rintro ⟨_, ⟨hcontains, hlive⟩, rfl, rfl⟩
    exact ⟨hlive, hcontains, rfl⟩
  · rintro ⟨hlive, hcontains, rfl⟩
    exact ⟨id, ⟨hcontains, hlive⟩, rfl, rfl⟩

/-- A state in view has the thread that is seen. -/
theorem lookup_visible (h : t.Wellformed states groups) (hlive : live id = true) :
    (t.visible live).lookup id = if t.contains id then some (t.record id) else none := by
  have hlookup (ids : List Nat) : (ids.map fun i => (i, t.record i)).lookup id =
      if id ∈ ids then some (t.record id) else none := by
    induction ids with
    | nil => rfl
    | cons i ids ih =>
      rw [List.map_cons, lookup_cons, ih]
      by_cases hi : id = i <;> simp [hi]
  rw [visible, hlookup]
  simp only [List.mem_filter, Array.mem_toList_iff, h.mem_dense_iff, hlive, and_true]

/-- A new record can be seen where the state has a thread. -/
theorem visible_setRecord (h : t.Wellformed states groups) (id : Nat) (hv : v.length = groups + 1) :
    (t.setRecord id v).visible live =
      (t.visible live).map fun p => if p.1 = id then (id, v) else p := by
  have hdense : (t.setRecord id v).dense = t.dense := rfl
  simp only [visible, hdense, List.map_map]
  refine List.map_congr_left fun other hother => ?_
  have hcontains : t.contains other = true :=
    h.mem_dense_iff.1 (Array.mem_toList_iff.1 (List.mem_filter.1 hother).1)
  show (other, (t.setRecord id v).record other) = if other = id then (id, v) else _
  split
  · rename_i heq
    subst heq
    rw [h.record_setRecord_self (h.lt_of_contains hcontains) hv]
  · rename_i hne
    rw [record_setRecord_of_ne t (Ne.symm hne)]

/-- No state out of view is seen. -/
theorem ne_of_mem_visible (h : t.Wellformed states groups)
    (hnot : live id = false ∨ t.contains id = false) {p : Nat × Slots}
    (hp : p ∈ t.visible live) : p.1 ≠ id := by
  obtain ⟨hlive, hholds⟩ := h.mem_visible.1 hp
  rintro rfl
  rcases hnot with hnot | hnot
  · rw [hlive] at hnot
    cases hnot
  · rw [hholds.1] at hnot
    cases hnot

/-- The record of a state out of view cannot be seen. -/
theorem visible_setRecord_of_dead (h : t.Wellformed states groups) (hdead : live id = false)
    (hv : v.length = groups + 1) : (t.setRecord id v).visible live = t.visible live := by
  rw [h.visible_setRecord id hv]
  exact (List.map_congr_left fun p hp => if_neg (h.ne_of_mem_visible (.inl hdead) hp)).trans
    (List.map_id _)

/-- A new record of a state in view. -/
theorem visible_setRecord_of_contains (h : t.Wellformed states groups) (hlive : live id = true)
    (hcontains : t.contains id = true) (hv : v.length = groups + 1) :
    (t.setRecord id v).visible live = putRecord (t.visible live) id v := by
  rw [h.visible_setRecord id hv, putRecord, h.lookup_visible hlive, hcontains]
  rfl

/-- A new thread in a state in view. -/
theorem visible_insert_setRecord (h : t.Wellformed states groups) (hlive : live id = true)
    (hid : id < states) (hnot : t.contains id = false) (hv : v.length = groups + 1) :
    ((t.insert id).setRecord id v).visible live = putRecord (t.visible live) id v := by
  have hkeep : ((t.visible live).map fun p => if p.1 = id then (id, v) else p) = t.visible live :=
    (List.map_congr_left fun p hp => if_neg (h.ne_of_mem_visible (.inr hnot) hp)).trans
      (List.map_id _)
  rw [(h.insert hid hnot).visible_setRecord id hv, visible_insert, hlive, List.map_append, hkeep,
    putRecord, h.lookup_visible hlive, hnot]
  simp

end Wellformed

end ThreadSet

/-! ### Errands -/

/-- What an exploration still has to do. -/
inductive Errand where
  /-- Visit a state with a record. -/
  | visit (id : Nat) (record : Slots)
  /-- End the visit of a state. -/
  | finish (id : Nat)

namespace Errand

/-- The state that an errand is about. -/
def state : Errand → Nat
  | visit id _ | finish id => id

/-- An errand with all positions moved on. -/
def shift (d : Nat) : Errand → Errand
  | visit id v => visit id (v.shift d)
  | finish id => finish id

@[simp]
theorem state_shift (d : Nat) (x : Errand) : (x.shift d).state = x.state := by
  cases x <;> rfl

/-- The visits of the states that a state moves to. -/
def ofMoves (subject : Subject) (pos : Nat) (v : Slots) (st : State) : List Errand :=
  (st.moves subject pos v).map fun p => visit p.1 p.2

end Errand

/-- An exploration in view of some states. -/
structure View where
  /-- The threads, in the order of their arrival. -/
  threads : List (Nat × Slots)
  /-- For each state, how many visits of it are not over. -/
  openVisits : Nat → Option Nat
  /-- What is still to be done. -/
  errands : List Errand

/-- The states out of view are shut: none of them moves to one in view. -/
def Shut (a : Automaton) (subject : Subject) (pos : Nat) (live : Nat → Bool) : Prop :=
  ∀ q st, a.states[q]? = some st → live q = false →
    ∀ v, ∀ p ∈ st.moves subject pos v, live p.1 = false

/-- Nothing in view is one way to look at an automaton. -/
theorem shut_nothing (a : Automaton) (subject : Subject) (pos : Nat) :
    a.Shut subject pos fun _ => false :=
  fun _ _ _ _ _ _ _ => rfl

namespace View

/-- Whether a state is visited with a record. -/
def accepts (w : View) (id : Nat) (v : Slots) : Bool :=
  match w.threads.lookup id with
  | none => true
  | some u =>
    match v.order u with
    | .gt => true
    | .eq => 0 < (w.openVisits id).getD 0 && u.entered < v.entered
    | .lt => false

/-- Begins the visit of a state. -/
def begin (w : View) (id : Nat) (v : Slots) : View where
  threads := ThreadSet.putRecord w.threads id v
  openVisits q := if q = id then (w.openVisits q).map (· + 1) else w.openVisits q
  errands := .finish id :: w.errands

/-- Puts those errands that are in view in front. -/
def schedule (live : Nat → Bool) (errands : List Errand) (w : View) : View :=
  { w with errands := errands.filter (live ·.state) ++ w.errands }

/-- Visits a state. -/
def visit (a : Automaton) (subject : Subject) (pos : Nat) (live : Nat → Bool) (w : View) (id : Nat)
    (v : Slots) : View :=
  match a.states[id]? with
  | none => w
  | some st =>
    if w.accepts id v then (w.begin id v).schedule live (Errand.ofMoves subject pos v st) else w

/-- Does the next errand. -/
def step (a : Automaton) (subject : Subject) (pos : Nat) (live : Nat → Bool) (w : View) : View :=
  match w.errands with
  | [] => w
  | .visit id v :: errands => { w with errands }.visit a subject pos live id v
  | .finish id :: errands =>
    { threads := w.threads
      openVisits := fun q => if q = id then (w.openVisits q).map (· - 1) else w.openVisits q
      errands }

end View

namespace Exploration

/-- The numbers of the states in view. -/
def counts (live : Nat → Bool) (openVisits : Array Nat) (q : Nat) : Option Nat :=
  if live q then openVisits[q]? else none

/-- A number that is not in view can change. -/
theorem counts_modify_of_dead {live : Nat → Bool} {id : Nat} (hdead : live id = false)
    (openVisits : Array Nat) (f : Nat → Nat) :
    counts live (openVisits.modify id f) = counts live openVisits := by
  funext q
  rw [counts, counts, Array.getElem?_modify]
  by_cases hq : id = q
  · simp [← hq, hdead]
  · simp [hq]

theorem counts_modify_of_live {live : Nat → Bool} {id : Nat} (hlive : live id = true)
    (openVisits : Array Nat) (f : Nat → Nat) :
    counts live (openVisits.modify id f) =
      fun q => if q = id then (counts live openVisits q).map f else counts live openVisits q := by
  funext q
  rw [counts, counts, Array.getElem?_modify]
  by_cases hq : id = q
  · simp [← hq, hlive]
  · simp [hq, Ne.symm hq]

/-- The errands that tasks amount to, given the present record. -/
def errandsOf (v : Slots) : List Task → List Errand
  | [] => []
  | .visit id :: tasks => .visit id v :: errandsOf v tasks
  | .restore slot value :: tasks => errandsOf (v.setSlot slot value) tasks
  | .finish id :: tasks => .finish id :: errandsOf v tasks

/-- An exploration in view of some states. -/
def view (live : Nat → Bool) (e : Exploration) : View where
  threads := e.threads.visible live
  openVisits := counts live e.openVisits
  errands := (errandsOf e.record e.tasks).filter (live ·.state)

variable {a : Automaton} {subject : Subject} {pos : Nat} {live : Nat → Bool} {e e' : Exploration}

/-- Behind tasks, errands are run with the record as these leave it. -/
theorem errandsOf_append (v : Slots) (tasks tasks' : List Task) :
    errandsOf v (tasks ++ tasks') = errandsOf v tasks ++ errandsOf (undone v tasks) tasks' := by
  induction tasks generalizing v with
  | nil => rfl
  | cons task tasks ih =>
    cases task with
    | visit id => exact congrArg (Errand.visit id v :: ·) (ih v)
    | restore slot value => exact ih _
    | finish id => exact congrArg (Errand.finish id :: ·) (ih v)

theorem errandsOf_visits (v : Slots) (targets : List Nat) (tasks : List Task) :
    errandsOf v (targets.map .visit ++ tasks) = targets.map (.visit · v) ++ errandsOf v tasks := by
  induction targets with
  | nil => rfl
  | cons id targets ih => exact congrArg (Errand.visit id v :: ·) ih

/-- Behind tasks that put a record back, errands are run with that record. -/
theorem errandsOf_restores {v w : Slots} {slots : List Nat}
    (h : undone w (restores v slots) = v) (tasks : List Task) :
    errandsOf w (restores v slots ++ tasks) = errandsOf v tasks := by
  have hnone (w : Slots) : errandsOf w (restores v slots) = [] := by
    clear h
    induction slots generalizing w with
    | nil => rfl
    | cons slot slots ih => exact ih _
  rw [errandsOf_append, hnone, h, List.nil_append]

/-- Leading on from a state puts its moves in front. -/
theorem errandsOf_follow (subject : Subject) (pos : Nat) (e : Exploration) {st : State}
    (hst : st.Nests) :
    errandsOf (e.follow subject pos st).record (e.follow subject pos st).tasks =
      Errand.ofMoves subject pos e.record st ++ errandsOf e.record e.tasks := by
  cases st with
  | byte | set | accept | skip => rfl
  | branch targets =>
    rw [Errand.ofMoves, State.moves, List.map_map]
    exact errandsOf_visits e.record targets e.tasks
  | assertion anchor next =>
    simp only [follow, Errand.ofMoves, State.moves]
    split <;> rfl
  | enterGroup group lastNested next =>
    have hback := undone_restores_enter e.record hst pos
    exact congrArg (Errand.visit next _ :: ·) (errandsOf_restores hback e.tasks)
  | leaveGroup group next =>
    have hback := undone_restores_leave e.record group pos
    exact congrArg (Errand.visit next _ :: ·) (errandsOf_restores hback e.tasks)

/-- Leading on from a state schedules those of its moves that are in view. -/
theorem view_follow (subject : Subject) (pos : Nat) (live : Nat → Bool) (e : Exploration)
    {st : State} (hst : st.Nests) : (e.follow subject pos st).view live =
      (e.view live).schedule live (Errand.ofMoves subject pos e.record st) := by
  rw [view, threads_follow, openVisits_follow, errandsOf_follow subject pos e hst,
    List.filter_append]
  rfl

/-- Beginning the visit of a state out of view cannot be seen. -/
theorem view_begin_of_dead {id : Nat} (hdead : live id = false) {threads : ThreadSet}
    (h : (threads.setRecord id e.record).visible live = e.threads.visible live) :
    (({ e with threads } : Exploration).begin id).view live = e.view live := by
  simp [view, begin, h, errandsOf, Errand.state, hdead, counts_modify_of_dead hdead]

/-- Beginning the visit of a state in view. -/
theorem view_begin_of_live {id : Nat} (hlive : live id = true) {threads : ThreadSet}
    (h : (threads.setRecord id e.record).visible live =
      ThreadSet.putRecord (e.threads.visible live) id e.record) :
    (({ e with threads } : Exploration).begin id).view live = (e.view live).begin id e.record := by
  simp [view, begin, View.begin, h, errandsOf, Errand.state, hlive, counts_modify_of_live hlive]

/-- The visit of a state out of view cannot be seen. -/
theorem view_visit_of_dead (ha : a.Nests) (hshut : a.Shut subject pos live)
    (hfits : e.Fits a) {id : Nat} (hdead : live id = false) :
    (e.visit a subject pos id).view live = e.view live := by
  unfold visit
  split
  · rfl
  · rename_i st hst
    obtain ⟨hid, -⟩ := Array.getElem?_eq_some_iff.1 hst
    -- None of the moves of the state is in view.
    have hnone (v : Slots) (w : View) : w.schedule live (Errand.ofMoves subject pos v st) = w := by
      have hfilter : (Errand.ofMoves subject pos v st).filter (live ·.state) = [] := by
        rw [List.filter_eq_nil_iff]
        intro x hx
        obtain ⟨p, hp, rfl⟩ := List.mem_map.1 hx
        exact Bool.eq_false_iff.1 (hshut id st hst hdead v p hp)
      rw [View.schedule, hfilter]
      rfl
    split
    · split
      · rw [view_follow subject pos live _ (ha.state hst), hnone]
        exact view_begin_of_dead hdead
          (hfits.threads.visible_setRecord_of_dead hdead hfits.length_record)
      · rfl
    · rename_i hnot
      have hnot : e.threads.contains id = false := Bool.eq_false_iff.2 hnot
      rw [view_follow subject pos live _ (ha.state hst), hnone]
      refine view_begin_of_dead hdead ?_
      rw [(hfits.threads.insert hid hnot).visible_setRecord_of_dead hdead hfits.length_record,
        ThreadSet.visible_insert, hdead]
      exact List.append_nil _

/-- The visit of a state in view. -/
theorem view_visit_of_live (ha : a.Nests) (hfits : e.Fits a) {id : Nat}
    (hlive : live id = true) :
    (e.visit a subject pos id).view live = (e.view live).visit a subject pos live id e.record := by
  unfold visit View.visit
  cases hst : a.states[id]? with
  | none => rfl
  | some st =>
    obtain ⟨hid, -⟩ := Array.getElem?_eq_some_iff.1 hst
    have hlookup : (e.view live).threads.lookup id =
        if e.threads.contains id then some (e.threads.record id) else none :=
      hfits.threads.lookup_visible hlive
    have hopen : (e.view live).openVisits id = e.openVisits[id]? := if_pos hlive
    dsimp only
    split
    · rename_i hcontains
      rw [hcontains, if_pos rfl] at hlookup
      have haccepts : (e.view live).accepts id e.record = e.displaces id := by
        cases horder : e.record.order (e.threads.record id) <;>
          simp [View.accepts, hlookup, displaces, hopen, horder]
      rw [haccepts]
      split
      · rw [view_follow subject pos live _ (ha.state hst), view_begin_of_live hlive]
        · rfl
        · exact hfits.threads.visible_setRecord_of_contains hlive hcontains hfits.length_record
      · rfl
    · rename_i hcontains
      rw [if_neg hcontains] at hlookup
      have haccepts : (e.view live).accepts id e.record = true := by
        rw [View.accepts, hlookup]
      rw [haccepts, if_pos rfl, view_follow subject pos live _ (ha.state hst),
        view_begin_of_live hlive]
      · rfl
      · exact hfits.threads.visible_insert_setRecord hlive hid (Bool.eq_false_iff.2 hcontains)
          hfits.length_record

/-- A task cannot be seen, or does the next errand. -/
theorem perform_view (ha : a.Nests) (hshut : a.Shut subject pos live) {task : Task}
    {tasks : List Task} (htasks : e.tasks = task :: tasks) (hfits : e.Fits a) :
    (({ e with tasks } : Exploration).perform a subject pos task).view live = e.view live ∨
      (({ e with tasks } : Exploration).perform a subject pos task).view live =
        (e.view live).step a subject pos live := by
  obtain ⟨threads, record, openVisits, _⟩ := e
  obtain rfl : _ = task :: tasks := htasks
  cases task with
  | restore slot value =>
    -- The present record can be seen through the errands only.
    exact .inl rfl
  | visit id =>
    let e : Exploration := ⟨threads, record, openVisits, tasks⟩
    have hfits : e.Fits a := ⟨hfits.threads, hfits.length_record⟩
    cases hlive : live id with
    | false =>
      have hview : e.view live = view live ⟨threads, record, openVisits, .visit id :: tasks⟩ := by
        simp [e, view, errandsOf, Errand.state, hlive]
      exact .inl ((view_visit_of_dead (e := e) ha hshut hfits hlive).trans hview)
    | true =>
      refine .inr ((view_visit_of_live (e := e) ha hfits hlive).trans ?_)
      simp [e, view, View.step, errandsOf, Errand.state, hlive]
  | finish id =>
    cases hlive : live id with
    | false =>
      refine .inl ?_
      simp [view, perform, errandsOf, Errand.state, hlive, counts_modify_of_dead hlive]
    | true =>
      refine .inr ?_
      simp [view, perform, View.step, errandsOf, Errand.state, hlive, counts_modify_of_live hlive]

/-- A run that comes to its end does all errands that are in view. -/
theorem run_view (ha : a.Nests) (hshut : a.Shut subject pos live) {fuel : Nat}
    (hrun : e.run a subject pos fuel = some e') (hfits : e.Fits a) :
    (∃ n, (View.step a subject pos live)^[n] (e.view live) = e'.view live) ∧
      e'.Fits a ∧ (e'.view live).errands = [] := by
  -- Each task is a step of the view, or cannot be seen.
  have hperform (x : Exploration) (task : Task) (tasks : List Task)
      (htasks : x.tasks = task :: tasks)
      (h : (∃ n, (View.step a subject pos live)^[n] (e.view live) = x.view live) ∧
        x.Fits a) :
      (∃ n, (View.step a subject pos live)^[n] (e.view live) =
          (({ x with tasks } : Exploration).perform a subject pos task).view live) ∧
        (({ x with tasks } : Exploration).perform a subject pos task).Fits a := by
    obtain ⟨⟨n, hn⟩, hfits⟩ := h
    refine ⟨?_, (perform_work ha subject pos htasks hfits).2⟩
    rcases perform_view ha hshut htasks hfits with heq | heq
    · exact ⟨n, hn.trans heq.symm⟩
    · exact ⟨n + 1, by rw [Function.iterate_succ_apply', hn, heq]⟩
  obtain ⟨⟨hiterate, hfits'⟩, htasks⟩ := run_preserves hperform hrun ⟨⟨0, rfl⟩, hfits⟩
  refine ⟨hiterate, hfits', ?_⟩
  rw [view, htasks]
  rfl

end Exploration

/-! ### Views further on -/

namespace ThreadSet

/-- Threads with all positions moved on. -/
def shiftAll (d : Nat) (threads : List (Nat × Slots)) : List (Nat × Slots) :=
  threads.map fun p => (p.1, p.2.shift d)

theorem lookup_shiftAll (d : Nat) (threads : List (Nat × Slots)) (id : Nat) :
    (shiftAll d threads).lookup id = (threads.lookup id).map (·.shift d) := by
  induction threads with
  | nil => rfl
  | cons p threads ih =>
    rw [shiftAll, List.map_cons, List.lookup_cons, List.lookup_cons, ← shiftAll, ih]
    cases id == p.1 <;> rfl

theorem putRecord_shiftAll (d : Nat) (threads : List (Nat × Slots)) (id : Nat) (v : Slots) :
    putRecord (shiftAll d threads) id (v.shift d) = shiftAll d (putRecord threads id v) := by
  rw [putRecord, putRecord, lookup_shiftAll, Option.isSome_map]
  split
  · simp only [shiftAll, List.map_map]
    refine List.map_congr_left fun p _ => ?_
    by_cases hp : p.1 = id <;> simp [hp]
  · simp [shiftAll]

end ThreadSet

/-- Where a state moves to does not depend on where the text begins. -/
theorem State.moves_shift {near far : Subject} {pos d : Nat}
    (hholds : ∀ kind, far.holds (pos + d) kind = near.holds pos kind) (v : Slots) (st : State) :
    st.moves far (pos + d) (v.shift d) = ThreadSet.shiftAll d (st.moves near pos v) := by
  cases st with
  | byte | set | accept | skip => rfl
  | branch targets => simp [moves, ThreadSet.shiftAll]
  | enterGroup group lastNested next => simp [moves, ThreadSet.shiftAll]
  | leaveGroup group next => simp [moves, ThreadSet.shiftAll]
  | assertion anchor next =>
    rw [moves, moves, hholds]
    split <;> rfl

namespace View

/-- A view with all positions moved on. -/
def shift (d : Nat) (w : View) : View where
  threads := ThreadSet.shiftAll d w.threads
  openVisits := w.openVisits
  errands := w.errands.map (·.shift d)

variable {a : Automaton} {subject near far : Subject} {pos d : Nat} {live : Nat → Bool} {w : View}

/-- Where no errand is left nothing happens any more. -/
theorem iterate_of_rest (a : Automaton) (subject : Subject) (pos : Nat) (live : Nat → Bool)
    (h : w.errands = []) (n : Nat) : (step a subject pos live)^[n] w = w := by
  refine Function.iterate_fixed ?_ n
  rw [step, h]

/-- There is only one view where no errand is left. -/
theorem iterate_eq_of_rest {m n : Nat} (hm : ((step a subject pos live)^[m] w).errands = [])
    (hn : ((step a subject pos live)^[n] w).errands = []) :
    (step a subject pos live)^[m] w = (step a subject pos live)^[n] w := by
  rw [← iterate_of_rest a subject pos live hm n, ← Function.iterate_add_apply, Nat.add_comm,
    Function.iterate_add_apply, iterate_of_rest a subject pos live hn m]

theorem accepts_shift (d : Nat) (w : View) (id : Nat) (v : Slots) :
    (w.shift d).accepts id (v.shift d) = w.accepts id v := by
  unfold accepts
  rw [shift, ThreadSet.lookup_shiftAll]
  cases w.threads.lookup id <;> simp

theorem schedule_shift (d : Nat) (live : Nat → Bool) (errands : List Errand) (w : View) :
    (w.shift d).schedule live (errands.map (·.shift d)) = (w.schedule live errands).shift d := by
  have hstate : (fun x : Errand => live x.state) ∘ (Errand.shift d) = fun x => live x.state := by
    funext x
    simp
  simp [schedule, shift, List.filter_map, hstate]

theorem begin_shift (d : Nat) (w : View) (id : Nat) (v : Slots) :
    (w.shift d).begin id (v.shift d) = (w.begin id v).shift d := by
  simp [begin, shift, ThreadSet.putRecord_shiftAll, Errand.shift]

/-- A visit further on. -/
theorem visit_shift (hholds : ∀ kind, far.holds (pos + d) kind = near.holds pos kind)
    (live : Nat → Bool) (w : View) (id : Nat) (v : Slots) :
    (w.shift d).visit a far (pos + d) live id (v.shift d) =
      (w.visit a near pos live id v).shift d := by
  unfold visit
  split
  · rfl
  · rename_i st hst
    have hmoves : Errand.ofMoves far (pos + d) (v.shift d) st =
        (Errand.ofMoves near pos v st).map (·.shift d) := by
      rw [Errand.ofMoves, Errand.ofMoves, State.moves_shift hholds, ThreadSet.shiftAll]
      simp [Errand.shift]
    rw [accepts_shift, hmoves, begin_shift, schedule_shift]
    split <;> rfl

/-- A step further on. -/
theorem step_shift (hholds : ∀ kind, far.holds (pos + d) kind = near.holds pos kind) :
    Function.Semiconj (shift d) (step a near pos live) (step a far (pos + d) live) := by
  intro w
  obtain ⟨threads, openVisits, errands⟩ := w
  cases errands with
  | nil => rfl
  | cons x errands =>
    cases x with
    | visit id v => exact (visit_shift hholds live ⟨threads, openVisits, errands⟩ id v).symm
    | finish id => rfl

end View

/-! ### Adding threads -/

section AddThread

variable {a : Automaton} {subject near far : Subject} {pos d q : Nat} {live : Nat → Bool}
  {t t' u u' : ThreadSet} {openVisits openVisits' openVisits'' : Array Nat} {v : Slots}

/-- What adding a thread comes to: all visits are over, and in view it is a number of steps to the
place where no errand is left. -/
theorem addThread_view (ha : a.Nests)
    (h : addThread a subject pos t openVisits q v = some (t', openVisits'))
    (hwf : t.Wellformed a.states.size a.groupCount) (hv : v.length = a.groupCount + 1)
    (hshut : a.Shut subject pos live) :
    openVisits' = openVisits ∧ t'.Wellformed a.states.size a.groupCount ∧
      ∃ n, (View.step a subject pos live)^[n] ⟨t.visible live, Exploration.counts live openVisits,
        [Errand.visit q v].filter (live ·.state)⟩ =
          ⟨t'.visible live, Exploration.counts live openVisits, []⟩ := by
  simp only [addThread] at h
  split at h
  · rename_i e hrun
    cases h
    have hopen : e.openVisits = openVisits := ((Exploration.unwinds_of_visit rfl).run ha hrun).2.2
    obtain ⟨⟨n, hn⟩, hfits, herrands⟩ := Exploration.run_view ha hshut hrun ⟨hwf, hv⟩
    refine ⟨hopen, hfits.threads, n, hn.trans ?_⟩
    rw [← herrands, ← hopen]
    rfl
  · cases h

/-- Adding a thread in a state out of view cannot be seen. -/
theorem addThread_visible_of_dead (ha : a.Nests)
    (h : addThread a subject pos t openVisits q v = some (t', openVisits'))
    (hwf : t.Wellformed a.states.size a.groupCount) (hv : v.length = a.groupCount + 1)
    (hshut : a.Shut subject pos live) (hdead : live q = false) :
    t'.visible live = t.visible live := by
  obtain ⟨-, -, n, hn⟩ := addThread_view ha h hwf hv hshut
  have hnone : [Errand.visit q v].filter (live ·.state) = [] := by
    simp [Errand.state, hdead]
  rw [hnone, Function.iterate_fixed rfl] at hn
  exact (congrArg View.threads hn).symm

/-- Adding a thread to sets that look alike, in texts one of which lies further on, leaves them
alike. -/
theorem addThread_visible (ha : a.Nests)
    (hholds : ∀ kind, far.holds (pos + d) kind = near.holds pos kind)
    (h : addThread a near pos t openVisits q v = some (t', openVisits'))
    (h' : addThread a far (pos + d) u openVisits q (v.shift d) = some (u', openVisits''))
    (hwf : t.Wellformed a.states.size a.groupCount) (hwf' : u.Wellformed a.states.size a.groupCount)
    (hv : v.length = a.groupCount + 1) (hshut : a.Shut near pos live)
    (hshut' : a.Shut far (pos + d) live)
    (hvisible : u.visible live = ThreadSet.shiftAll d (t.visible live)) :
    u'.visible live = ThreadSet.shiftAll d (t'.visible live) := by
  obtain ⟨-, -, m, hm⟩ := addThread_view ha h hwf hv hshut
  obtain ⟨-, -, n, hn⟩ := addThread_view ha h' hwf' (by rw [Slots.length_shift, hv]) hshut'
  -- The second one begins where the first one does, further on.
  have hbegin : (⟨u.visible live, Exploration.counts live openVisits,
      [Errand.visit q (v.shift d)].filter (live ·.state)⟩ : View) =
        View.shift d ⟨t.visible live, Exploration.counts live openVisits,
          [Errand.visit q v].filter (live ·.state)⟩ := by
    cases hlive : live q <;> simp [View.shift, hvisible, Errand.state, Errand.shift, hlive]
  have hm' := congrArg (View.shift d) hm
  rw [(View.step_shift hholds).iterate_right m, ← hbegin] at hm'
  -- Both come to rest, so they do so at the same place.
  have hsame := View.iterate_eq_of_rest (congrArg View.errands hm') (congrArg View.errands hn)
  rw [hm', hn] at hsame
  exact (congrArg View.threads hsame).symm

end AddThread

end PosixRegex.Automaton
