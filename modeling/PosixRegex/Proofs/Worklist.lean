import PosixRegex.Proofs.Origin
import PosixRegex.Proofs.Run
import PosixRegex.Proofs.Slots

/-!
# Explorations as worklists

An exploration changes one record in place and keeps a stack of tasks. Seen from outside it is a
plain worklist: what is still to be visited is a list of states, each with the record that it will
be visited with, and what has been found is the record of each state that has one. That the worklist
is a plain one is due to what is put back: each slot that is overwritten has its task behind the
visit for which it is (`Exploration.undone`).

- `ThreadSet.Holds`: a state has a thread with a record.
- `Exploration.undone_restores_enter`, `undone_restores_leave`: what is overwritten for a visit is
  put back behind it.
- `Exploration.pending`: the visits that are still to be made.
- `Exploration.Fits`: there is room for the records of an automaton.
- `Exploration.Work`: one piece of work on the worklist.
- `Exploration.perform_work`: a task is one piece of work.
-/

namespace PosixRegex.Automaton

/-! ### Sets of threads -/

namespace ThreadSet

/-- A set of threads has room for `states` states with a record of `groups` groups each, and each
state in `dense` is known to be there. -/
structure Wellformed (t : ThreadSet) (states groups : Nat) : Prop where
  /-- Each state can have a place. -/
  size_sparse : t.sparse.size = states
  /-- A record has two slots for the whole match and for each group. -/
  stride_eq : t.stride = 2 * (groups + 1)
  /-- Each state can have a record. -/
  size_slots : t.slots.size = states * t.stride
  /-- What stands in `dense` is in the set. -/
  sparse_of_dense : ∀ {place id : Nat}, t.dense[place]? = some id → t.sparse[id]? = some place

/-- A state has a thread with a record. -/
def Holds (t : ThreadSet) (id : Nat) (v : Slots) : Prop := t.contains id = true ∧ t.record id = v

variable {t : ThreadSet} {states groups id other place : Nat} {v w : Slots}

theorem contains_eq_true_iff :
    t.contains id = true ↔ ∃ place, t.sparse[id]? = some place ∧ t.dense[place]? = some id := by
  unfold contains
  split
  · -- The place of the state tells whether it is there.
    rename_i place hplace
    simp only [hplace, Option.some.injEq, exists_eq_left', beq_iff_eq]
  · rename_i hplace
    simp only [hplace, Bool.false_eq_true, reduceCtorEq, false_and, exists_false]

theorem wellformed_empty (states groups : Nat) :
    (empty states (2 * (groups + 1))).Wellformed states groups where
  size_sparse := Array.size_replicate
  stride_eq := rfl
  size_slots := Array.size_replicate
  sparse_of_dense h := by cases h

namespace Wellformed

theorem clear (h : t.Wellformed states groups) : t.clear.Wellformed states groups where
  size_sparse := h.size_sparse
  stride_eq := h.stride_eq
  size_slots := h.size_slots
  sparse_of_dense h := by cases h

theorem setRecord (h : t.Wellformed states groups) (id : Nat) (v : Slots) :
    (t.setRecord id v).Wellformed states groups where
  size_sparse := h.size_sparse
  stride_eq := h.stride_eq
  size_slots := (size_overwrite _ _ _).trans h.size_slots
  sparse_of_dense := h.sparse_of_dense

/-- The states in `dense` are those in the set. -/
theorem mem_dense_iff (h : t.Wellformed states groups) : id ∈ t.dense ↔ t.contains id = true := by
  rw [contains_eq_true_iff]
  constructor
  · intro hmem
    obtain ⟨place, hplace⟩ := Array.mem_iff_getElem?.1 hmem
    exact ⟨place, h.sparse_of_dense hplace, hplace⟩
  · rintro ⟨place, -, hplace⟩
    exact Array.mem_of_getElem? hplace

theorem insert (h : t.Wellformed states groups) (hid : id < states) (hnot : t.contains id = false) :
    (t.insert id).Wellformed states groups where
  size_sparse := by rw [ThreadSet.insert, Array.size_setIfInBounds, h.size_sparse]
  stride_eq := h.stride_eq
  size_slots := h.size_slots
  sparse_of_dense {place other} hplace := by
    rw [ThreadSet.insert] at hplace ⊢
    dsimp only at hplace ⊢
    rw [Array.getElem?_push] at hplace
    split at hplace
    · -- The new state is last in the list, and its place says so.
      rename_i hlast
      cases hplace
      rw [Array.getElem?_setIfInBounds_self_of_lt (by rwa [h.size_sparse]), hlast]
    · -- Another state in the list is not the new one.
      have hne : id ≠ other := by
        rintro rfl
        rw [h.mem_dense_iff.1 (Array.mem_of_getElem? hplace)] at hnot
        cases hnot
      rw [Array.getElem?_setIfInBounds_ne hne]
      exact h.sparse_of_dense hplace

/-- A state that is added is in the set, and no other one is added. -/
theorem contains_insert (h : t.Wellformed states groups) (hid : id < states)
    (hnot : t.contains id = false) (other : Nat) :
    (t.insert id).contains other = true ↔ other = id ∨ t.contains other = true := by
  rw [← (h.insert hid hnot).mem_dense_iff, ← h.mem_dense_iff, ThreadSet.insert, Array.mem_push]
  exact or_comm

/-- The states in the set are states of the automaton. -/
theorem lt_of_contains (h : t.Wellformed states groups) (hcontains : t.contains id = true) :
    id < states := by
  obtain ⟨place, hplace, -⟩ := contains_eq_true_iff.1 hcontains
  rw [← h.size_sparse]
  exact (Array.getElem?_eq_some_iff.1 hplace).1

/-- The window of a state ends where the row does, or before. -/
theorem window_le (h : t.Wellformed states groups) (hid : id < states) :
    (id + 1) * t.stride ≤ t.slots.size := by
  rw [h.size_slots]
  exact Nat.mul_le_mul_right _ hid

/-- The record of a state has a mark for the whole match and for each group. -/
theorem length_record (h : t.Wellformed states groups) (hid : id < states) :
    (t.record id).length = groups + 1 := by
  have hle := h.window_le hid
  rw [Nat.succ_mul, h.stride_eq] at hle
  rw [record, Slots.length_ofRow, Array.length_toList, Array.size_extract, Nat.succ_mul,
    h.stride_eq]
  omega

/-- There is room for the record of a state, so it is the one that is read back. -/
theorem record_setRecord_self (h : t.Wellformed states groups) (hid : id < states)
    (hv : v.length = groups + 1) : (t.setRecord id v).record id = v := by
  refine ThreadSet.record_setRecord_self t ?_ (h.window_le hid)
  rw [hv, h.stride_eq]

/-- A state whose record is set has that record, and the other states keep theirs. -/
theorem holds_setRecord (h : t.Wellformed states groups) (hid : t.contains id = true)
    (hv : v.length = groups + 1) :
    (t.setRecord id v).Holds other w ↔ if other = id then w = v else t.Holds other w := by
  rw [Holds, contains_setRecord]
  split
  · rename_i heq
    subst heq
    rw [h.record_setRecord_self (h.lt_of_contains hid) hv]
    exact ⟨fun h => h.2.symm, fun h => ⟨hid, h.symm⟩⟩
  · rename_i hne
    rw [record_setRecord_of_ne t (Ne.symm hne), Holds]

/-- A state that is added with a record has that record, and the other states keep theirs. -/
theorem holds_insert (h : t.Wellformed states groups) (hid : id < states)
    (hnot : t.contains id = false) (hv : v.length = groups + 1) :
    ((t.insert id).setRecord id v).Holds other w ↔
      if other = id then w = v else t.Holds other w := by
  have hself := (h.contains_insert hid hnot id).2 (.inl rfl)
  rw [(h.insert hid hnot).holds_setRecord hself hv]
  split
  · rfl
  · rename_i hne
    rw [Holds, Holds, h.contains_insert hid hnot]
    exact ⟨fun h => ⟨h.1.resolve_left hne, h.2⟩, fun h => ⟨.inr h.1, h.2⟩⟩

end Wellformed

end ThreadSet

/-! ### Pending visits -/

namespace Exploration

variable {a : Automaton} {subject : Subject} {pos : Nat} {e e' : Exploration}

/-- A record after what tasks put back in it. -/
def undone (v : Slots) : List Task → Slots
  | [] => v
  | .restore slot value :: tasks => undone (v.setSlot slot value) tasks
  | .visit _ :: tasks | .finish _ :: tasks => undone v tasks

theorem undone_append (v : Slots) (tasks tasks' : List Task) :
    undone v (tasks ++ tasks') = undone (undone v tasks) tasks' := by
  induction tasks generalizing v with
  | nil => rfl
  | cons task tasks ih =>
    cases task with
    | restore slot value => exact ih _
    | visit id | finish id => exact ih v

theorem undone_restores (v w : Slots) (slots : List Nat) :
    undone w (restores v slots) = slots.foldl (fun w slot => w.setSlot slot (v.slot? slot)) w := by
  induction slots generalizing w with
  | nil => rfl
  | cons slot slots ih => exact ih _

/-- What a state overwrites in the record when it is led on from. -/
def overwritten : State → List Nat
  | .enterGroup group lastNested _ =>
    List.range' (2 * group) (2 * (lastNested + 1) - 2 * group)
  | .leaveGroup group _ => [2 * group + 1]
  | _ => []

theorem undone_restores_enter (v : Slots) {group lastNested : Nat} (hle : group ≤ lastNested)
    (pos : Nat) :
    undone (v.enter group lastNested pos) (restores v
      (List.range' (2 * group) (2 * (lastNested + 1) - 2 * group)).reverse) = v := by
  rw [undone_restores]
  refine Slots.foldl_setSlot (Slots.length_enter _ _ _ _) fun slot hslot => ?_
  exact Slots.slot?_enter_of_not_mem hle fun hmem => hslot (List.mem_reverse.2 hmem)

theorem undone_restores_leave (v : Slots) (group pos : Nat) :
    undone (v.leave group pos) (restores v [2 * group + 1].reverse) = v := by
  rw [undone_restores]
  refine Slots.foldl_setSlot (Slots.length_leave _ _ _) fun slot hslot => ?_
  exact Slots.slot?_leave_of_ne fun heq => hslot (List.mem_singleton.2 heq)

/-- The visits among tasks, each with the record that it will be made with, given the present
one. -/
def pendingOf (v : Slots) : List Task → List (Nat × Slots)
  | [] => []
  | .visit id :: tasks => (id, v) :: pendingOf v tasks
  | .restore slot value :: tasks => pendingOf (v.setSlot slot value) tasks
  | .finish _ :: tasks => pendingOf v tasks

/-- The visits that are still to be made, the next one first. -/
def pending (e : Exploration) : List (Nat × Slots) := pendingOf e.record e.tasks

/-- Behind tasks, visits are made with the record as these leave it. -/
theorem pendingOf_append (v : Slots) (tasks tasks' : List Task) :
    pendingOf v (tasks ++ tasks') = pendingOf v tasks ++ pendingOf (undone v tasks) tasks' := by
  induction tasks generalizing v with
  | nil => rfl
  | cons task tasks ih =>
    cases task with
    | visit id => exact congrArg ((id, v) :: ·) (ih v)
    | restore slot value => exact ih _
    | finish id => exact ih v

theorem pendingOf_visits (v : Slots) (targets : List Nat) (tasks : List Task) :
    pendingOf v (targets.map .visit ++ tasks) = targets.map (·, v) ++ pendingOf v tasks := by
  induction targets with
  | nil => rfl
  | cons id targets ih => exact congrArg ((id, v) :: ·) ih

/-- Behind tasks that put a record back, visits are made with that record. -/
theorem pendingOf_restores {v w : Slots} {slots : List Nat}
    (h : undone w (restores v slots) = v) (tasks : List Task) :
    pendingOf w (restores v slots ++ tasks) = pendingOf v tasks := by
  have hnone (w : Slots) : pendingOf w (restores v slots) = [] := by
    clear h
    induction slots generalizing w with
    | nil => rfl
    | cons slot slots ih => exact ih _
  rw [pendingOf_append, hnone, h, List.nil_append]

/-- Leading on from a state makes the moves of the state pending. -/
theorem pending_follow (subject : Subject) (pos : Nat) (e : Exploration) {st : State}
    (hst : st.Nests) :
    (e.follow subject pos st).pending = st.moves subject pos e.record ++ e.pending := by
  cases st with
  | byte | set | accept | skip => rfl
  | branch targets => exact pendingOf_visits e.record targets e.tasks
  | assertion anchor next =>
    simp only [follow, State.moves]
    split <;> rfl
  -- Behind the visit what is overwritten has been put back.
  | enterGroup group lastNested next =>
    have hback := undone_restores_enter e.record hst pos
    exact congrArg ((next, _) :: ·) (pendingOf_restores hback e.tasks)
  | leaveGroup group next =>
    have hback := undone_restores_leave e.record group pos
    exact congrArg ((next, _) :: ·) (pendingOf_restores hback e.tasks)

@[simp]
theorem threads_follow (subject : Subject) (pos : Nat) (e : Exploration) (st : State) :
    (e.follow subject pos st).threads = e.threads := by
  cases st with
  | assertion anchor next =>
    simp only [follow]
    split <;> rfl
  | _ => rfl

/-- Leading on from a state schedules at most a task for each state it leads to and for each slot
that is overwritten. -/
theorem length_tasks_follow_le (subject : Subject) (pos : Nat) (e : Exploration) (st : State) :
    (e.follow subject pos st).tasks.length ≤
      st.successors.length + (overwritten st).length + e.tasks.length := by
  cases st with
  | byte | set | accept => exact Nat.le_add_left _ _
  | skip | branch =>
    simp only [follow, schedule, overwritten, State.successors, List.length_append,
      List.length_map, List.length_cons, List.length_nil]
    omega
  | enterGroup | leaveGroup =>
    simp only [follow, divert, restores, overwritten, State.successors, List.length_append,
      List.length_map, List.length_reverse, List.length_cons, List.length_nil]
    omega
  | assertion anchor next =>
    simp only [follow, State.successors]
    split
    · simp only [schedule, List.length_append, List.length_cons, List.length_nil]
      omega
    · exact Nat.le_add_left _ _

/-! ### Room for records -/

/-- An exploration has room for the states of an automaton, and all records have a mark for the
whole match and for each group. -/
structure Fits (e : Exploration) (a : Automaton) : Prop where
  /-- There is room for the threads. -/
  threads : e.threads.Wellformed a.states.size a.groupCount
  /-- The present record has as many marks. -/
  length_record : e.record.length = a.groupCount + 1

namespace Fits

/-- There is still room when the visit of a state begins. -/
theorem begin (h : e.Fits a) (id : Nat) : (e.begin id).Fits a where
  threads := h.threads.setRecord id e.record
  length_record := h.length_record

/-- There is still room when a state is led on from. -/
theorem follow (h : e.Fits a) (subject : Subject) (pos : Nat) (st : State) :
    (e.follow subject pos st).Fits a where
  threads := by
    rw [threads_follow]
    exact h.threads
  length_record := by
    rw [← h.length_record]
    cases st with
    | assertion anchor next =>
      simp only [Exploration.follow]
      split <;> rfl
    | enterGroup => exact Slots.length_enter _ _ _ _
    | leaveGroup => exact Slots.length_leave _ _ _
    | _ => rfl

/-- There is room for a state that has no thread yet. -/
theorem insert (h : e.Fits a) {id : Nat} (hid : id < a.states.size)
    (hnot : e.threads.contains id = false) :
    ({ e with threads := e.threads.insert id } : Exploration).Fits a where
  threads := h.threads.insert hid hnot
  length_record := h.length_record

end Fits

/-! ### Pieces of work -/

/-- One piece of work, seen from outside: nothing changes, or the next visit is passed over, or it
is made. -/
inductive Work (a : Automaton) (subject : Subject) (pos : Nat) (e e' : Exploration) : Prop
  /-- Something is put back. -/
  | idle (hthreads : e'.threads = e.threads) (hpending : e'.pending = e.pending)
      (htasks : e'.tasks.length < e.tasks.length)
  /-- The state has a thread that fares as well, or there is no such state. -/
  | pass {q : Nat} {v : Slots} {rest : List (Nat × Slots)}
      (hnext : e.pending = (q, v) :: rest)
      (hreason : a.states[q]? = none ∨ ∃ w, e.threads.Holds q w ∧ v.order w ≠ .gt)
      (hthreads : e'.threads = e.threads) (hpending : e'.pending = rest)
      (htasks : e'.tasks.length < e.tasks.length)
  /-- The state gets the record, which beats the one it has or ties with it and has entered more
  groups, and its moves become pending. -/
  | take {q : Nat} {v : Slots} {rest : List (Nat × Slots)} {st : State}
      (hnext : e.pending = (q, v) :: rest)
      (hstate : a.states[q]? = some st)
      (hreason : ∀ w, e.threads.Holds q w →
        v.order w = .gt ∨ v.order w = .eq ∧ w.entered < v.entered)
      (hthreads : ∀ r w, e'.threads.Holds r w ↔ if r = q then w = v else e.threads.Holds r w)
      (hpending : e'.pending = st.moves subject pos v ++ rest)
      (htasks : e'.tasks.length ≤ st.successors.length + (overwritten st).length + e.tasks.length)

/-- Why a state that has a thread is visited again. -/
theorem displaces_eq_true {id : Nat} (h : e.displaces id = true) :
    e.record.order (e.threads.record id) = .gt ∨
      e.record.order (e.threads.record id) = .eq ∧
        (e.threads.record id).entered < e.record.entered := by
  unfold displaces at h
  split at h
  · exact .inl ‹_›
  · rw [Bool.and_eq_true, decide_eq_true_eq, decide_eq_true_eq] at h
    exact .inr ⟨‹_›, h.2⟩
  · cases h

/-- Why a state that has a thread is not visited again. -/
theorem displaces_eq_false {id : Nat} (h : e.displaces id = false) :
    e.record.order (e.threads.record id) ≠ .gt := by
  intro hgt
  unfold displaces at h
  rw [hgt] at h
  cases h

/-- A visit is one piece of work. -/
theorem visit_work (ha : a.Nests) {q : Nat} {tasks : List Task}
    (htasks : e.tasks = .visit q :: tasks) (hfits : e.Fits a) :
    Work a subject pos e (({ e with tasks } : Exploration).visit a subject pos q) ∧
      (({ e with tasks } : Exploration).visit a subject pos q).Fits a := by
  -- The visit is the next one that is pending, with the present record.
  have hnext : e.pending = (q, e.record) :: pendingOf e.record tasks := by
    rw [pending, htasks]
    rfl
  have hlt : tasks.length < e.tasks.length := by
    rw [htasks]
    exact Nat.lt_succ_self _
  have hfits' : ({ e with tasks } : Exploration).Fits a := ⟨hfits.threads, hfits.length_record⟩
  unfold visit
  split
  · rename_i hstate
    exact ⟨.pass hnext (.inl hstate) rfl rfl hlt, hfits'⟩
  · rename_i st hstate
    obtain ⟨hq, -⟩ := Array.getElem?_eq_some_iff.1 hstate
    split
    · rename_i hcontains
      split
      · -- The state has a thread, and the new record fares better.
        rename_i hdisplaces
        refine ⟨.take hnext hstate (fun w hw => ?_) (fun r w => ?_)
          (pending_follow subject pos _ (ha.state hstate)) ?_, (hfits'.begin q).follow _ _ _⟩
        · obtain ⟨-, rfl⟩ := hw
          exact displaces_eq_true hdisplaces
        · rw [threads_follow]
          exact hfits.threads.holds_setRecord hcontains hfits.length_record
        · refine Nat.le_trans (length_tasks_follow_le subject pos _ st) ?_
          simp only [begin, List.length_cons]
          omega
      · rename_i hdisplaces
        -- The state has a thread that fares as well.
        refine ⟨.pass hnext (.inr ⟨_, ⟨hcontains, rfl⟩, ?_⟩) rfl rfl hlt, hfits'⟩
        exact displaces_eq_false (Bool.eq_false_iff.2 hdisplaces)
    · rename_i hcontains
      -- The state has no thread yet.
      have hnot : e.threads.contains q = false := Bool.eq_false_iff.2 hcontains
      refine ⟨.take hnext hstate (fun w hw => ?_) (fun r w => ?_)
        (pending_follow subject pos _ (ha.state hstate)) ?_,
        ((hfits'.insert hq hnot).begin q).follow _ _ _⟩
      · exact absurd hw.1 hcontains
      · rw [threads_follow]
        exact hfits.threads.holds_insert hq hnot hfits.length_record
      · refine Nat.le_trans (length_tasks_follow_le subject pos _ st) ?_
        simp only [begin, List.length_cons]
        omega

/-- A task is one piece of work. -/
theorem perform_work (ha : a.Nests) (subject : Subject) (pos : Nat) {task : Task}
    {tasks : List Task} (htasks : e.tasks = task :: tasks) (hfits : e.Fits a) :
    Work a subject pos e (({ e with tasks } : Exploration).perform a subject pos task) ∧
      (({ e with tasks } : Exploration).perform a subject pos task).Fits a := by
  have hlt : tasks.length < e.tasks.length := by
    rw [htasks]
    exact Nat.lt_succ_self _
  cases task with
  | visit q => exact visit_work ha htasks hfits
  | restore slot value =>
    -- What follows is pending with the slot put back.
    refine ⟨.idle rfl ?_ hlt, hfits.threads, ?_⟩
    · rw [pending, pending, htasks]
      rfl
    · exact (Slots.length_setSlot _ _ _).trans hfits.length_record
  | finish id =>
    refine ⟨.idle rfl ?_ hlt, hfits.threads, hfits.length_record⟩
    rw [pending, pending, htasks]
    rfl

/-! ### Running -/

/-- What each task preserves holds at the end of a run, when no task is left. -/
theorem run_preserves {P : Exploration → Prop}
    (hperform : ∀ (e : Exploration) task tasks, e.tasks = task :: tasks → P e →
      P (({ e with tasks } : Exploration).perform a subject pos task))
    {fuel : Nat} (hrun : e.run a subject pos fuel = some e') (he : P e) :
    P e' ∧ e'.tasks = [] := by
  -- The induction is on the fuel, of which each task takes one.
  induction fuel generalizing e with
  | zero =>
    rw [run] at hrun
    split at hrun
    · rename_i hempty
      cases hrun
      exact ⟨he, List.isEmpty_iff.1 hempty⟩
    · cases hrun
  | succ fuel ih =>
    rw [run] at hrun
    split at hrun
    · rename_i hempty
      cases hrun
      exact ⟨he, hempty⟩
    · rename_i task tasks htasks
      exact ih hrun (hperform e task tasks htasks he)

/-- What each piece of work preserves holds at the end of a run, when nothing is pending. -/
theorem run_induction (ha : a.Nests) {P : Exploration → Prop}
    (hwork : ∀ e e', P e → Work a subject pos e e' → P e') {fuel : Nat}
    (hrun : e.run a subject pos fuel = some e') (he : P e) (hfits : e.Fits a) :
    P e' ∧ e'.Fits a ∧ e'.pending = [] := by
  have hperform (e : Exploration) (task : Task) (tasks : List Task)
      (htasks : e.tasks = task :: tasks) (h : P e ∧ e.Fits a) :
      P (({ e with tasks } : Exploration).perform a subject pos task) ∧
        (({ e with tasks } : Exploration).perform a subject pos task).Fits a := by
    obtain ⟨hstep, hfits'⟩ := perform_work ha subject pos htasks h.2
    exact ⟨hwork _ _ h.1 hstep, hfits'⟩
  obtain ⟨⟨he', hfits'⟩, htasks⟩ := run_preserves hperform hrun ⟨he, hfits⟩
  refine ⟨he', hfits', ?_⟩
  rw [pending, htasks]
  rfl

/-- A run comes to its end when each piece of work lowers a bound on what remains. -/
theorem exists_run (ha : a.Nests) (subject : Subject) {P : Nat → Exploration → Prop}
    (hwork : ∀ n e e', P n e → Work a subject pos e e' → ∃ m < n, P m e') {fuel n : Nat}
    (hle : n ≤ fuel) (he : P n e) (hfits : e.Fits a) :
    ∃ e', e.run a subject pos fuel = some e' := by
  induction fuel generalizing e n with
  | zero =>
    rw [run]
    cases htasks : e.tasks with
    | nil => exact ⟨e, rfl⟩
    | cons task tasks =>
      obtain ⟨hstep, -⟩ := perform_work ha subject pos htasks hfits
      obtain ⟨m, hm, -⟩ := hwork _ _ _ he hstep
      omega
  | succ fuel ih =>
    rw [run]
    cases htasks : e.tasks with
    | nil => exact ⟨e, rfl⟩
    | cons task tasks =>
      obtain ⟨hstep, hfits'⟩ := perform_work ha subject pos htasks hfits
      obtain ⟨m, hm, he'⟩ := hwork _ _ _ he hstep
      exact ih (by omega) he' hfits'

end Exploration

end PosixRegex.Automaton
