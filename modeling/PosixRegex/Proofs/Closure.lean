import PosixRegex.Proofs.Termination

/-!
# Threads that are added

Adding a thread to a set of threads finds all states that can be reached in place. Each state that
the set has afterwards holds the record of one single path; and wherever a path leads, its record
leads by comparisons that are not lost to that of the thread in the state. The second is all that
can be said in general, since of two threads in one state only one is kept, and the ranking by which
it is chosen is not transitive.

- `ThreadSet.Covers`: a record leads by comparisons that are not lost to that of a thread.
- `ThreadSet.Closed`: what the threads can move to is covered.
- `addThread_covers`: the result is closed, and nothing is lost.
-/

namespace PosixRegex

namespace Automaton

variable {a : Automaton} {spans : Nat → Nat → Prop} {scopes : List Scope} {subject : Subject}
  {pos q r s : Nat} {v w : Slots} {threads threads' : ThreadSet}
  {openVisits openVisits' : Array Nat}

namespace ThreadSet

/-- A record leads, by comparisons that are not lost, to the record of the thread in a state. The
records on the way have a property that depends on the state. -/
def Covers (P : Nat → Slots → Prop) (t : ThreadSet) (q : Nat) (v : Slots) : Prop :=
  ∃ w, t.Holds q w ∧ Slots.Ascends (P q) v w

variable {P : Nat → Slots → Prop} {t : ThreadSet}

theorem Holds.covers (h : t.Holds q v) : t.Covers P q v := ⟨v, h, .refl (P q) v⟩

/-- What leads to a covered record is covered. -/
theorem Covers.of_ascends (h : t.Covers P q w) (hv : Slots.Ascends (P q) v w) : t.Covers P q v := by
  obtain ⟨u, hu, hwu⟩ := h
  exact ⟨u, hu, hv.trans hwu⟩

/-- Wherever the threads of a set can move, what they move to is covered. -/
def Closed (a : Automaton) (subject : Subject) (pos : Nat) (P : Nat → Slots → Prop)
    (t : ThreadSet) : Prop :=
  ∀ {q v st}, t.Holds q v → a.states[q]? = some st →
    ∀ {r w}, (r, w) ∈ st.moves subject pos v → t.Covers P r w

end ThreadSet

/-- Adding a thread runs an exploration to its end. -/
theorem addThread_eq_some (h : addThread a subject pos threads openVisits q v =
    some (threads', openVisits')) :
    ∃ e, (⟨threads, v, openVisits, [.visit q]⟩ : Exploration).run a subject pos
      (Exploration.fuel a) = some e ∧ e.threads = threads' := by
  simp only [addThread] at h
  split at h
  · rename_i e hrun
    cases h
    exact ⟨e, hrun, rfl⟩
  · cases h

namespace Exploration

/-- An exploration that was begun for a thread in a state: the threads that there were are covered,
and what is not covered yet is pending. -/
structure Closing (a : Automaton) (subject : Subject) (pos : Nat) (P : Nat → Slots → Prop)
    (threads : ThreadSet) (q : Nat) (v : Slots) (e : Exploration) : Prop where
  /-- The threads have the property of their states. -/
  held : ∀ {r w}, e.threads.Holds r w → P r w
  /-- What is pending is in states of the automaton, and has their property. -/
  pending : ∀ {r w}, (r, w) ∈ e.pending → r < a.states.size ∧ P r w
  /-- No thread is lost. -/
  kept : ∀ {r w}, threads.Holds r w → e.threads.Covers P r w
  /-- The thread that is added is not forgotten. -/
  added : e.threads.Covers P q v ∨ (q, v) ∈ e.pending
  /-- A move leads to what is covered, or to what is pending. -/
  closed : ∀ {r w st}, e.threads.Holds r w → a.states[r]? = some st →
    ∀ {r' w'}, (r', w') ∈ st.moves subject pos w →
      e.threads.Covers P r' w' ∨ (r', w') ∈ e.pending

variable {P : Nat → Slots → Prop} {e e' : Exploration}

/-- Passing over a visit loses nothing: it is not better than the thread that the state has. -/
theorem Closing.pass (h : Closing a subject pos P threads q v e) {r : Nat} {u : Slots}
    {rest : List (Nat × Slots)} (hnext : e.pending = (r, u) :: rest)
    (hreason : a.states[r]? = none ∨ ∃ w, e.threads.Holds r w ∧ u.order w ≠ .gt)
    (hthreads : e'.threads = e.threads) (hpending : e'.pending = rest) :
    Closing a subject pos P threads q v e' := by
  have hhead : (r, u) ∈ e.pending := by
    rw [hnext]
    exact List.mem_cons_self
  have hcovered : e.threads.Covers P r u := by
    rcases hreason with hnone | ⟨w, hw, horder⟩
    · rw [Array.getElem?_eq_none_iff] at hnone
      exact absurd (h.pending hhead).1 (Nat.not_lt_of_le hnone)
    · refine ⟨w, hw, .single (h.held hw) fun hlt => ?_⟩
      exact horder (Slots.order_eq_gt_iff.2 hlt)
  -- A visit that was pending is still pending, or it is covered.
  have hstill {r' : Nat} {w : Slots} (hw : (r', w) ∈ e.pending) :
      e.threads.Covers P r' w ∨ (r', w) ∈ rest := by
    rw [hnext] at hw
    rcases List.mem_cons.1 hw with heq | hw
    · cases heq
      exact .inl hcovered
    · exact .inr hw
  constructor
  · rw [hthreads]
    exact h.held
  · intro x w hw
    rw [hpending] at hw
    refine h.pending ?_
    rw [hnext]
    exact List.mem_cons_of_mem _ hw
  · rw [hthreads]
    exact h.kept
  · rw [hthreads, hpending]
    exact h.added.elim .inl hstill
  · rw [hthreads, hpending]
    intro x w st hw hst r' w' hmem
    exact (h.closed hw hst hmem).elim .inl hstill

/-- Making a visit loses nothing: the thread that is replaced is not better than the new one. -/
theorem Closing.take (ha : a.Scoped spans scopes)
    (hmoves : ∀ {q v st r w}, P q v → a.states[q]? = some st →
      (r, w) ∈ st.moves subject pos v → P r w)
    (h : Closing a subject pos P threads q v e) {r : Nat} {u : Slots}
    {rest : List (Nat × Slots)} {st : State} (hnext : e.pending = (r, u) :: rest)
    (hstate : a.states[r]? = some st)
    (hreason : ∀ w, e.threads.Holds r w →
      u.order w = .gt ∨ u.order w = .eq ∧ w.entered < u.entered)
    (hthreads : ∀ x w, e'.threads.Holds x w ↔ if x = r then w = u else e.threads.Holds x w)
    (hpending : e'.pending = st.moves subject pos u ++ rest) :
    Closing a subject pos P threads q v e' := by
  have hu : P r u := by
    refine (h.pending (r := r) (w := u) ?_).2
    rw [hnext]
    exact List.mem_cons_self
  have hself : e'.threads.Holds r u := (hthreads r u).2 (by rw [if_pos rfl])
  -- What led to the thread that is displaced leads on to the one in its place.
  have hkept {x : Nat} {w : Slots} (hw : e.threads.Covers P x w) : e'.threads.Covers P x w := by
    obtain ⟨w', hw', hascends⟩ := hw
    by_cases hx : x = r
    · subst hx
      refine ⟨u, hself, hascends.tail hu fun hlt => ?_⟩
      rcases hreason w' hw' with hgt | ⟨heq, -⟩
      · cases hlt.symm.trans hgt
      · cases hlt.symm.trans heq
    · exact ⟨w', (hthreads x w').2 (by rwa [if_neg hx]), hascends⟩
  have hstill {x : Nat} {w : Slots} (hw : (x, w) ∈ e.pending) :
      e'.threads.Covers P x w ∨ (x, w) ∈ e'.pending := by
    rw [hnext] at hw
    rcases List.mem_cons.1 hw with heq | hw
    · cases heq
      exact .inl hself.covers
    · rw [hpending]
      exact .inr (List.mem_append_right _ hw)
  constructor
  · intro x w hw
    rw [hthreads] at hw
    split at hw
    · rename_i hx
      exact hx ▸ hw ▸ hu
    · exact h.held hw
  · intro x w hmem
    rw [hpending] at hmem
    rcases List.mem_append.1 hmem with hmem | hmem
    · have hstep : Step a subject ⟨r, ⟨pos, u⟩⟩ ⟨x, ⟨pos, w⟩⟩ := step_of_mem_moves hstate hmem
      exact ⟨hstep.state_lt ha, hmoves hu hstate hmem⟩
    · refine h.pending ?_
      rw [hnext]
      exact List.mem_cons_of_mem _ hmem
  · exact fun hw => hkept (h.kept hw)
  · exact h.added.elim (fun hv => .inl (hkept hv)) hstill
  · intro x w st' hw hst r' w' hmem
    rw [hthreads] at hw
    split at hw
    · -- The moves of the new thread are pending.
      rename_i hx
      subst hx hw
      cases hstate.symm.trans hst
      rw [hpending]
      exact .inr (List.mem_append_left _ hmem)
    · -- The moves of another thread lead where they led before.
      exact (h.closed hw hst hmem).elim (fun hw => .inl (hkept hw)) hstill

end Exploration

/-- After a thread is added to a closed set, the set is closed again, what was covered still is, and
the new thread is covered. What moves preserve holds for the threads of the result, if it holds for
the threads of the set and for the thread that is added. -/
theorem addThread_covers {P : Nat → Slots → Prop} (ha : a.Scoped spans scopes)
    (hmoves : ∀ {q v st r w}, P q v → a.states[q]? = some st →
      (r, w) ∈ st.moves subject pos v → P r w)
    (hwf : threads.Wellformed a.states.size a.groupCount)
    (hold : ∀ {r w}, threads.Holds r w → P r w)
    (hclosed : threads.Closed a subject pos P)
    (h : addThread a subject pos threads openVisits q v = some (threads', openVisits'))
    (hq : q < a.states.size) (hv : P q v) (hlen : v.length = a.groupCount + 1) :
    threads'.Wellformed a.states.size a.groupCount ∧ (∀ {r w}, threads'.Holds r w → P r w) ∧
      threads'.Closed a subject pos P ∧
      (∀ {r w}, threads.Covers P r w → threads'.Covers P r w) ∧ threads'.Covers P q v := by
  obtain ⟨e, hrun, rfl⟩ := addThread_eq_some h
  have hbegin : Exploration.Closing a subject pos P threads q v
      ⟨threads, v, openVisits, [.visit q]⟩ := by
    refine ⟨hold, fun hmem => ?_, fun hw => hw.covers, .inr List.mem_cons_self,
      fun hw hst _ _ hmem => .inl (hclosed hw hst hmem)⟩
    cases List.mem_singleton.1 hmem
    exact ⟨hq, hv⟩
  obtain ⟨hclosing, hfits, hempty⟩ := Exploration.run_induction ha.nests
    (P := Exploration.Closing a subject pos P threads q v)
    (fun e e' he hwork => by
      cases hwork with
      | idle hthreads hpending =>
        obtain ⟨hheld, hpending', hkept, hadded, hclosed⟩ := he
        rw [← hpending] at hpending' hadded hclosed
        rw [← hthreads] at hheld hkept hadded hclosed
        exact ⟨hheld, hpending', hkept, hadded, hclosed⟩
      | pass hnext hreason hthreads hpending => exact he.pass hnext hreason hthreads hpending
      | take hnext hstate hreason hthreads hpending =>
        exact he.take ha hmoves hnext hstate hreason hthreads hpending) hrun hbegin
    ⟨hwf, hlen⟩
  -- At the end nothing is pending any more.
  have hnone {x : Nat} {w : Slots} (hw : (x, w) ∈ e.pending) : False := by
    rw [hempty] at hw
    exact List.not_mem_nil hw
  refine ⟨hfits.threads, hclosing.held, fun hw hst _ _ hmem => ?_, fun hw => ?_, ?_⟩
  · exact (hclosing.closed hw hst hmem).resolve_right hnone
  · obtain ⟨u, hu, hascends⟩ := hw
    exact (hclosing.kept hu).of_ascends hascends
  · exact hclosing.added.resolve_right hnone

end Automaton

end PosixRegex
