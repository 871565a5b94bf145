import PosixRegex.Proofs.Ranking
import PosixRegex.Proofs.View

/-!
# A group that ends with the match

Where a group encloses all that an automaton matches, the accepting state is entered only by leaving
this group, and that is done in one state. Whenever an exploration gives this state a record, it
goes on to the accepting state before anything else. So when it has come to its end, the two states
have threads with the same record, up to the group being left, or neither of them has a thread.

This takes four steps during which it does not hold. They are taken together: an exploration is
quiet before and after them.

- `EndsLeaving`: the accepting state is entered only by leaving a group.
- `ThreadSet.Sealed`: its thread has the record with the group left.
- `View.Quiet.exists_iterate`: from one quiet view to the next.
- `addThread_sealed`: adding a thread leaves the threads sealed.
-/

namespace PosixRegex

namespace Slots

variable {v : Slots} {g group groups : Nat}

/-- A group has a place in a record and has not been left. -/
structure Unleft (g : Nat) (v : Slots) : Prop where
  /-- The group has a place. -/
  lt_length : g < v.length
  /-- It has no end. -/
  stop?_eq : (v.mark g).stop? = none

/-- At the start of a match no group has been left. -/
theorem unleft_initial (h : g ≤ groups) (pos : Nat) : (initial groups pos).Unleft g where
  lt_length := by
    rw [length_initial]
    exact Nat.lt_succ_of_le h
  stop?_eq := by
    rcases Nat.eq_zero_or_pos g with rfl | hpos
    · rfl
    · rw [mark_initial_of_pos groups pos hpos]
      rfl

/-- Entering a group leaves none. -/
theorem Unleft.enter (h : v.Unleft g) (group lastNested pos : Nat) :
    (v.enter group lastNested pos).Unleft g where
  lt_length := by
    rw [length_enter]
    exact h.lt_length
  stop?_eq := by
    rw [stop?_mark_enter, mark_forget]
    split
    · rfl
    · exact h.stop?_eq

theorem Unleft.leave_of_ne (h : v.Unleft g) (hne : g ≠ group) (pos : Nat) :
    (v.leave group pos).Unleft g where
  lt_length := by
    rw [length_leave]
    exact h.lt_length
  stop?_eq := by
    rw [mark_leave_of_ne hne]
    exact h.stop?_eq

end Slots

namespace Automaton

/-- The accepting state is entered only from one state, which leaves a group that is left nowhere
else. -/
structure EndsLeaving (a : Automaton) (last g : Nat) : Prop where
  /-- The state leaves the group and leads on to the accepting state. -/
  leaves : a.states[last]? = some (.leaveGroup g a.accept)
  /-- The accepting state leads nowhere. -/
  accepts : a.states[a.accept]? = some .accept
  /-- No other state leads to the accepting state. -/
  not_mem_successors : ∀ {q : Nat} {st}, a.states[q]? = some st → q ≠ last →
    a.accept ∉ st.successors
  /-- No other state leaves the group. -/
  ne_leaveGroup : ∀ {q : Nat} {st}, a.states[q]? = some st → q ≠ last →
    ∀ next, st ≠ .leaveGroup g next

theorem EndsLeaving.ne_accept {a : Automaton} {last g : Nat} (h : a.EndsLeaving last g) :
    last ≠ a.accept := by
  intro heq
  have hleaves := h.leaves
  rw [heq, h.accepts] at hleaves
  cases hleaves

namespace State

variable {subject : Subject} {pos r g : Nat} {v w : Slots} {st : State}

/-- A state moves to states that it leads to. -/
theorem mem_successors_of_mem_moves (h : (r, w) ∈ st.moves subject pos v) : r ∈ st.successors := by
  cases st with
  | byte | set | accept => exact absurd h List.not_mem_nil
  | skip | enterGroup | leaveGroup =>
    cases List.mem_singleton.1 h
    exact List.mem_singleton_self _
  | branch targets =>
    obtain ⟨target, htarget, heq⟩ := List.mem_map.1 h
    cases heq
    exact htarget
  | assertion anchor next =>
    rw [moves] at h
    split at h
    · cases List.mem_singleton.1 h
      exact List.mem_singleton_self _
    · exact absurd h List.not_mem_nil

/-- A group is left only by a state that leaves it. -/
theorem unleft_effect (hne : ∀ next, st ≠ .leaveGroup g next) (hv : v.Unleft g) (pos : Nat) :
    (st.effect pos v).Unleft g := by
  cases st with
  | enterGroup group lastNested next => exact hv.enter group lastNested pos
  | leaveGroup group next =>
    refine hv.leave_of_ne ?_ pos
    rintro rfl
    exact hne next rfl
  | _ => exact hv

end State

/-! ### All states in view -/

/-- All states are in view. -/
def everywhere (_ : Nat) : Bool := true

theorem shut_everywhere (a : Automaton) (subject : Subject) (pos : Nat) :
    a.Shut subject pos everywhere := nofun

namespace ThreadSet

/-- The accepting state has a thread where another state has one, with the same record in which a
group has been left. -/
structure Sealed (a : Automaton) (last g pos : Nat) (threads : List (Nat × Slots)) : Prop where
  /-- The accepting state has the record with the group left. -/
  lookup_accept : threads.lookup a.accept = (threads.lookup last).map (·.leave g pos)
  /-- In the other state the group has not been left yet. -/
  unleft : ∀ u ∈ threads.lookup last, u.Unleft g

theorem sealed_nil (a : Automaton) (last g pos : Nat) : Sealed a last g pos [] := ⟨rfl, nofun⟩

end ThreadSet

namespace View

variable {a : Automaton} {subject : Subject} {last g pos q : Nat} {live : Nat → Bool} {v : Slots}
  {w : View} {threads : List (Nat × Slots)} {openVisits : Nat → Option Nat} {errands : List Errand}

/-- The visit of a state that accepts the record. -/
theorem step_visit_of_accepts {st : State} (hst : a.states[q]? = some st)
    (h : (⟨threads, openVisits, errands⟩ : View).accepts q v = true) :
    step a subject pos live ⟨threads, openVisits, .visit q v :: errands⟩ =
      ((⟨threads, openVisits, errands⟩ : View).begin q v).schedule live
        (Errand.ofMoves subject pos v st) := by
  simp only [step, visit, hst, h, if_true]

/-- The visit of a state that does not accept the record. -/
theorem step_visit_of_not_accepts
    (h : (⟨threads, openVisits, errands⟩ : View).accepts q v = false) :
    step a subject pos live ⟨threads, openVisits, .visit q v :: errands⟩ =
      ⟨threads, openVisits, errands⟩ := by
  simp only [step, visit, h]
  cases a.states[q]? <;> rfl

/-- Nothing is under way between a state and the accepting state, which is entered only from
there. -/
structure Quiet (a : Automaton) (last g pos : Nat) (w : View) : Prop where
  /-- The thread of the accepting state is that of the other state. -/
  isSealed : ThreadSet.Sealed a last g pos w.threads
  /-- All visits of the state are over. -/
  openVisits_last : w.openVisits last = some 0
  /-- The accepting state is not to be visited, and no visit that is to be made has left the
  group. -/
  visits : ∀ q v, .visit q v ∈ w.errands → q ≠ a.accept ∧ v.Unleft g
  /-- No visit of the state is to be ended. -/
  finishes : .finish last ∉ w.errands

/-- An errand can be dropped. -/
theorem Quiet.tail {x : Errand} (h : Quiet a last g pos ⟨threads, openVisits, x :: errands⟩) :
    Quiet a last g pos ⟨threads, openVisits, errands⟩ where
  isSealed := h.isSealed
  openVisits_last := h.openVisits_last
  visits q v hmem := h.visits q v (List.mem_cons_of_mem x hmem)
  finishes hmem := h.finishes (List.mem_cons_of_mem x hmem)

/-- The end of a visit of another state. -/
theorem Quiet.finish (h : Quiet a last g pos ⟨threads, openVisits, .finish q :: errands⟩)
    (subject : Subject) (live : Nat → Bool) :
    Quiet a last g pos
      (step a subject pos live ⟨threads, openVisits, .finish q :: errands⟩) where
  isSealed := h.isSealed
  openVisits_last := by
    have hne : last ≠ q := by
      rintro rfl
      exact h.finishes List.mem_cons_self
    simp only [step, if_neg hne]
    exact h.openVisits_last
  visits := h.tail.visits
  finishes := h.tail.finishes

/-- The beginning of a visit of another state. -/
theorem Quiet.begin (h : Quiet a last g pos w) (hlast : q ≠ last) (haccept : q ≠ a.accept)
    (v : Slots) : Quiet a last g pos (w.begin q v) where
  isSealed := by
    refine ⟨?_, ?_⟩
    · simp only [View.begin, ThreadSet.lookup_putRecord, if_neg (Ne.symm hlast),
        if_neg (Ne.symm haccept)]
      exact h.isSealed.lookup_accept
    · simp only [View.begin, ThreadSet.lookup_putRecord, if_neg (Ne.symm hlast)]
      exact h.isSealed.unleft
  openVisits_last := by
    simp only [View.begin, if_neg (Ne.symm hlast)]
    exact h.openVisits_last
  visits r u hmem := by
    rcases List.mem_cons.1 hmem with heq | hmem
    · cases heq
    · exact h.visits r u hmem
  finishes hmem := by
    rcases List.mem_cons.1 hmem with heq | hmem
    · cases heq
      exact hlast rfl
    · exact h.finishes hmem

/-- The moves of another state. -/
theorem Quiet.schedule (h : Quiet a last g pos w) (hends : a.EndsLeaving last g) {st : State}
    (hst : a.states[q]? = some st) (hlast : q ≠ last) (hv : v.Unleft g) :
    Quiet a last g pos (w.schedule live (Errand.ofMoves subject pos v st)) where
  isSealed := h.isSealed
  openVisits_last := h.openVisits_last
  visits r u hmem := by
    rcases List.mem_append.1 hmem with hmem | hmem
    · obtain ⟨⟨r', u'⟩, hmove, heq⟩ := List.mem_map.1 (List.mem_filter.1 hmem).1
      cases heq
      refine ⟨?_, ?_⟩
      · rintro rfl
        exact hends.not_mem_successors hst hlast (State.mem_successors_of_mem_moves hmove)
      · rw [(State.mem_moves hmove).1]
        exact State.unleft_effect (hends.ne_leaveGroup hst hlast) hv pos
    · exact h.visits r u hmem
  finishes hmem := by
    rcases List.mem_append.1 hmem with hmem | hmem
    · obtain ⟨p, -, heq⟩ := List.mem_map.1 (List.mem_filter.1 hmem).1
      cases heq
    · exact h.finishes hmem

/-- When the state accepts a record, so does the accepting state after it. -/
theorem Quiet.accepts_accept (h : Quiet a last g pos w) (hends : a.EndsLeaving last g)
    (hv : v.Unleft g) (haccepts : w.accepts last v = true) :
    (w.begin last v).accepts a.accept (v.leave g pos) = true := by
  have hlookup : (w.begin last v).threads.lookup a.accept =
      (w.threads.lookup last).map (·.leave g pos) := by
    rw [← h.isSealed.lookup_accept, View.begin, ThreadSet.lookup_putRecord,
      if_neg (Ne.symm hends.ne_accept)]
  unfold accepts at haccepts ⊢
  rw [hlookup]
  cases hlast : w.threads.lookup last with
  | none => rfl
  | some u =>
    -- The state has been visited before, and that visit is over, so the new record is better.
    rw [hlast, h.openVisits_last] at haccepts
    dsimp only [Option.map_some] at haccepts ⊢
    rw [Slots.order_leave hv.lt_length (h.isSealed.unleft u hlast).lt_length hv.stop?_eq]
    cases horder : v.order u with
    | gt => rfl
    | eq | lt =>
      rw [horder] at haccepts
      cases haccepts

/-- The visit of the state, and that of the accepting state in between. -/
theorem Quiet.visit_last (h : Quiet a last g pos ⟨threads, openVisits, errands⟩)
    (hends : a.EndsLeaving last g) (hv : v.Unleft g)
    (haccepts : (⟨threads, openVisits, errands⟩ : View).accepts last v = true) :
    Quiet a last g pos ((step a subject pos everywhere)^[4]
      ⟨threads, openVisits, .visit last v :: errands⟩) := by
  have hne := hends.ne_accept
  let w := (⟨threads, openVisits, errands⟩ : View).begin last v
  let w' := w.begin a.accept (v.leave g pos)
  have hbegin : step a subject pos everywhere ⟨threads, openVisits, .visit last v :: errands⟩ =
      ⟨w.threads, w.openVisits, .visit a.accept (v.leave g pos) :: w.errands⟩ :=
    step_visit_of_accepts hends.leaves haccepts
  have haccept : step a subject pos everywhere
      ⟨w.threads, w.openVisits, .visit a.accept (v.leave g pos) :: w.errands⟩ = w' :=
    step_visit_of_accepts hends.accepts (h.accepts_accept hends hv haccepts)
  -- The accepting state leads nowhere, so both visits end at once.
  simp only [Function.iterate_succ_apply, hbegin, haccept]
  refine ⟨⟨?_, ?_⟩, ?_, h.visits, h.finishes⟩
  · show w'.threads.lookup a.accept = (w'.threads.lookup last).map (·.leave g pos)
    simp only [w', w, View.begin, ThreadSet.lookup_putRecord, if_true, if_neg hne, Option.map_some]
  · show ∀ u ∈ w'.threads.lookup last, u.Unleft g
    simp only [w', w, View.begin, ThreadSet.lookup_putRecord, if_true, if_neg hne]
    rintro u hu
    cases hu
    exact hv
  · have hopen : openVisits last = some 0 := h.openVisits_last
    simp [w', w, View.begin, step, hne, hopen]

/-- From one quiet view to the next. -/
theorem Quiet.exists_iterate (h : Quiet a last g pos w) (hends : a.EndsLeaving last g)
    (subject : Subject) (hne : w.errands ≠ []) :
    ∃ n, Quiet a last g pos ((step a subject pos everywhere)^[n + 1] w) := by
  obtain ⟨threads, openVisits, errands⟩ := w
  cases errands with
  | nil => exact absurd rfl hne
  | cons x errands =>
    cases x with
    | finish q => exact ⟨0, h.finish subject everywhere⟩
    | visit q v =>
      obtain ⟨haccept, hv⟩ := h.visits q v List.mem_cons_self
      cases haccepts : (⟨threads, openVisits, errands⟩ : View).accepts q v with
      | false =>
        refine ⟨0, ?_⟩
        rw [Function.iterate_one, step_visit_of_not_accepts haccepts]
        exact h.tail
      | true =>
        by_cases hlast : q = last
        -- The last state is visited together with the one behind it, and both are left at once.
        · subst hlast
          exact ⟨3, h.tail.visit_last hends hv haccepts⟩
        · refine ⟨0, ?_⟩
          rw [Function.iterate_one]
          cases hst : a.states[q]? with
          | none =>
            simp only [step, visit, hst]
            exact h.tail
          | some st =>
            rw [step_visit_of_accepts hst haccepts]
            exact (h.tail.begin hlast haccept v).schedule hends hst hlast hv

/-- Where no errand is left a view is quiet, if it was quiet once. -/
theorem Quiet.iterate_of_rest (h : Quiet a last g pos w) (hends : a.EndsLeaving last g) {n : Nat}
    (hn : ((step a subject pos everywhere)^[n] w).errands = []) :
    Quiet a last g pos ((step a subject pos everywhere)^[n] w) := by
  -- The induction is on the steps, of which some are taken at once.
  induction n using Nat.strongRecOn generalizing w with
  | ind n ih =>
    by_cases hrest : w.errands = []
    · rwa [View.iterate_of_rest a subject pos everywhere hrest]
    · obtain ⟨k, hk⟩ := h.exists_iterate hends subject hrest
      rcases Nat.lt_or_ge k n with hlt | hle
      · obtain ⟨m, rfl⟩ := Nat.exists_eq_add_of_le' hlt
        rw [Function.iterate_add_apply] at hn ⊢
        exact ih m (by omega) hk hn
      · obtain ⟨m, hm⟩ : ∃ m, k + 1 = m + n := Nat.exists_eq_add_of_le' (Nat.le_succ_of_le hle)
        rwa [hm, Function.iterate_add_apply, View.iterate_of_rest a subject pos everywhere hn]
          at hk

end View

/-! ### Adding threads -/

variable {a : Automaton} {subject : Subject} {last g pos q : Nat} {t t' : ThreadSet}
  {openVisits openVisits' : Array Nat} {v : Slots}

/-- Adding a thread that has not left the group leaves the threads sealed. -/
theorem addThread_sealed (ha : a.Nests) (hends : a.EndsLeaving last g)
    (h : addThread a subject pos t openVisits q v = some (t', openVisits'))
    (hwf : t.Wellformed a.states.size a.groupCount) (hlen : v.length = a.groupCount + 1)
    (hopen : openVisits[last]? = some 0) (hq : q ≠ a.accept) (hv : v.Unleft g)
    (hsealed : ThreadSet.Sealed a last g pos (t.visible everywhere)) :
    ThreadSet.Sealed a last g pos (t'.visible everywhere) := by
  obtain ⟨-, -, n, hn⟩ := addThread_view ha h hwf hlen (a.shut_everywhere subject pos)
  have hn : (View.step a subject pos everywhere)^[n]
      ⟨t.visible everywhere, Exploration.counts everywhere openVisits, [.visit q v]⟩ =
        ⟨t'.visible everywhere, Exploration.counts everywhere openVisits, []⟩ := hn
  have hquiet : View.Quiet a last g pos
      ⟨t.visible everywhere, Exploration.counts everywhere openVisits, [.visit q v]⟩ := by
    refine ⟨hsealed, hopen, fun r u hmem => ?_, fun hmem => ?_⟩
    · cases List.mem_singleton.1 hmem
      exact ⟨hq, hv⟩
    · cases List.mem_singleton.1 hmem
  have hend := hquiet.iterate_of_rest hends (congrArg View.errands hn)
  rw [hn] at hend
  exact hend.isSealed

end Automaton

end PosixRegex
