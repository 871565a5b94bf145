import PosixRegex.Proofs.Worklist

/-!
# What explorations undo

What an exploration changes for the time of a visit, it puts back. The record and the numbers of
open visits are changed in place, and the tasks that put them back stand on the same stack as the
visits that are still to be made, each below those for which the change was made. So at any time the
tasks above some depth of the stack tell how to get back to what was when the stack was that low,
whatever they visit in between.

- `Exploration.visit_cases`: what one visit can do to the stack, the record and the numbers.
- `Exploration.Unwinds`: what the tasks above a base lead back to.
- `Exploration.Unwinds.perform`: one piece of work above the base leaves that as it is.
- `Exploration.Unwinds.run`: a run comes to it in the end.
-/

namespace PosixRegex.Automaton.Exploration

variable {a : Automaton} {subject : Subject} {pos : Nat} {e : Exploration}
  {base : List Task} {v : Slots} {openVisits : Array Nat}

/-! ### One visit -/

@[simp]
theorem openVisits_follow (subject : Subject) (pos : Nat) (e : Exploration) (st : State) :
    (e.follow subject pos st).openVisits = e.openVisits := by
  cases st with
  | assertion anchor next =>
    simp only [follow]
    split <;> rfl
  | _ => rfl

/-- Leading on from a state adds tasks that end no visit and put back what is changed for them. -/
theorem follow_adds (subject : Subject) (pos : Nat) (e : Exploration) {st : State}
    (hst : st.Nests) :
    ∃ added, (e.follow subject pos st).tasks = added ++ e.tasks ∧
      (∀ q, .finish q ∉ added) ∧ undone (e.follow subject pos st).record added = e.record := by
  have hnone : ∃ added, e.tasks = added ++ e.tasks ∧ (∀ q, .finish q ∉ added) ∧
      undone e.record added = e.record :=
    ⟨[], rfl, fun q => List.not_mem_nil, rfl⟩
  have hone (id : Nat) : ∃ added, (e.schedule [.visit id]).tasks = added ++ e.tasks ∧
      (∀ q, .finish q ∉ added) ∧ undone e.record added = e.record :=
    ⟨[.visit id], rfl, by simp, rfl⟩
  cases st with
  | byte | set | accept => exact hnone
  | skip next => exact hone next
  | branch targets =>
    refine ⟨targets.map .visit, rfl, by simp, ?_⟩
    induction targets with
    | nil => rfl
    | cons id targets ih => exact ih trivial
  | assertion anchor next =>
    simp only [follow]
    split
    · exact hone next
    · exact hnone
  | enterGroup group lastNested next =>
    refine ⟨_, rfl, by simp [restores], ?_⟩
    exact undone_restores_enter e.record hst pos
  | leaveGroup group next =>
    refine ⟨_, rfl, by simp [restores], ?_⟩
    exact undone_restores_leave e.record group pos

/-- What a visit can do: nothing that is put back, or it adds its own end to the stack and above it
tasks that end no visit and put back what is changed for them. -/
theorem visit_cases (ha : a.Nests) (subject : Subject) (pos : Nat) (e : Exploration) (id : Nat) :
    ((e.visit a subject pos id).tasks = e.tasks ∧ (e.visit a subject pos id).record = e.record ∧
      (e.visit a subject pos id).openVisits = e.openVisits) ∨
    ∃ added, (e.visit a subject pos id).tasks = added ++ .finish id :: e.tasks ∧
      (∀ q, .finish q ∉ added) ∧ undone (e.visit a subject pos id).record added = e.record ∧
      (e.visit a subject pos id).openVisits = e.openVisits.modify id (· + 1) := by
  -- Whether the state had a thread or not, its visit begins and is led on from.
  have hbegin (threads : ThreadSet) {st : State} (hst : st.Nests) :
      ∃ added, ((({ e with threads } : Exploration).begin id).follow subject pos st).tasks =
          added ++ .finish id :: e.tasks ∧ (∀ q, .finish q ∉ added) ∧
        undone ((({ e with threads } : Exploration).begin id).follow subject pos st).record added =
          e.record ∧
        ((({ e with threads } : Exploration).begin id).follow subject pos st).openVisits =
          e.openVisits.modify id (· + 1) := by
    obtain ⟨added, htasks, hadded, hundone⟩ :=
      follow_adds subject pos (({ e with threads } : Exploration).begin id) hst
    exact ⟨added, htasks, hadded, hundone, openVisits_follow _ _ _ _⟩
  unfold visit
  split
  · exact .inl ⟨rfl, rfl, rfl⟩
  · rename_i st hstate
    have hst := ha.state hstate
    split
    · split
      · exact .inr (hbegin e.threads hst)
      · exact .inl ⟨rfl, rfl, rfl⟩
    · exact .inr (hbegin (e.threads.insert id) hst)

/-! ### What the stack leads back to -/

/-- The tasks above a base lead back to a record and to numbers of open visits. -/
def Unwinds (base : List Task) (v : Slots) (openVisits : Array Nat) (e : Exploration) : Prop :=
  ∃ above, e.tasks = above ++ base ∧ undone e.record above = v ∧
    ∀ q, e.openVisits[q]? = openVisits[q]?.map (· + above.count (.finish q))

/-- A visit that is to be made changes nothing yet. -/
theorem unwinds_of_visit {id : Nat} (h : e.tasks = .visit id :: base) :
    e.Unwinds base e.record e.openVisits := by
  refine ⟨[.visit id], h, rfl, fun q => ?_⟩
  simp

/-- When the stack is down at the base again, all is as it was. -/
theorem Unwinds.eq_of_length (h : e.Unwinds base v openVisits)
    (hlength : e.tasks.length ≤ base.length) :
    e.tasks = base ∧ e.record = v ∧ e.openVisits = openVisits := by
  obtain ⟨above, htasks, hundone, hopen⟩ := h
  obtain rfl : above = [] := by
    rw [htasks, List.length_append] at hlength
    exact List.eq_nil_of_length_eq_zero (by omega)
  refine ⟨htasks, hundone, Array.ext_getElem? fun q => ?_⟩
  rw [hopen]
  simp

/-- A visit leads back to what was before it. -/
theorem Unwinds.visit (ha : a.Nests) {above : List Task} (htasks : e.tasks = above ++ base)
    (hundone : undone e.record above = v)
    (hopen : ∀ q, e.openVisits[q]? = openVisits[q]?.map (· + above.count (.finish q))) (id : Nat) :
    (e.visit a subject pos id).Unwinds base v openVisits := by
  rcases visit_cases ha subject pos e id with ⟨h₁, h₂, h₃⟩ | ⟨added, h₁, hadded, h₂, h₃⟩
  · exact ⟨above, h₁.trans htasks, h₂ ▸ hundone, h₃ ▸ hopen⟩
  · refine ⟨added ++ .finish id :: above, ?_, ?_, fun q => ?_⟩
    · rw [h₁, htasks, List.append_assoc, List.cons_append]
    · rw [undone_append, h₂]
      exact hundone
    · -- Of the tasks that are added just one ends a visit, the one that has begun.
      rw [h₃, Array.getElem?_modify, hopen q, List.count_append,
        List.count_eq_zero_of_not_mem (hadded q), Nat.zero_add]
      by_cases hq : id = q
      · subst hq
        cases openVisits[id]? <;> simp [Nat.add_assoc]
      · simp [hq]

/-- One piece of work above the base leaves what the stack leads back to. -/
theorem Unwinds.perform (ha : a.Nests) (h : e.Unwinds base v openVisits) {task : Task}
    {tasks : List Task} (htop : e.tasks = task :: tasks) (hlt : base.length < e.tasks.length) :
    (({ e with tasks } : Exploration).perform a subject pos task).Unwinds base v openVisits := by
  obtain ⟨above, htasks, hundone, hopen⟩ := h
  cases above with
  | nil =>
    rw [htasks, List.nil_append] at hlt
    exact absurd hlt (Nat.lt_irrefl _)
  | cons task' above =>
    rw [htop, List.cons_append] at htasks
    obtain ⟨rfl, rfl⟩ := List.cons.inj htasks
    cases task with
    | visit id =>
      have hpopped (q : Nat) :
          e.openVisits[q]? = openVisits[q]?.map (· + above.count (.finish q)) := by
        rw [hopen, List.count_cons_of_ne (by simp)]
      exact Unwinds.visit (e := { e with tasks := above ++ base }) ha rfl hundone hpopped id
    | restore slot value =>
      refine ⟨above, rfl, hundone, fun q => ?_⟩
      rw [Exploration.perform, hopen, List.count_cons_of_ne (by simp)]
    | finish id =>
      refine ⟨above, rfl, hundone, fun q => ?_⟩
      rw [Exploration.perform]
      dsimp only
      rw [Array.getElem?_modify, hopen q]
      by_cases hq : id = q
      · subst hq
        cases openVisits[id]? <;> simp
      · simp [hq]

/-- A run comes to what the whole stack leads back to. -/
theorem Unwinds.run (ha : a.Nests) (h : e.Unwinds [] v openVisits) {fuel : Nat} {e' : Exploration}
    (hrun : e.run a subject pos fuel = some e') :
    e'.tasks = [] ∧ e'.record = v ∧ e'.openVisits = openVisits := by
  obtain ⟨hend, htasks⟩ :=
    run_preserves (fun e _ _ htop he => he.perform ha htop (by simp [htop])) hrun h
  exact hend.eq_of_length (Nat.le_of_eq (congrArg List.length htasks))

end PosixRegex.Automaton.Exploration
