import Mathlib.Data.Set.Card
import Mathlib.Order.Interval.Finset.Nat
import PosixRegex.Proofs.Quiescence
import PosixRegex.Proofs.Unwinding

/-!
# Explorations leave no trace

When an exploration is done the record and the numbers of open visits are what they were when it
began, and so it is for each visit that it makes on the way. In between, the numbers tell for each
state how many of its visits are not over: those that have added tasks to the stack which have not
all been done yet. Such a visit can be told by its end, which is on the stack.

- `Exploration.IsOpen`: a visit that is not over.
- `Exploration.IsOpen.finish_mem`, `exists_isOpen`: the visits that are not over are those whose end
  is on the stack.
- `Exploration.ncard_isOpen`: so there are as many of them as ends.
- `Exploration.leaves_no_trace`: the whole exploration, and each visit in it, is undone in the end.
- `Exploration.exists_trace_of_not_nests`: in no other automata is that so.
-/

namespace PosixRegex.Automaton.Exploration

variable {a : Automaton} {subject : Subject} {pos : Nat} {e : Exploration} {i i' n q q' : Nat}
  {base rest rest' : List Task} {v : Slots} {openVisits : Array Nat}

/-! ### Places in a list -/

/-- Where a list is parted at an element that is not among the first ones. -/
theorem append_cons_cases {α : Type} {x y : α} {l₁ l₂ m₁ m₂ : List α}
    (h : l₁ ++ x :: l₂ = m₁ ++ y :: m₂) (hy : y ∉ l₁) :
    (m₁ = l₁ ∧ x = y ∧ l₂ = m₂) ∨ ∃ m, m₁ = l₁ ++ x :: m ∧ l₂ = m ++ y :: m₂ := by
  rcases List.append_eq_append_iff.1 h with ⟨m, rfl, hm⟩ | ⟨m, rfl, hm⟩
  · cases m with
    | nil =>
      obtain ⟨rfl, rfl⟩ := List.cons.inj hm
      exact .inl ⟨List.append_nil _, rfl, rfl⟩
    | cons z m =>
      obtain ⟨rfl, rfl⟩ := List.cons.inj hm
      exact .inr ⟨m, rfl, rfl⟩
  · cases m with
    | nil =>
      obtain ⟨rfl, rfl⟩ := List.cons.inj hm
      exact .inl ⟨(List.append_nil _).symm, rfl, rfl⟩
    | cons z m =>
      obtain ⟨rfl, rfl⟩ := List.cons.inj hm
      exact absurd (List.mem_append_right _ List.mem_cons_self) hy

/-- The places of an element of a list, told by how much of the list is behind each, are as many as
the element is counted. -/
theorem ncard_occurrences {α : Type} [DecidableEq α] (x : α) (l : List α) :
    {k | ∃ front back, l = front ++ x :: back ∧ back.length = k}.ncard = l.count x := by
  have hbound (l : List α) : {k | ∃ front back, l = front ++ x :: back ∧ back.length = k} ⊆
      Set.Iio l.length := by
    rintro _ ⟨front, back, rfl, rfl⟩
    rw [Set.mem_Iio, List.length_append, List.length_cons]
    omega
  induction l with
  | nil => simp
  | cons y l ih =>
    by_cases hy : y = x
    · -- The new place has the whole list behind it, and no other place has as much.
      subst hy
      have hinsert : {k | ∃ front back, y :: l = front ++ y :: back ∧ back.length = k} =
          insert l.length {k | ∃ front back, l = front ++ y :: back ∧ back.length = k} := by
        ext k
        constructor
        · rintro ⟨front, back, hl, rfl⟩
          cases front with
          | nil => cases hl; exact .inl rfl
          | cons z front => cases hl; exact .inr ⟨front, back, rfl, rfl⟩
        · rintro (rfl | ⟨front, back, rfl, rfl⟩)
          · exact ⟨[], l, rfl, rfl⟩
          · exact ⟨y :: front, back, rfl, rfl⟩
      rw [hinsert, Set.ncard_insert_of_notMem (fun h => Nat.lt_irrefl _ (hbound l h))
        ((Set.finite_Iio _).subset (hbound l)), ih, List.count_cons_self]
    · rw [List.count_cons_of_ne hy, ← ih]
      congr 1
      ext k
      constructor
      · rintro ⟨front, back, hl, rfl⟩
        cases front with
        | nil => cases hl; exact absurd rfl hy
        | cons z front => cases hl; exact ⟨front, back, rfl, rfl⟩
      · rintro ⟨front, back, rfl, rfl⟩
        exact ⟨y :: front, back, rfl, rfl⟩

/-! ### Open visits -/

/-- The exploration after some pieces of work. -/
def after (a : Automaton) (subject : Subject) (pos : Nat) (e : Exploration) (n : Nat) :
    Exploration :=
  (next a subject pos)^[n] e

theorem after_succ (a : Automaton) (subject : Subject) (pos : Nat) (e : Exploration) (n : Nat) :
    e.after a subject pos (n + 1) = (e.after a subject pos n).next a subject pos :=
  Function.iterate_succ_apply' _ _ _

/-- A visit of a state that was made as a certain piece of work, and that is not over: some of the
tasks that it added to the rest of the stack have been there ever since. -/
structure IsOpen (a : Automaton) (subject : Subject) (pos : Nat) (e : Exploration) (n i q : Nat)
    (rest : List Task) : Prop where
  /-- It has been made. -/
  lt : i < n
  /-- Its state, and the rest of the stack. -/
  visit : (e.after a subject pos i).tasks = .visit q :: rest
  /-- The stack has not been as low as that since. -/
  above : ∀ j, i < j → j ≤ n → rest.length < (e.after a subject pos j).tasks.length

/-- The next piece of work, if the stack is above the base, leaves what it leads back to. -/
theorem Unwinds.next (ha : a.Nests) (h : e.Unwinds base v openVisits)
    (hlt : base.length < e.tasks.length) : (e.next a subject pos).Unwinds base v openVisits := by
  cases htop : e.tasks with
  | nil =>
    rw [htop] at hlt
    exact absurd hlt (Nat.not_lt_zero _)
  | cons task tasks =>
    rw [next_of_cons htop]
    exact h.perform ha htop hlt

/-- As long as the stack is above the base, what it leads back to stays. -/
theorem Unwinds.after (ha : a.Nests) (hle : i ≤ n)
    (h : (e.after a subject pos i).Unwinds base v openVisits)
    (habove : ∀ j, i ≤ j → j < n → base.length < (e.after a subject pos j).tasks.length) :
    (e.after a subject pos n).Unwinds base v openVisits := by
  induction n, hle using Nat.le_induction with
  | base => exact h
  | succ n hle ih =>
    rw [after_succ]
    refine (ih fun j hij hjn => habove j hij (Nat.lt_succ_of_lt hjn)).next ha ?_
    exact habove n hle (Nat.lt_succ_self n)

/-- What the empty base leads back to stays for ever. -/
theorem Unwinds.after_nil (ha : a.Nests) (h : e.Unwinds [] v openVisits) (n : Nat) :
    (e.after a subject pos n).Unwinds [] v openVisits := by
  induction n with
  | zero => exact h
  | succ n ih =>
    rw [after_succ]
    cases htasks : (e.after a subject pos n).tasks with
    | nil => rwa [next_of_nil htasks]
    | cons task tasks => exact ih.next ha (by simp [htasks])

/-- An open visit was open before. -/
theorem IsOpen.mono (h : IsOpen a subject pos e n i q rest) (hi : i < i') (hle : i' ≤ n) :
    IsOpen a subject pos e i' i q rest :=
  ⟨hi, h.visit, fun j hij hj => h.above j hij (Nat.le_trans hj hle)⟩

/-- A visit stays open for as long as the stack is higher than it was. -/
theorem IsOpen.succ (h : IsOpen a subject pos e n i q rest)
    (hlt : rest.length < (e.after a subject pos (n + 1)).tasks.length) :
    IsOpen a subject pos e (n + 1) i q rest := by
  refine ⟨Nat.lt_succ_of_lt h.lt, h.visit, fun j hij hj => ?_⟩
  rcases Nat.le_succ_iff.1 hj with hj | rfl
  · exact h.above j hij hj
  · exact hlt

/-- An open visit has its end on the stack, upon what was there before the visit. -/
theorem IsOpen.finish_mem (ha : a.Nests) (h : IsOpen a subject pos e n i q rest) :
    ∃ above, (e.after a subject pos n).tasks = above ++ .finish q :: rest := by
  -- Once the end of the visit is on the stack, the stack is never down to it without going below.
  suffices hunwinds : ∃ v openVisits,
      (e.after a subject pos n).Unwinds (.finish q :: rest) v openVisits by
    obtain ⟨v, openVisits, above, htasks, -, -⟩ := hunwinds
    exact ⟨above, htasks⟩
  have hle : i + 1 ≤ n := h.lt
  induction n, hle using Nat.le_induction with
  | base =>
    have hnext := after_succ a subject pos e i
    rw [next_of_cons h.visit, perform] at hnext
    rcases visit_cases ha subject pos { e.after a subject pos i with tasks := rest } q with
      ⟨hsame, -, -⟩ | ⟨added, htasks, hadded, -, -⟩
    · -- A visit that adds nothing is over at once.
      have hlt := h.above (i + 1) (Nat.lt_succ_self i) (Nat.le_refl _)
      rw [hnext, hsame] at hlt
      exact absurd hlt (Nat.lt_irrefl _)
    · rw [← hnext] at htasks
      refine ⟨_, (e.after a subject pos (i + 1)).openVisits, added, htasks, rfl, fun q => ?_⟩
      rw [List.count_eq_zero_of_not_mem (hadded q)]
      simp
  | succ n hle ih =>
    obtain ⟨v, openVisits, hunwinds⟩ := ih (h.mono hle (Nat.le_succ n))
    refine ⟨v, openVisits, ?_⟩
    rw [after_succ]
    refine hunwinds.next ha (Nat.lt_of_not_le fun hlow => ?_)
    -- If it were down to the end of the visit, it would be below next.
    obtain ⟨htasks, -, -⟩ := hunwinds.eq_of_length hlow
    have hlt := h.above (n + 1) (Nat.lt_succ_of_lt hle) (Nat.le_refl _)
    rw [after_succ, next_of_cons htasks] at hlt
    exact absurd hlt (Nat.lt_irrefl _)

/-- Of two open visits the one that was made later has the higher stack. -/
theorem IsOpen.length_lt (ha : a.Nests) (h : IsOpen a subject pos e n i q rest)
    (h' : IsOpen a subject pos e n i' q' rest') (hlt : i < i') : rest.length < rest'.length := by
  obtain ⟨above, htasks⟩ := (h.mono hlt (Nat.le_of_lt h'.lt)).finish_mem ha
  rw [h'.visit] at htasks
  -- The task on top is a visit, so the end of the earlier one is further down.
  cases above with
  | nil => cases htasks
  | cons task above =>
    rw [List.cons_append] at htasks
    obtain ⟨-, rfl⟩ := List.cons.inj htasks
    simp only [List.length_append, List.length_cons]
    omega

/-- Each end of a visit that is on the stack is that of an open one. -/
theorem exists_isOpen (ha : a.Nests) (hnone : ∀ q, .finish q ∉ e.tasks) {above : List Task}
    (htasks : (e.after a subject pos n).tasks = above ++ .finish q :: rest) :
    ∃ i, IsOpen a subject pos e n i q rest := by
  induction n generalizing above q rest with
  | zero =>
    refine absurd ?_ (hnone q)
    rw [show e.tasks = above ++ .finish q :: rest from htasks]
    exact List.mem_append_right _ List.mem_cons_self
  | succ n ih =>
    have hsucc := after_succ a subject pos e n
    have hlt : rest.length < (e.after a subject pos (n + 1)).tasks.length := by
      rw [htasks, List.length_append, List.length_cons]
      omega
    -- What was on the stack before is the end of a visit that was open and still is.
    have hold (below : List Task)
        (h : (e.after a subject pos n).tasks = below ++ .finish q :: rest) :
        ∃ i, IsOpen a subject pos e (n + 1) i q rest := by
      obtain ⟨i, hopen⟩ := ih h
      exact ⟨i, hopen.succ hlt⟩
    cases htop : (e.after a subject pos n).tasks with
    | nil =>
      rw [next_of_nil htop] at hsucc
      exact hold above (hsucc ▸ htasks)
    | cons task tasks =>
      rw [next_of_cons htop] at hsucc
      have hbelow {below : List Task} (h : tasks = below ++ .finish q :: rest) :
          ∃ i, IsOpen a subject pos e (n + 1) i q rest := by
        refine hold (task :: below) ?_
        rw [htop, h, List.cons_append]
      rw [hsucc] at htasks
      cases task with
      | restore slot value => exact hbelow htasks
      | finish id => exact hbelow htasks
      | visit id =>
        rcases visit_cases ha subject pos { e.after a subject pos n with tasks } id with
          ⟨hsame, -, -⟩ | ⟨added, hadds, hadded, -, -⟩
        · exact hbelow (hsame.symm.trans htasks)
        · rw [perform, hadds] at htasks
          rcases append_cons_cases htasks (hadded q) with ⟨rfl, hid, rfl⟩ | ⟨below, -, h⟩
          · -- The visit that has just been made.
            cases hid
            refine ⟨n, Nat.lt_succ_self n, htop, fun j hnj hj => ?_⟩
            obtain rfl : j = n + 1 := Nat.le_antisymm hj hnj
            exact hlt
          · exact hbelow h

/-- The visits of a state that are not over are as many as their ends on the stack. -/
theorem ncard_isOpen (ha : a.Nests) (hnone : ∀ q, .finish q ∉ e.tasks) (n q : Nat) :
    {i | ∃ rest, IsOpen a subject pos e n i q rest}.ncard =
      (e.after a subject pos n).tasks.count (.finish q) := by
  rw [← ncard_occurrences]
  -- A visit corresponds to its end, by what was on the stack below it.
  refine Set.ncard_congr (fun i _ => (e.after a subject pos i).tasks.length - 1) ?_ ?_ ?_
  · rintro i ⟨rest, hopen⟩
    obtain ⟨above, htasks⟩ := hopen.finish_mem ha
    exact ⟨above, rest, htasks, by rw [hopen.visit]; rfl⟩
  · rintro i i' ⟨rest, hopen⟩ ⟨rest', hopen'⟩ hlength
    simp only [hopen.visit, hopen'.visit, List.length_cons, Nat.add_sub_cancel] at hlength
    rcases Nat.lt_trichotomy i i' with hlt | rfl | hlt
    · have := hopen.length_lt ha hopen' hlt
      omega
    · rfl
    · have := hopen'.length_lt ha hopen hlt
      omega
  · rintro _ ⟨above, rest, htasks, rfl⟩
    obtain ⟨i, hopen⟩ := exists_isOpen ha hnone htasks
    exact ⟨i, ⟨rest, hopen⟩, by rw [hopen.visit]; rfl⟩

/-! ### Whole explorations -/

/-- An exploration leaves no trace but the threads that it has found. Let `a` be an automaton that
forgets with each group a range of groups which begins with that one, as do the automata that
`ofExpr` gives for any tree, and let `begun` be about to visit the state `id` with the record `v`,
whatever the `threads`. When a `run` of `begun` is over the stack is empty, the record is `v` and no
visit is open. So it is for each visit on the way: as soon as the stack is down again to the `rest`
that was there before the visit, `record` and `openVisits` are what they were. At any time
`openVisits` counts for each state those of its visits that are not over, as `IsOpen` says it. -/
theorem leaves_no_trace :
    (∀ (o : Options) (t : Expr), (ofExpr o t).Nests) ∧
    ∀ a : Automaton, a.Nests → ∀ (subject : Subject) (pos : Nat) (threads : ThreadSet) (v : Slots)
      (id : Nat),
      let closed := Array.replicate a.states.size 0
      let begun : Exploration := ⟨threads, v, closed, [.visit id]⟩
      (∀ fuel e, begun.run a subject pos fuel = some e → e = begun.after a subject pos fuel ∧
        e.tasks = [] ∧ e.record = v ∧ e.openVisits = closed) ∧
      (∀ i n q rest, i < n → (begun.after a subject pos i).tasks = .visit q :: rest →
        (∀ j, i < j → j < n → rest.length < (begun.after a subject pos j).tasks.length) →
        (begun.after a subject pos n).tasks.length ≤ rest.length →
        (begun.after a subject pos n).tasks = rest ∧
          (begun.after a subject pos n).record = (begun.after a subject pos i).record ∧
          (begun.after a subject pos n).openVisits = (begun.after a subject pos i).openVisits) ∧
      ∀ n q, q < a.states.size → (begun.after a subject pos n).openVisits[q]? =
        some {i | ∃ rest, IsOpen a subject pos begun n i q rest}.ncard := by
  refine ⟨nests_ofExpr, fun a ha subject pos threads v id => ?_⟩
  intro closed begun
  have hbegun : begun.Unwinds [] v closed := unwinds_of_visit rfl
  refine ⟨fun fuel e hrun => ?_, fun i n q rest hin hvisit habove hlow => ?_, fun n q hq => ?_⟩
  · exact ⟨(run_eq_some_iff.1 hrun).1.symm, hbegun.run ha hrun⟩
  · -- Until then the stack was above what was there before the visit.
    have hunwinds := (unwinds_of_visit hvisit).after ha (Nat.le_of_lt hin) fun j hij hj => ?_
    · exact hunwinds.eq_of_length hlow
    · rcases Nat.eq_or_lt_of_le hij with rfl | hij
      · rw [hvisit]
        exact Nat.lt_succ_self _
      · exact habove j hij hj
  · -- The numbers tell the ends on the stack, and each end is that of an open visit.
    obtain ⟨above, htasks, -, hopen⟩ := hbegun.after_nil ha n
    rw [ncard_isOpen ha (by simp [begun]), htasks, List.append_nil, hopen q]
    simp [closed, hq]

/-- The exploration for `(a*)*` at the start of a text: the state that enters the group is visited
twice, one visit within the other, and what the second one overwrites is put back. -/
theorem leaves_no_trace_nested :
    let a := ofExpr {} (.loop (.group 1 (.loop (.literal 97) 0 none)) 0 none)
    let subject : Subject := ⟨#[97], {}, {}⟩
    let v : Slots := .initial a.groupCount 0
    let closed := Array.replicate a.states.size 0
    let begun : Exploration := ⟨.empty a.states.size a.slotCount, v, closed, [.visit a.start]⟩
    ∃ e, begun.run a subject 0 40 = some e ∧ e.tasks = [] ∧ e.record = v ∧ e.openVisits = closed ∧
      (begun.after a subject 0 9).tasks.head? = some (.visit 2) ∧
      (begun.after a subject 0 10).record ≠ (begun.after a subject 0 9).record ∧
      (begun.after a subject 0 14).record = (begun.after a subject 0 9).record ∧
      {i | ∃ rest, IsOpen a subject 0 begun 11 i 2 rest}.ncard = 2 := by
  intro a subject v closed begun
  have hdone : (begun.after a subject 0 40).tasks = [] := by decide +kernel
  have hvisit : (begun.after a subject 0 9).tasks =
      .visit 2 :: (begun.after a subject 0 9).tasks.tail := by decide +kernel
  have hchanged : (begun.after a subject 0 10).record ≠ (begun.after a subject 0 9).record := by
    decide +kernel
  have habove : ∀ j < 14, 9 < j → (begun.after a subject 0 9).tasks.tail.length <
      (begun.after a subject 0 j).tasks.length := by decide +kernel
  have hlow : (begun.after a subject 0 14).tasks.length ≤
      (begun.after a subject 0 9).tasks.tail.length := by decide +kernel
  have htwo : (begun.after a subject 0 11).openVisits[2]? = some 2 := by decide +kernel
  obtain ⟨hends, hvisits, hcounts⟩ := leaves_no_trace.2 a (leaves_no_trace.1 _ _) subject 0
    (.empty a.states.size a.slotCount) v a.start
  have hrun : begun.run a subject 0 40 = some (begun.after a subject 0 40) :=
    run_eq_some_iff.2 ⟨rfl, hdone⟩
  obtain ⟨-, htasks, hrecord, hclosed⟩ := hends 40 _ hrun
  have hback := hvisits 9 14 2 _ (by decide) hvisit (fun j h9 h14 => habove j h14 h9) hlow
  refine ⟨_, hrun, htasks, hrecord, hclosed, congrArg List.head? hvisit, hchanged, hback.2.1, ?_⟩
  exact Option.some.inj ((hcounts 11 2 (by decide)).symm.trans htwo)

/-! ### Automata that do not forget what they enter -/

/-- A visit that enters a group without forgetting it overwrites the start of the group and puts
nothing back. -/
theorem run_of_lt {group last next : Nat} (hq : a.states[q]? = some (.enterGroup group last next))
    (hlast : last < group) {t : ThreadSet} (hcontains : t.contains q = false)
    (hnext : ∀ st, a.states[next]? = some st → ((t.insert q).setRecord q v).Holds next v)
    (horder : (v.enter group last pos).order v = .lt) (openVisits : Array Nat) :
    ∃ e, run a subject pos 3 ⟨t, v, openVisits, [.visit q]⟩ = some e ∧
      e.record = v.enter group last pos := by
  -- There is no slot that has to be put back.
  have hnothing : List.range' (2 * group) (2 * (last + 1) - 2 * group) = [] := by
    rw [show 2 * (last + 1) - 2 * group = 0 by omega, List.range'_zero]
  have hvisit : visit a subject pos ⟨t, v, openVisits, []⟩ q =
      ⟨(t.insert q).setRecord q v, v.enter group last pos, openVisits.modify q (· + 1),
        [.visit next, .finish q]⟩ := by
    unfold visit
    simp [hq, hcontains, follow, divert, restores, hnothing, begin]
  -- The state that comes next keeps its thread, which fares better.
  have hkeeps (openVisits : Array Nat) (tasks : List Task) :
      visit a subject pos ⟨(t.insert q).setRecord q v, v.enter group last pos, openVisits, tasks⟩
        next = ⟨(t.insert q).setRecord q v, v.enter group last pos, openVisits, tasks⟩ := by
    unfold visit
    split
    · rfl
    · rename_i st hst
      have hthread := hnext st hst
      rw [if_pos hthread.1, if_neg]
      rw [displaces, hthread.2, horder]
      exact Bool.false_ne_true
  refine ⟨⟨(t.insert q).setRecord q v, v.enter group last pos,
    (openVisits.modify q (· + 1)).modify q (· - 1), []⟩, ?_, rfl⟩
  simp only [run, perform, hvisit, hkeeps]
  rfl

/-- There are threads without the state `q` among which, once `q` is added with the record `v`, the
state `next` has this record, too. -/
theorem exists_holds_insert {states groups q : Nat} (hq : q < states)
    (hlength : v.length = groups + 1) (next : Nat) :
    ∃ t : ThreadSet, t.contains q = false ∧
      (next < states → ((t.insert q).setRecord q v).Holds next v) := by
  have hwf := ThreadSet.wellformed_empty states groups
  have hnone (id : Nat) := ThreadSet.contains_empty states (2 * (groups + 1)) id
  by_cases heq : next = q
  · refine ⟨_, hnone q, fun _ => ?_⟩
    rw [hwf.holds_insert hq (hnone q) hlength, if_pos heq]
  · by_cases hlt : next < states
    · have hcontains : (((ThreadSet.empty states (2 * (groups + 1))).insert next).setRecord
          next v).contains q = false := by
        rw [ThreadSet.contains_setRecord, ← Bool.not_eq_true, hwf.contains_insert hlt (hnone next),
          hnone]
        simp [Ne.symm heq]
      refine ⟨_, hcontains, fun _ => ?_⟩
      rw [((hwf.insert hlt (hnone next)).setRecord next v).holds_insert hq hcontains hlength,
        if_neg heq, hwf.holds_insert hlt (hnone next) hlength, if_pos rfl]
    · exact ⟨_, hnone q, fun h => absurd h hlt⟩

/-- An automaton that does not forget a group which it enters leaves a trace: some exploration of
`a` is over with another record than the one it began with. -/
theorem exists_trace_of_not_nests (h : ¬a.Nests) :
    ∃ (subject : Subject) (pos : Nat) (threads : ThreadSet) (v : Slots) (id fuel : Nat)
      (e : Exploration),
      run a subject pos fuel ⟨threads, v, Array.replicate a.states.size 0, [.visit id]⟩ = some e ∧
        e.record ≠ v := by
  unfold Nests at h
  push Not at h
  obtain ⟨st, hst, hnot⟩ := h
  obtain ⟨q, hq⟩ := Array.mem_iff_getElem?.1 hst
  have hqlt := (Array.getElem?_eq_some_iff.1 hq).1
  cases st with
  | byte | set | branch | leaveGroup | assertion | skip | accept => exact absurd trivial hnot
  | enterGroup group last next =>
    have hlast : last < group := Nat.lt_of_not_le hnot
    -- The group has been entered at 0, and is entered again at 1.
    let v : Slots := (List.replicate (group + 1) Mark.unset).set group (.opened 0)
    have hlen : v.length = group + 1 := by simp [v]
    have hmark : v.mark group = .opened 0 := by simp [v, Slots.mark]
    have horder := Slots.order_enter_of_lt hlast hmark Nat.one_pos
    obtain ⟨t, hcontains, hnext⟩ := exists_holds_insert hqlt hlen next
    have hholds (st : State) (hst : a.states[next]? = some st) :
        ((t.insert q).setRecord q v).Holds next v :=
      hnext (Array.getElem?_eq_some_iff.1 hst).1
    let subject : Subject := ⟨#[], {}, {}⟩
    obtain ⟨e, hrun, hrecord⟩ : ∃ e, run a subject 1 3 ⟨t, v, Array.replicate a.states.size 0,
        [.visit q]⟩ = some e ∧ e.record = v.enter group last 1 :=
      run_of_lt hq hlast hcontains hholds horder _
    refine ⟨subject, 1, t, v, q, 3, e, hrun, fun heq => ?_⟩
    rw [← hrecord, heq, Slots.order_eq_of_forall fun g => Mark.order_self _] at horder
    cases horder

end PosixRegex.Automaton.Exploration
