import Mathlib.Algebra.Order.BigOperators.Group.Finset
import Mathlib.Tactic.Linarith
import Mathlib.Tactic.Ring
import PosixRegex.Automaton.Search
import PosixRegex.Proofs.Admission
import PosixRegex.Proofs.Worklist

/-!
# Explorations end

From a thread that enters a state at a position only records are reached that differ from the first
one in a controlled way. There is a group, the pivot, such that the groups before it which had been
entered before are as they were, up to being left at the position; all that is known of the others
was recorded at the position itself. Of two such records the one with the later pivot is the better
one, and with the same pivot they tie. So a state is visited again only when its pivot grows, or
when more groups have been entered, and that is not for ever.

- `Slots.Descends`: the records that are reached from a record.
- `Slots.Descends.order_eq_gt`, `Slots.Descends.order_eq_eq`: how they are ranked.
- `Automaton.exists_addThread`: adding a thread always comes to its end.
-/

namespace PosixRegex

namespace Mark

/-- A mark that tells of nothing but a given position. -/
structure Fresh (pos : Nat) (m : Mark) : Prop where
  /-- The group was entered at the position, if at all. -/
  start : m.start? = none ∨ m.start? = some pos
  /-- The group was left at the position, if at all. -/
  stop : m.stop? = none ∨ m.stop? = some pos

/-- A mark that is as it was, up to being closed at a given position. -/
structure Kept (pos : Nat) (old m : Mark) : Prop where
  /-- The group has not been entered since. -/
  start : m.start? = old.start?
  /-- The group has not been left since, unless it was open. -/
  stop : m.stop? = old.stop? ∨ old.stop? = none ∧ m.stop? = some pos

variable {pos : Nat} {old m m' : Mark}

theorem fresh_unset (pos : Nat) : unset.Fresh pos := ⟨.inl rfl, .inl rfl⟩

theorem fresh_opened (pos : Nat) : (opened pos).Fresh pos := ⟨.inr rfl, .inl rfl⟩

theorem Fresh.closed (h : m.Fresh pos) : (m.closed pos).Fresh pos := ⟨h.start, .inr rfl⟩

theorem Kept.refl (pos : Nat) (m : Mark) : m.Kept pos m := ⟨rfl, .inl rfl⟩

/-- Positions of one kind tie. -/
theorem comparePositions_eq_of {p q : Option Nat} (hp : p = none ∨ p = some pos)
    (hq : q = none ∨ q = some pos) : comparePositions p q = .eq := by
  rw [comparePositions_eq_iff]
  rcases hp with hp | hp
  · exact .inl hp
  · rcases hq with hq | hq
    · exact .inr (.inl hq)
    · exact .inr (.inr (hp.trans hq.symm))

/-- Two fresh marks tie. -/
theorem Fresh.order_eq (h : m.Fresh pos) (h' : m'.Fresh pos) : m.order m' = .eq := by
  rw [order, comparePositions_eq_of h'.start h.start, comparePositions_eq_of h.stop h'.stop]
  rfl

/-- Two marks that are both as one was tie. -/
theorem Kept.order_eq (h : old.Kept pos m) (h' : old.Kept pos m') : m.order m' = .eq := by
  have hstart : comparePositions m'.start? m.start? = .eq :=
    comparePositions_eq_iff.2 (.inr (.inr (h'.start.trans h.start.symm)))
  have hstop : comparePositions m.stop? m'.stop? = .eq := by
    -- A group that was open ends here or is still open, and neither decides.
    rcases h.stop with heq | ⟨hnone, heq⟩
    · rcases h'.stop with heq' | ⟨hnone, -⟩
      · exact comparePositions_eq_iff.2 (.inr (.inr (heq.trans heq'.symm)))
      · exact comparePositions_eq_iff.2 (.inl (heq.trans hnone))
    · rcases h'.stop with heq' | ⟨-, heq'⟩
      · exact comparePositions_eq_iff.2 (.inr (.inl (heq'.trans hnone)))
      · exact comparePositions_eq_iff.2 (.inr (.inr (heq.trans heq'.symm)))
  rw [order, hstart, hstop]
  rfl

end Mark

namespace Slots

/-- A record that is reached from another one at a position. The groups before the pivot which had
been entered are as they were; the pivot itself, if there is one, has been entered again; and
nothing is known of the others but what happened at the position. -/
structure Descends (old : Slots) (pos pivot : Nat) (v : Slots) : Prop where
  /-- Group 0 is not entered again. -/
  pivot_pos : 0 < pivot
  /-- The pivot is a group, or the number after the last one. -/
  pivot_le : pivot ≤ old.length
  /-- The records have the same groups. -/
  length_eq : v.length = old.length
  /-- What is before the pivot and had been entered is as it was. -/
  kept : ∀ g < pivot, (old.mark g).start?.isSome → (old.mark g).Kept pos (v.mark g)
  /-- The others are fresh. -/
  fresh : ∀ g, pivot ≤ g ∨ (old.mark g).start? = none → (v.mark g).Fresh pos
  /-- The pivot had been entered and has been entered again. -/
  again : pivot < old.length → (old.mark pivot).start?.isSome ∧ (v.mark pivot).start? = some pos

namespace Descends

variable {old v w : Slots} {pos pivot pivot' group last bound : Nat}

/-- Before anything is entered the pivot is the number after the last group. -/
theorem refl (hpos : 0 < old.length)
    (hunset : ∀ g, (old.mark g).start? = none → old.mark g = .unset) (pos : Nat) :
    old.Descends pos old.length old where
  pivot_pos := hpos
  pivot_le := Nat.le_refl _
  length_eq := rfl
  kept g _ _ := Mark.Kept.refl pos _
  fresh g hg := by
    rcases hg with hg | hg
    · rw [mark_of_length_le hg]
      exact Mark.fresh_unset pos
    · rw [hunset g hg]
      exact Mark.fresh_unset pos
  again h := absurd h (Nat.lt_irrefl _)

/-- Entering a group. It becomes the pivot when it is before the pivot and had been entered; when it
had not been entered, neither had the groups inside it. -/
theorem enter (h : old.Descends pos pivot v) (hpos : 0 < group) (hle : group ≤ last)
    (hlt : group < old.length) (hbeyond : ∀ g, last < g → v.mark g = .unset)
    (hnested : (old.mark group).start? = none →
      ∀ g, group < g → g ≤ last → (old.mark g).start? = none) :
    ∃ m, old.Descends pos m (v.enter group last pos) := by
  have hself : (v.enter group last pos).mark group = .opened pos :=
    mark_enter_self hle (by rwa [h.length_eq])
  have hbelow {g : Nat} (hg : g < group) : (v.enter group last pos).mark g = v.mark g :=
    mark_enter_of_outside (.inl hg) hle
  have habove {g : Nat} (hg : group < g) : (v.enter group last pos).mark g = .unset := by
    by_cases hin : g ≤ last
    · exact mark_enter_inner hg hin
    · rw [mark_enter_of_outside (.inr (Nat.lt_of_not_le hin)) hle]
      exact hbeyond g (Nat.lt_of_not_le hin)
  have hlen : (v.enter group last pos).length = old.length := by rw [length_enter, h.length_eq]
  -- From the entered group on all marks are fresh.
  have hfresh {g : Nat} (hg : group ≤ g) : ((v.enter group last pos).mark g).Fresh pos := by
    rcases Nat.eq_or_lt_of_le hg with rfl | hg
    · rw [hself]
      exact Mark.fresh_opened pos
    · rw [habove hg]
      exact Mark.fresh_unset pos
  -- What had been entered and still is lies, if it is not before the group, in the group.
  have hgroup {g : Nat} (hge : group ≤ g) (hold : (old.mark g).start?.isSome)
      (hv : (v.mark g).start?.isSome) : (old.mark group).start?.isSome := by
    rcases Nat.eq_or_lt_of_le hge with rfl | hgt
    · exact hold
    · by_contra hnot
      rw [Option.not_isSome_iff_eq_none] at hnot
      by_cases hin : g ≤ last
      · rw [hnested hnot g hgt hin] at hold
        exact Bool.false_ne_true hold
      · rw [hbeyond g (Nat.lt_of_not_le hin)] at hv
        exact Bool.false_ne_true hv
  -- The group becomes the pivot if it had been entered and lies no later than the pivot.
  by_cases hset : (old.mark group).start?.isSome ∧ group ≤ pivot
  · obtain ⟨hset, hpivot⟩ := hset
    refine ⟨group, hpos, Nat.le_of_lt hlt, hlen, fun g hg hold => ?_, fun g hg => ?_, fun _ => ?_⟩
    · rw [hbelow hg]
      exact h.kept g (Nat.lt_of_lt_of_le hg hpivot) hold
    · by_cases hge : group ≤ g
      · exact hfresh hge
      · rw [hbelow (Nat.lt_of_not_le hge)]
        exact h.fresh g (.inr (hg.resolve_left hge))
    · rw [hself]
      exact ⟨hset, rfl⟩
  · refine ⟨pivot, h.pivot_pos, h.pivot_le, hlen, fun g hg hold => ?_, fun g hg => ?_, fun hp => ?_⟩
    · -- What had been entered before the pivot lies before the group, and is as it was.
      have hkept := h.kept g hg hold
      have hbefore : g < group := by
        refine Nat.lt_of_not_le fun hge => hset ⟨hgroup hge hold ?_, by omega⟩
        rwa [hkept.start]
      rw [hbelow hbefore]
      exact hkept
    · by_cases hge : group ≤ g
      · exact hfresh hge
      · rw [hbelow (Nat.lt_of_not_le hge)]
        exact h.fresh g hg
    · obtain ⟨hold, hagain⟩ := h.again hp
      have hbefore : pivot < group := by
        refine Nat.lt_of_not_le fun hge => hset ⟨hgroup hge hold ?_, hge⟩
        rw [hagain]
        rfl
      rw [hbelow hbefore]
      exact ⟨hold, hagain⟩

/-- Leaving a group that is open. -/
theorem leave (h : old.Descends pos pivot v) (hopen : (v.mark group).start?.isSome)
    (hstop : (v.mark group).stop? = none) : old.Descends pos pivot (v.leave group pos) := by
  have hself : (v.leave group pos).mark group = (v.mark group).closed pos :=
    mark_leave_self (lt_length_of_isSome hopen)
  refine ⟨h.pivot_pos, h.pivot_le, by rw [length_leave, h.length_eq], fun g hg hold => ?_,
    fun g hg => ?_, fun hp => ?_⟩
  · by_cases hne : g = group
    · subst hne
      have hkept := h.kept g hg hold
      rw [hself]
      refine ⟨hkept.start, .inr ⟨?_, rfl⟩⟩
      -- The group is open now, so it was open before.
      rcases hkept.stop with heq | ⟨hnone, -⟩
      · exact heq.symm.trans hstop
      · exact hnone
    · rw [mark_leave_of_ne hne]
      exact h.kept g hg hold
  · by_cases hne : g = group
    · subst hne
      rw [hself]
      exact (h.fresh g hg).closed
    · rw [mark_leave_of_ne hne]
      exact h.fresh g hg
  · rw [start?_mark_leave]
    exact h.again hp

/-! ### Ranking -/

/-- Before both pivots two records tie. -/
theorem order_mark_eq (h : old.Descends pos pivot v) (h' : old.Descends pos pivot' w) {g : Nat}
    (hg : g < pivot) (hg' : g < pivot') : (v.mark g).order (w.mark g) = .eq := by
  by_cases hold : (old.mark g).start?.isSome
  · exact (h.kept g hg hold).order_eq (h'.kept g hg' hold)
  · rw [Option.not_isSome_iff_eq_none] at hold
    exact (h.fresh g (.inr hold)).order_eq (h'.fresh g (.inr hold))

/-- Two records with the same pivot tie. -/
theorem order_eq_eq (h : old.Descends pos pivot v) (h' : old.Descends pos pivot w) :
    v.order w = .eq := by
  refine order_eq_of_forall fun g => ?_
  rcases Nat.lt_or_ge g pivot with hlt | hge
  · exact h.order_mark_eq h' hlt hlt
  · exact (h.fresh g (.inl hge)).order_eq (h'.fresh g (.inl hge))

/-- Of two records the one with the later pivot is the better one: the earlier pivot has been
entered again in the other. -/
theorem order_eq_gt (h : old.Descends pos pivot v) (h' : old.Descends pos pivot' w)
    (hlt : pivot' < pivot) (hpast : ∀ g p, 0 < g → (old.mark g).start? = some p → p < pos) :
    v.order w = .gt ∧ w.order v = .lt := by
  -- The earlier pivot is a group, entered here in one record and earlier in the other.
  have hlen : pivot' < old.length := Nat.lt_of_lt_of_le hlt h.pivot_le
  obtain ⟨hset, hw⟩ := h'.again hlen
  obtain ⟨p, hp⟩ := Option.isSome_iff_exists.1 hset
  have hv : (v.mark pivot').start? = some p := (h.kept pivot' hlt hset).start.trans hp
  have hpp : p < pos := hpast pivot' p h'.pivot_pos hp
  constructor
  · exact order_eq_of_first (by rwa [h.length_eq]) (by rwa [h'.length_eq])
      (fun g hg => h.order_mark_eq h' (Nat.lt_trans hg hlt) hg)
      (Mark.order_eq_gt_of_start hv hw hpp) nofun
  · exact order_eq_of_first (by rwa [h'.length_eq]) (by rwa [h.length_eq])
      (fun g hg => h'.order_mark_eq h hg (Nat.lt_trans hg hlt))
      (Mark.order_eq_lt_of_start hw hv hpp) nofun

/-- How far a record has come: by its pivot first, and then by the number of groups entered. -/
def rank (old : Slots) (pivot : Nat) (v : Slots) : Nat := pivot * (old.length + 1) + v.entered

theorem entered_le (v : Slots) : v.entered ≤ v.length := List.countP_le_length

theorem rank_lt (h : old.Descends pos pivot v) :
    rank old pivot v < (old.length + 1) * (old.length + 1) := by
  have hentered := entered_le v
  rw [h.length_eq] at hentered
  have hmul := Nat.mul_le_mul_right (old.length + 1) h.pivot_le
  rw [rank, Nat.succ_mul]
  omega

/-- A record that takes the place of another one has a higher rank. -/
theorem rank_lt_rank (h : old.Descends pos pivot v) (h' : old.Descends pos pivot' w)
    (hpast : ∀ g p, 0 < g → (old.mark g).start? = some p → p < pos)
    (hreason : v.order w = .gt ∨ v.order w = .eq ∧ w.entered < v.entered) :
    rank old pivot' w < rank old pivot v := by
  rw [rank, rank]
  rcases Nat.lt_trichotomy pivot pivot' with hlt | rfl | hlt
  · -- With an earlier pivot the record would be the worse one.
    have hlt := (h'.order_eq_gt h hlt hpast).2
    rw [hlt] at hreason
    rcases hreason with hreason | ⟨hreason, -⟩ <;> cases hreason
  · -- With the same pivot they tie, so the number of groups has grown.
    rw [h.order_eq_eq h'] at hreason
    rcases hreason with hreason | ⟨-, hentered⟩
    · cases hreason
    · omega
  · have hentered := entered_le w
    rw [h'.length_eq] at hentered
    -- A later pivot outweighs the number of groups, which is no more than the record holds.
    have hmul := Nat.mul_le_mul_right (old.length + 1) (Nat.succ_le_of_lt hlt)
    rw [Nat.succ_mul] at hmul
    omega

end Descends

end Slots

namespace Automaton

variable {a : Automaton} {spans : Nat → Nat → Prop} {scopes : List Scope} {subject : Subject}
  {pos q : Nat} {old v : Slots}

/-! ### Descent in an automaton -/

/-- The move from one state and record to another is a step. -/
theorem step_of_mem_moves {st : State} (hst : a.states[q]? = some st) {r : Nat} {w : Slots}
    (hmem : (r, w) ∈ st.moves subject pos v) : Step a subject ⟨q, ⟨pos, v⟩⟩ ⟨r, ⟨pos, w⟩⟩ :=
  (step_iff hst _).2 (.inl ⟨r, w, hmem, rfl⟩)

/-- A state with a record that is admitted there and reached from an old one. -/
structure Descendant (a : Automaton) (spans : Nat → Nat → Prop) (scopes : List Scope)
    (old : Slots) (pos : Nat) (q : Nat) (v : Slots) : Prop where
  /-- The scope of the state admits the record. -/
  admitted : Thread.Admitted a spans scopes ⟨q, ⟨pos, v⟩⟩
  /-- The record is reached from the old one. -/
  descends : ∃ pivot, old.Descends pos pivot v

/-- A step in place leads from a descendant to a descendant. -/
theorem Descendant.step (ha : a.Scoped spans scopes)
    (hlength : old.length = a.groupCount + 1)
    (hnested : ∀ g l, spans g l → ∀ h, g < h → h ≤ l → (old.mark h).start?.isSome →
      (old.mark g).start?.isSome)
    (h : Descendant a spans scopes old pos q v) {r : Nat} {w : Slots}
    (hstep : Step a subject ⟨q, ⟨pos, v⟩⟩ ⟨r, ⟨pos, w⟩⟩) :
    Descendant a spans scopes old pos r w := by
  refine ⟨hstep.admitted ha h.admitted, ?_⟩
  obtain ⟨⟨opened, bound⟩, hhere, hv⟩ := h.admitted
  obtain ⟨pivot, hpivot⟩ := h.descends
  cases hstep with
  | branch | assertion | skip => exact ⟨pivot, hpivot⟩
  | enterGroup hst =>
    obtain ⟨hspan, hbound, -⟩ := ha.permits_of hst hhere
    obtain ⟨hpos, hle, hlast⟩ := ha.bounds hspan
    refine hpivot.enter hpos hle (by omega) (fun g hg => ?_) fun hunset g hlo hhi => ?_
    · exact hv.beyond g (Nat.lt_of_le_of_lt hbound hg)
    · -- An entered group lies in entered groups, so those inside had not been entered.
      by_contra hset
      have := hnested _ _ hspan g hlo hhi (Option.isSome_iff_ne_none.2 hset)
      rw [hunset] at this
      exact Bool.false_ne_true this
  | leaveGroup hst =>
    obtain ⟨outer, rfl, -, -⟩ := ha.permits_of hst hhere
    obtain ⟨hopen, hstop⟩ := hv.opened _ List.mem_cons_self
    exact ⟨pivot, hpivot.leave hopen hstop⟩

/-- A state has no more successors than there are states. -/
theorem length_successors_le (ha : a.Scoped spans scopes) {st : State}
    (hst : a.states[q]? = some st) : st.successors.length ≤ a.states.size := by
  obtain ⟨hlt, -⟩ := Array.getElem?_eq_some_iff.1 hst
  obtain ⟨here, -, hpermits⟩ := ha.permits hst
  have hone : 1 ≤ a.states.size := Nat.lt_of_le_of_lt (Nat.zero_le q) hlt
  cases st with
  | branch targets =>
    rw [← ha.length_eq]
    exact hpermits.1
  | accept => exact Nat.zero_le _
  | byte | set | enterGroup | leaveGroup | assertion | skip => exact hone

/-- No more slots are overwritten than two for each group. -/
theorem length_overwritten_le (ha : a.Scoped spans scopes) {st : State}
    (hst : a.states[q]? = some st) :
    (Exploration.overwritten st).length ≤ 2 * (a.groupCount + 1) := by
  obtain ⟨here, -, hpermits⟩ := ha.permits hst
  cases st with
  | enterGroup group lastNested next =>
    rw [Exploration.overwritten, List.length_range']
    have := ha.bounds hpermits.1
    omega
  | leaveGroup =>
    rw [Exploration.overwritten, List.length_singleton]
    omega
  | byte | set | accept | skip | branch | assertion => exact Nat.zero_le _

namespace Exploration

/-- What remains of an exploration: the number of its tasks, and for each state a credit that
shrinks with each visit. The credit is full while the state has no thread from this exploration;
after that it is what the rank of the thread's record leaves. -/
structure Budget (a : Automaton) (spans : Nat → Nat → Prop) (scopes : List Scope) (old : Slots)
    (pos : Nat) (credit : Nat → Nat) (e : Exploration) : Prop where
  /-- What is pending descends from the record that the exploration began with. -/
  pending : ∀ q v, (q, v) ∈ e.pending → Descendant a spans scopes old pos q v
  /-- The credit of a state is full, or what the rank of its record leaves. -/
  credit : ∀ q, credit q = (old.length + 1) * (old.length + 1) ∨
    ∃ pivot w, e.threads.Holds q w ∧ old.Descends pos pivot w ∧
      credit q + 1 + Slots.Descends.rank old pivot w = (old.length + 1) * (old.length + 1)

/-- The tasks that can still come. -/
def remaining (a : Automaton) (credit : Nat → Nat) (e : Exploration) : Nat :=
  (∑ q ∈ Finset.range a.states.size, credit q) * (a.states.size + 2 * a.groupCount + 3) +
    e.tasks.length

/-- Each piece of work leaves less to do. -/
theorem Budget.work (ha : a.Scoped spans scopes) (hlength : old.length = a.groupCount + 1)
    (hnested : ∀ g l, spans g l → ∀ h, g < h → h ≤ l → (old.mark h).start?.isSome →
      (old.mark g).start?.isSome)
    (hpast : ∀ g p, 0 < g → (old.mark g).start? = some p → p < pos) {credit : Nat → Nat}
    {e e' : Exploration} (h : Budget a spans scopes old pos credit e)
    (hwork : Work a subject pos e e') :
    ∃ credit', Budget a spans scopes old pos credit' e' ∧
      remaining a credit' e' < remaining a credit e := by
  cases hwork with
  | idle hthreads hpending htasks =>
    refine ⟨credit, ⟨by rw [hpending]; exact h.pending, by rw [hthreads]; exact h.credit⟩, ?_⟩
    exact Nat.add_lt_add_left htasks _
  | pass hnext hreason hthreads hpending htasks =>
    refine ⟨credit, ⟨fun q v hmem => h.pending q v ?_, by rw [hthreads]; exact h.credit⟩, ?_⟩
    · rw [hnext, ← hpending]
      exact List.mem_cons_of_mem _ hmem
    · exact Nat.add_lt_add_left htasks _
  | @take q v rest st hnext hstate hreason hthreads hpending htasks =>
    have hv : Descendant a spans scopes old pos q v := by
      refine h.pending q v ?_
      rw [hnext]
      exact List.mem_cons_self
    obtain ⟨pivot, hpivot⟩ := hv.descends
    have hrank := hpivot.rank_lt
    -- The credit of the state falls to what the rank of its new record leaves.
    obtain ⟨spent, hspent⟩ := Nat.exists_eq_add_of_le (Nat.succ_le_of_lt hrank)
    refine ⟨Function.update credit q spent, ⟨fun r w hmem => ?_, fun r => ?_⟩, ?_⟩
    · -- The moves of the state descend as the state does.
      rw [hpending] at hmem
      rcases List.mem_append.1 hmem with hmem | hmem
      · exact hv.step ha hlength hnested (step_of_mem_moves hstate hmem)
      · refine h.pending r w ?_
        rw [hnext]
        exact List.mem_cons_of_mem _ hmem
    · by_cases hr : r = q
      · subst hr
        refine .inr ⟨pivot, v, ?_, hpivot, ?_⟩
        · rw [hthreads, if_pos rfl]
        · rw [Function.update_self]
          omega
      · rw [Function.update_of_ne hr]
        rcases h.credit r with hfull | ⟨m, w, hholds, hw⟩
        · exact .inl hfull
        · refine .inr ⟨m, w, ?_, hw⟩
          rwa [hthreads, if_neg hr]
    · obtain ⟨hq, -⟩ := Array.getElem?_eq_some_iff.1 hstate
      -- The rank has grown, or the credit was full.
      have hless : spent < credit q := by
        rcases h.credit q with hfull | ⟨m, w, hholds, hw, heq⟩
        · omega
        · have := hpivot.rank_lt_rank hw hpast (hreason w hholds)
          omega
      have hsum : ∑ r ∈ Finset.range a.states.size, Function.update credit q spent r <
          ∑ r ∈ Finset.range a.states.size, credit r := by
        refine Finset.sum_lt_sum (fun r _ => ?_) ⟨q, Finset.mem_range.2 hq, ?_⟩
        · by_cases hr : r = q
          · subst hr
            rw [Function.update_self]
            exact Nat.le_of_lt hless
          · rw [Function.update_of_ne hr]
        · rwa [Function.update_self]
      -- One credit pays for all tasks that the visit adds.
      have hmul := Nat.mul_le_mul_right (a.states.size + 2 * a.groupCount + 3)
        (Nat.succ_le_of_lt hsum)
      have hsuccessors := length_successors_le ha hstate
      have hoverwritten := length_overwritten_le ha hstate
      rw [Nat.succ_mul] at hmul
      rw [remaining, remaining]
      omega

/-- Full credit for all states is no more than the number of tasks that an exploration may take. -/
theorem full_le_fuel (a : Automaton) :
    a.states.size * ((a.groupCount + 2) * (a.groupCount + 2)) *
      (a.states.size + 2 * a.groupCount + 3) + 1 ≤ fuel a := by
  -- The fuel is the fourth power of a number above the states and groups together.
  generalize hs : a.states.size = s
  generalize hm : s + (a.groupCount + 2) = m
  have hfuel : fuel a = (m + 1) * (m + 1) * ((m + 1) * (m + 1)) := by
    rw [fuel, hs, ← hm, Nat.mul_assoc]
    rfl
  have hsquare : 2 * (s * (a.groupCount + 2)) ≤ m * m := by
    rw [← hm]
    nlinarith
  have hnext : m * m + 1 ≤ (m + 1) * (m + 1) := by
    rw [Nat.succ_mul_succ]
    omega
  have htasks : (a.groupCount + 2) * (s + 2 * a.groupCount + 3) ≤ m * (2 * m) :=
    Nat.mul_le_mul (by omega) (by omega)
  calc s * ((a.groupCount + 2) * (a.groupCount + 2)) * (s + 2 * a.groupCount + 3) + 1
    _ = s * (a.groupCount + 2) * ((a.groupCount + 2) * (s + 2 * a.groupCount + 3)) + 1 := by ring
    _ ≤ s * (a.groupCount + 2) * (m * (2 * m)) + 1 :=
      Nat.succ_le_succ (Nat.mul_le_mul_left _ htasks)
    _ = 2 * (s * (a.groupCount + 2)) * (m * m) + 1 := by ring
    _ ≤ m * m * (m * m) + 1 := Nat.succ_le_succ (Nat.mul_le_mul_right _ hsquare)
    _ ≤ (m * m + 1) * (m * m + 1) := by
      rw [Nat.succ_mul_succ]
      omega
    _ ≤ (m + 1) * (m + 1) * ((m + 1) * (m + 1)) := Nat.mul_le_mul hnext hnext
    _ = fuel a := hfuel.symm

end Exploration

/-- The range of a group that is entered contains the group. -/
theorem Scoped.nests (ha : a.Scoped spans scopes) : a.Nests := by
  intro st hst
  obtain ⟨q, hq⟩ := Array.mem_iff_getElem?.1 hst
  obtain ⟨here, -, hpermits⟩ := ha.permits hq
  cases st with
  | enterGroup group last next => exact (ha.bounds hpermits.1).2.1
  | _ => trivial

/-- Adding a thread comes to its end. -/
theorem exists_addThread (subject : Subject) (ha : a.Scoped spans scopes)
    (hadmitted : Thread.Admitted a spans scopes ⟨q, ⟨pos, v⟩⟩)
    (hpast : ∀ g p, 0 < g → (v.mark g).start? = some p → p < pos) {threads : ThreadSet}
    (hwf : threads.Wellformed a.states.size a.groupCount) (openVisits : Array Nat) :
    ∃ result, addThread a subject pos threads openVisits q v = some result := by
  obtain ⟨here, hhere, hv⟩ := hadmitted
  have hlength : v.length = a.groupCount + 1 := hv.length_eq
  have hpos : 0 < v.length := by omega
  have hbudget : Exploration.Budget a spans scopes v pos
      (fun _ => (v.length + 1) * (v.length + 1)) ⟨threads, v, openVisits, [.visit q]⟩ := by
    refine ⟨fun r w hmem => ?_, fun r => .inl rfl⟩
    cases List.mem_singleton.1 hmem
    exact ⟨⟨here, hhere, hv⟩, v.length, Slots.Descends.refl hpos hv.unset pos⟩
  -- At the beginning the credit of each state is full.
  have hremaining : Exploration.remaining a (fun _ => (v.length + 1) * (v.length + 1))
      ⟨threads, v, openVisits, [.visit q]⟩ ≤ Exploration.fuel a := by
    refine Nat.le_trans (Nat.le_of_eq ?_) (Exploration.full_le_fuel a)
    rw [Exploration.remaining, Finset.sum_const_nat fun _ _ => rfl, Finset.card_range, hlength]
    rfl
  obtain ⟨e, he⟩ := Exploration.exists_run ha.nests subject
    (P := fun n e => ∃ credit, Exploration.Budget a spans scopes v pos credit e ∧
      Exploration.remaining a credit e = n)
    (fun n e e' ⟨credit, hcredit, hn⟩ hwork => by
      obtain ⟨credit', hcredit', hlt⟩ := hcredit.work ha hlength hv.nested hpast hwork
      exact ⟨_, hn ▸ hlt, credit', hcredit', rfl⟩) hremaining ⟨_, hbudget, rfl⟩
    ⟨hwf, hlength⟩
  exact ⟨(e.threads, e.openVisits), by rw [addThread, he]⟩

end Automaton

end PosixRegex
