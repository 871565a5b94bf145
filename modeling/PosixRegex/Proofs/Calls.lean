import PosixRegex.Proofs.Enumeration

/-!
# The calls of an enumeration

Matching by enumeration calls itself for the parts of a tree. Which parts it is called for, from
which candidates and with how much of the allowance left, is decided by the calls that are completed
before: `Expr.Calls` leads from a call to those that it makes, and `Expr.Reached` are the calls that
a search makes in the end.

Whatever the pattern, a call comes with a record that is fit for its tree. There is a mark for each
group of the pattern, no mark lies behind the place of the call, and the group of a back-reference
is set as a whole or not at all. What a call finds is fit for the next one because a derivation
leaves a mark alone, forgets it, or sets it to a span that it has gone through
(`Expr.Derives.renews`).

- `Candidate.Round.rounds_eq`: the loop that runs comes to each of its rounds.
- `Expr.Calls.regular`: a call that is fit makes calls that are fit.
- `Expr.Reached.inBounds`: no call looks outside the record or the text.
-/

namespace PosixRegex

/-! ### Marks along a derivation -/

namespace Mark

/-- A mark records nothing behind a position, and an end only with a start that is not behind it. -/
def Timely (m : Mark) (pos : Nat) : Prop :=
  (∀ p ∈ m.start?, p ≤ pos) ∧ ∀ q ∈ m.stop?, ∃ p ∈ m.start?, p ≤ q ∧ q ≤ pos

/-- A mark has both ends or neither of them. -/
def IsWhole (m : Mark) : Prop := m.start?.isSome ↔ m.stop?.isSome

/-- A mark has been left alone, forgotten, or set to a span between two positions. -/
def Renewed (lo hi : Nat) (m m' : Mark) : Prop :=
  m' = m ∨ m' = .unset ∨ ∃ p q, m' = ⟨some p, some q⟩ ∧ lo ≤ p ∧ p ≤ q ∧ q ≤ hi

variable {m m' m'' : Mark} {lo mid hi pos pos' : Nat}

theorem timely_unset (pos : Nat) : unset.Timely pos := ⟨nofun, nofun⟩

theorem timely_opened (pos : Nat) : (opened pos).Timely pos := by
  refine ⟨?_, nofun⟩
  rintro _ ⟨⟩
  exact Nat.le_refl pos

theorem Timely.mono (h : m.Timely pos) (hle : pos ≤ pos') : m.Timely pos' := by
  refine ⟨fun p hp => Nat.le_trans (h.1 p hp) hle, fun q hq => ?_⟩
  obtain ⟨p, hp, hpq, hqpos⟩ := h.2 q hq
  exact ⟨p, hp, hpq, Nat.le_trans hqpos hle⟩

/-- What is recorded of a group that was entered and left is in order. -/
theorem Timely.of_span? {p q : Nat} (h : m.Timely pos) (hspan : m.span? = some (p, q)) :
    p ≤ q ∧ q ≤ pos := by
  obtain ⟨start?, stop?⟩ := m
  cases start? <;> cases stop? <;> cases hspan
  obtain ⟨p', hp', hle⟩ := h.2 q rfl
  obtain rfl : p = p' := Option.some.inj hp'
  exact hle

theorem isWhole_unset : unset.IsWhole := Iff.rfl

theorem Renewed.refl (lo hi : Nat) (m : Mark) : Renewed lo hi m m := .inl rfl

theorem Renewed.trans (h : Renewed lo mid m m') (h' : Renewed mid hi m' m'') (hlo : lo ≤ mid)
    (hhi : mid ≤ hi) : Renewed lo hi m m'' := by
  rcases h' with rfl | hunset | ⟨p, q, hspan, hp, hpq, hq⟩
  · -- Left alone by the second derivation, so all was done by the first one.
    refine h.imp_right fun h => h.imp_right ?_
    rintro ⟨p, q, hspan, hp, hpq, hq⟩
    exact ⟨p, q, hspan, hp, hpq, Nat.le_trans hq hhi⟩
  · exact .inr (.inl hunset)
  · exact .inr (.inr ⟨p, q, hspan, Nat.le_trans hlo hp, hpq, hq⟩)

theorem Renewed.timely (h : Renewed lo hi m m') (hm : m.Timely lo) (hle : lo ≤ hi) :
    m'.Timely hi := by
  rcases h with rfl | rfl | ⟨p, q, rfl, -, hpq, hq⟩
  · exact hm.mono hle
  · exact timely_unset hi
  · refine ⟨?_, ?_⟩
    · rintro _ ⟨⟩
      exact Nat.le_trans hpq hq
    · rintro _ ⟨⟩
      exact ⟨p, rfl, hpq, hq⟩

theorem Renewed.isWhole (h : Renewed lo hi m m') (hm : m.IsWhole) : m'.IsWhole := by
  rcases h with rfl | rfl | ⟨p, q, rfl, -⟩
  · exact hm
  · exact isWhole_unset
  · exact Iff.rfl

end Mark

namespace Expr

variable {subject : Subject} {t body : Expr} {ts : List Expr} {c d : Candidate}

mutual

/-- A derivation leaves the mark of a group alone, forgets it, or sets it to a span that it has gone
through. -/
theorem Derives.renews {t : Expr} {c d : Candidate} {before : Nat} (h : t.Derives subject c d)
    (ht : t.Orderly before) (hlen : before + t.groupCount < c.slots.length) (g : Nat) :
    Mark.Renewed c.stop d.stop (c.slots.mark g) (d.slots.mark g) := by
  cases t with
  | empty =>
    obtain rfl : d = c := h
    exact .refl _ _ _
  | literal | any | set | named =>
    rw [h.2]
    exact .refl _ _ _
  | concat items => exact DerivesAll.renews h ht hlen g
  | alternation branches => exact DerivesAny.renews h ht hlen g
  | loop body min max =>
    obtain ⟨n, -, -, h⟩ := h
    -- Each pass renews what the passes before it have left.
    refine (h.preserves (P := fun e => c.Extends subject e ∧
      Mark.Renewed c.stop e.stop (c.slots.mark g) (e.slots.mark g)) (fun a b ha hab => ?_)
      ⟨.refl subject c, .refl _ _ _⟩).2
    obtain ⟨hca, hrenewed⟩ := ha
    have hext := hab.extends
    have hpass := Derives.renews hab ht.2.2 (by rw [hca.length_eq]; exact hlen) g
    exact ⟨hca.trans hext, hrenewed.trans hpass hca.stop_le hext.stop_le⟩
  | group index body =>
    obtain ⟨e, he, rfl⟩ := h
    obtain ⟨rfl, hbody⟩ := ht
    rw [groupCount] at hlen
    have hext := he.extends
    by_cases hg : g = before + 1
    · -- The group is opened on the way in, closed on the way out and left alone in between.
      subst hg
      refine .inr (.inr ⟨c.stop, e.stop, ?_, Nat.le_refl _, hext.stop_le, Nat.le_refl _⟩)
      have hlen' : before + 1 < e.slots.length := by
        rw [hext.length_eq, Slots.length_enter]
        omega
      rw [Slots.mark_leave_self hlen', he.mark_eq hbody (.inl (Nat.le_refl _)),
        Slots.mark_enter_self (Nat.le_add_right _ _) (by omega)]
      rfl
    · have hinside := Derives.renews he hbody (by rw [Slots.length_enter]; omega) g
      rw [Slots.mark_leave_of_ne hg]
      -- Entering forgets the marks inside the group and leaves the others alone.
      by_cases hin : before + 1 < g ∧ g ≤ before + 1 + body.groupCount
      · rw [Slots.mark_enter_inner hin.1 hin.2] at hinside
        exact .inr (hinside.elim .inl id)
      · rwa [Slots.mark_enter_of_outside (by omega) (by omega)] at hinside
  | anchor kind =>
    obtain ⟨-, rfl⟩ := h
    exact .refl _ _ _
  | backref index =>
    obtain ⟨start, stop, -, -, rfl⟩ := h
    exact .refl _ _ _
termination_by structural t

theorem DerivesAll.renews {ts : List Expr} {c d : Candidate} {before : Nat}
    (h : DerivesAll subject ts c d) (hts : OrderlyAll ts before)
    (hlen : before + groupCountAll ts < c.slots.length) (g : Nat) :
    Mark.Renewed c.stop d.stop (c.slots.mark g) (d.slots.mark g) := by
  cases ts with
  | nil =>
    obtain rfl : d = c := h
    exact .refl _ _ _
  | cons t ts =>
    obtain ⟨e, he, hd⟩ := h
    rw [groupCountAll] at hlen
    have hce := he.extends
    have hed := DerivesAll.extends hd
    have hfirst := Derives.renews he hts.1 (by omega) g
    have hothers := DerivesAll.renews hd hts.2 (by rw [hce.length_eq]; omega) g
    exact hfirst.trans hothers hce.stop_le hed.stop_le
termination_by structural ts

theorem DerivesAny.renews {ts : List Expr} {c d : Candidate} {before : Nat}
    (h : DerivesAny subject ts c d) (hts : OrderlyAll ts before)
    (hlen : before + groupCountAll ts < c.slots.length) (g : Nat) :
    Mark.Renewed c.stop d.stop (c.slots.mark g) (d.slots.mark g) := by
  cases ts with
  | nil => exact h.elim
  | cons t ts =>
    rw [groupCountAll] at hlen
    rcases h with h | h
    · exact Derives.renews h hts.1 (by omega) g
    · exact DerivesAny.renews h hts.2 (by omega) g
termination_by structural ts

end

end Expr

/-- A candidate that a pattern with a given number of groups can come to: it lies in the text and
has a mark for each group, none of which lies behind it. -/
structure Candidate.Regular (subject : Subject) (groups : Nat) (c : Candidate) : Prop where
  /-- The candidate lies in the text. -/
  stop_le : c.stop ≤ subject.size
  /-- There is a mark for each group and one for the whole match. -/
  length_eq : c.slots.length = groups + 1
  /-- Nothing is recorded that lies behind the candidate. -/
  timely : ∀ g, (c.slots.mark g).Timely c.stop

theorem Candidate.Regular.of_derives {subject : Subject} {groups before : Nat} {t : Expr}
    {c d : Candidate} (hc : c.Regular subject groups) (h : t.Derives subject c d)
    (ht : t.Orderly before) (hle : before + t.groupCount ≤ groups) :
    d.Regular subject groups := by
  have hext := h.extends
  have hlen : before + t.groupCount < c.slots.length := by
    rw [hc.length_eq]
    exact Nat.lt_succ_of_le hle
  refine ⟨?_, hext.length_eq.trans hc.length_eq, fun g => ?_⟩
  · rcases hext.within with heq | hle
    · exact heq ▸ hc.stop_le
    · exact hle
  · exact (h.renews ht hlen g).timely (hc.timely g) hext.stop_le

/-- Entering a group at the place of a candidate. -/
theorem Candidate.Regular.enter {subject : Subject} {groups : Nat} {c : Candidate}
    (hc : c.Regular subject groups) {index lastNested : Nat} (hle : index ≤ lastNested) :
    Candidate.Regular subject groups ⟨c.stop, c.slots.enter index lastNested c.stop⟩ := by
  refine ⟨hc.stop_le, by rw [Slots.length_enter]; exact hc.length_eq, fun g => ?_⟩
  rw [Slots.mark_enter, Slots.mark_forget]
  -- The group itself is among those that are forgotten.
  split
  · rename_i hg
    rw [if_pos ⟨Nat.le_of_eq hg.1.symm, Nat.le_trans (Nat.le_of_eq hg.1) hle⟩]
    exact Mark.timely_opened c.stop
  · split
    · exact Mark.timely_unset c.stop
    · exact hc.timely g

/-! ### Rounds of a loop -/

namespace Candidate

/-- What a loop goes on from after a pass, when `count` passes lie before it. -/
def nextFront (min count : Nat) (found : List (Candidate × Candidate)) : List Candidate :=
  distinct ((found.partition fun (c, d) => min ≤ count && d.stop == c.stop).2.map (·.2))

/-- What can end a loop after a pass, when `count` passes lie before it. -/
def passEnds (min count : Nat) (found : List (Candidate × Candidate)) : List Candidate :=
  (found.partition fun (c, d) => min ≤ count && d.stop == c.stop).1.map (·.2) ++
    if min ≤ count + 1 then nextFront min count found else []

/-- A loop goes on from what a pass has found, but beyond the minimum not from what a pass has found
without consuming anything. -/
theorem mem_nextFront {min count : Nat} {found : List (Candidate × Candidate)} {d : Candidate} :
    d ∈ nextFront min count found ↔ ∃ e, (e, d) ∈ found ∧ (count < min ∨ d.stop ≠ e.stop) := by
  simp only [nextFront, mem_distinct, List.partition_eq_filter_filter, List.mem_map,
    List.mem_filter, Prod.exists, Function.comp_apply, Bool.not_eq_true', Bool.and_eq_false_iff,
    decide_eq_false_iff_not, Nat.not_le, beq_eq_false_iff_ne]
  constructor
  · rintro ⟨e, d, hmoves, rfl⟩
    exact ⟨e, hmoves⟩
  · rintro ⟨e, hmoves⟩
    exact ⟨e, d, hmoves, rfl⟩

/-- The rounds of a loop from a candidate with an allowance: how many passes lie behind, what the
loop goes on from, and what is left of the allowance. The number of rounds is limited by the maximum
of the loop alone. -/
inductive Round (step : Candidate → Rationed (List Candidate)) (min : Nat) (max : Option Nat)
    (c : Candidate) (allowance : Nat) : (count : Nat) → List Candidate → (left : Nat) → Prop
  /-- No pass lies behind. -/
  | start : Round step min max c allowance 0 [c] allowance
  /-- One more pass extends all that the loop goes on from. -/
  | next {count : Nat} {front : List Candidate} {left : Nat}
      {found : List (Candidate × Candidate)} {left' : Nat} :
      Round step min max c allowance count front left → front ≠ [] → (∀ m ∈ max, count < m) →
      extend step front left = .ok (found, left') →
      Round step min max c allowance (count + 1) (nextFront min count found) left'

variable {step : Candidate → Rationed (List Candidate)} {R : Candidate → Candidate → Prop}
  {min count left allowance passes : Nat} {max : Option Nat} {front : List Candidate}
  {c d : Candidate}

/-- One round of the loop that runs. -/
theorem rounds_of_extend (hne : front ≠ []) {found : List (Candidate × Candidate)} {left' : Nat}
    (hfound : extend step front left = .ok (found, left')) (ends : List (List Candidate)) :
    rounds step min (passes + 1) count front ends left =
      rounds step min passes (count + 1) (nextFront min count found)
        (passEnds min count found :: ends) left' := by
  have hempty : front.isEmpty = false := List.isEmpty_eq_false_iff.2 hne
  rw [rounds]
  simp only [hempty, Bool.false_eq_true, if_false, bind, StateT.bind, hfound, Except.bind]
  rfl

/-- The loop that runs comes to each of its rounds, if it may go round often enough. -/
theorem Round.rounds_eq (h : Round step min max c allowance count front left)
    (hle : count ≤ passes) : ∃ ends, rounds step min passes 0 [c] [] allowance =
      rounds step min (passes - count) count front ends left := by
  induction h with
  | start => exact ⟨[], rfl⟩
  | @next count front left found left' _ hne _ hfound ih =>
    obtain ⟨ends, heq⟩ := ih (Nat.le_of_succ_le hle)
    have hmore : passes - count = passes - (count + 1) + 1 := by omega
    rw [hmore, rounds_of_extend hne hfound] at heq
    exact ⟨_, heq⟩

/-- What a loop goes on from is reached by passes. -/
theorem Round.iterates (hstep : Lists step R) (h : Round step min max c allowance count front left)
    (hd : d ∈ front) : Iterates R count c d := by
  induction h generalizing d with
  | start => exact (List.mem_singleton.1 hd).symm
  | @next count front left found left' _ _ _ hfound ih =>
    obtain ⟨e, hpair, -⟩ := mem_nextFront.1 hd
    obtain ⟨he, hed⟩ := (extend_yields hstep front _ _ _ hfound e d).1 hpair
    exact Iterates.succ_iff.2 ⟨e, ih he, hed⟩

end Candidate

/-! ### Calls -/

namespace Expr

/-- A call of the enumeration. -/
structure Call where
  /-- The tree that is matched. -/
  tree : Expr
  /-- The candidate from which it is matched. -/
  candidate : Candidate
  /-- What is left of the allowance. -/
  allowance : Nat

/-- The calls that a call makes. For a part of the tree the search is at its turn once the calls
before it are completed: those for the parts before it, and for one candidate after the other those
for the same part. -/
inductive Calls (subject : Subject) : Call → Call → Prop
  /-- A group is entered for its body. -/
  | inside {index : Nat} {body : Expr} {c : Candidate} {n : Nat} :
      Calls subject ⟨group index body, c, n⟩
        ⟨body, ⟨c.stop, c.slots.enter index (index + body.groupCount) c.stop⟩, n⟩
  /-- A branch comes after those before it. -/
  | branch {before after : List Expr} {t : Expr} {c : Candidate} {n left : Nat}
      {found : List Candidate} : branchCandidates subject before c n = .ok (found, left) →
      Calls subject ⟨alternation (before ++ t :: after), c, n⟩ ⟨t, c, left⟩
  /-- An item goes on from each candidate of the items before it. -/
  | item {before after : List Expr} {t : Expr} {c d : Candidate} {n left left' : Nat}
      {done rest : List Candidate} {found : List (Candidate × Candidate)} :
      sequenceCandidates subject before [c] n = .ok (done ++ d :: rest, left) →
      Candidate.extend (t.candidates subject) done left = .ok (found, left') →
      Calls subject ⟨concat (before ++ t :: after), c, n⟩ ⟨t, d, left'⟩
  /-- A pass of a loop goes on from each candidate of the round. -/
  | pass {body : Expr} {min count : Nat} {max : Option Nat} {c d : Candidate} {n left left' : Nat}
      {done rest : List Candidate} {found : List (Candidate × Candidate)} :
      Candidate.Round (body.candidates subject) min max c n count (done ++ d :: rest) left →
      (∀ m ∈ max, count < m) →
      Candidate.extend (body.candidates subject) done left = .ok (found, left') →
      Calls subject ⟨loop body min max, c, n⟩ ⟨body, d, left'⟩

/-- The calls that a search from a position on makes. It starts from one position after the other as
long as nothing is found. -/
inductive Reached (subject : Subject) (t : Expr) (start : Nat) : Call → Prop
  /-- The call for the whole tree. -/
  | root {pos : Nat} : start ≤ pos → pos ≤ subject.size →
      (∀ p, start ≤ p → p < pos → t.matchAt subject p = .ok none) →
      Reached subject t start ⟨t, t.origin pos, subject.options.candidateLimit⟩
  /-- A call that another one makes. -/
  | step {call next : Call} : Reached subject t start call → Calls subject call next →
      Reached subject t start next

variable {subject : Subject} {t body : Expr} {c d : Candidate} {groups : Nat} {call next : Call}

/-! ### What a call comes with -/

/-- A record suits a tree behind a number of groups: the groups of the tree and those that it may
refer to are set as a whole or not at all. -/
structure Suits (v : Slots) (t : Expr) (groups before levels : Nat) (closed : Set Nat) : Prop where
  /-- The groups of the tree follow those before it. -/
  orderly : t.Orderly before
  /-- Back-references name closed groups. -/
  fits : t.Fits (before + 1) levels closed
  /-- There are as many groups in the pattern. -/
  le : before + t.groupCount ≤ groups
  /-- The groups that are closed lie before the tree. -/
  closed_whole : ∀ g ∈ closed, g ≤ before ∧ (v.mark g).IsWhole
  /-- None of the groups of the tree is open. -/
  own_whole : ∀ g, before < g → g ≤ before + t.groupCount → (v.mark g).IsWhole

namespace Suits

variable {v w : Slots} {ts us : List Expr} {before levels : Nat} {closed : Set Nat}

/-- Renewing marks keeps them whole. -/
theorem mono (h : Suits v t groups before levels closed)
    (hw : ∀ g, (v.mark g).IsWhole → (w.mark g).IsWhole) : Suits w t groups before levels closed :=
  ⟨h.orderly, h.fits, h.le, fun g hg => ⟨(h.closed_whole g hg).1, hw g (h.closed_whole g hg).2⟩,
    fun g hlo hhi => hw g (h.own_whole g hlo hhi)⟩

/-- A part of a sequence may refer to the groups of the parts before it. -/
theorem of_append (h : Suits v (concat (ts ++ t :: us)) groups before levels closed) :
    OrderlyAll ts before ∧ before + groupCountAll ts ≤ groups ∧
      Suits v t groups (before + groupCountAll ts) levels
        (closed ∪ {index | index ∈ groupIndicesAll ts}) := by
  obtain ⟨horderly, hfits, hle, hclosed, hown⟩ := h
  obtain ⟨hordered, ht, -⟩ := OrderlyAll.append_iff.1 horderly
  obtain ⟨hbefore, hbehind⟩ := Fits.append_iff.1 hfits
  have hnext : before + 1 + groupCountAll ts = before + groupCountAll ts + 1 := by omega
  rw [hnext] at hbehind
  simp only [groupCount, groupCountAll_append, groupCountAll] at hle hown
  refine ⟨hordered, by omega, ht, (Fits.cons_iff.1 hbehind).1, by omega, fun g hg => ?_,
    fun g hlo hhi => hown g (by omega) (by omega)⟩
  rcases hg with hg | hg
  · obtain ⟨hlt, hwhole⟩ := hclosed g hg
    exact ⟨by omega, hwhole⟩
  · -- What was closed in front of the part has one of the numbers of the parts there.
    have hnumbered : groupIndicesAll ts = List.range' (before + 1) (groupCountAll ts) :=
      hbefore.numbered
    have hmem : g ∈ List.range' (before + 1) (groupCountAll ts) := hnumbered ▸ hg
    rw [List.mem_range'_1] at hmem
    exact ⟨by omega, hown g (by omega) (by omega)⟩

theorem of_alternation (h : Suits v (alternation ts) groups before levels closed) :
    Suits v (concat ts) groups before levels closed :=
  ⟨h.orderly, Fits.alternation_iff.1 h.fits, h.le, h.closed_whole, h.own_whole⟩

theorem of_loop {min : Nat} {max : Option Nat}
    (h : Suits v (loop body min max) groups before levels closed) :
    Suits v body groups before levels closed :=
  ⟨h.orderly.2.2, Fits.loop_iff.1 h.fits, h.le, h.closed_whole, h.own_whole⟩

/-- Entering a group forgets the groups inside it, and leaves those that are closed before it. -/
theorem of_group {index : Nat} (h : Suits v (group index body) groups before levels closed)
    (pos : Nat) : index = before + 1 ∧ ∃ levels, Suits
      (v.enter index (index + body.groupCount) pos) body groups (before + 1) levels closed := by
  obtain ⟨⟨rfl, horderly⟩, hfits, hle, hclosed, hown⟩ := h
  rw [groupCount] at hle
  refine ⟨rfl, ?_⟩
  cases levels with
  | zero => exact absurd hfits Fits.not_group
  | succ levels =>
    refine ⟨levels, horderly, (Fits.group_iff.1 hfits).2, by omega, fun g hg => ?_,
      fun g hlo hhi => ?_⟩
    · obtain ⟨hlt, hwhole⟩ := hclosed g hg
      refine ⟨by omega, ?_⟩
      rwa [Slots.mark_enter_of_outside (by omega) (by omega)]
    · rw [Slots.mark_enter_inner hlo hhi]
      exact Mark.isWhole_unset

end Suits

/-- A call that comes with a candidate of the pattern and a record that suits its tree. -/
structure Call.Regular (subject : Subject) (groups : Nat) (call : Call) : Prop where
  /-- The place and the positions in the record are in order. -/
  candidate : call.candidate.Regular subject groups
  /-- The record suits the tree. -/
  suits : ∃ before levels closed, Suits call.candidate.slots call.tree groups before levels closed

/-- The call for a whole pattern finds no group set. -/
theorem regular_origin (ht : t.WellFormed) {pos : Nat} (hpos : pos ≤ subject.size)
    (allowance : Nat) :
    Call.Regular subject t.groupCount ⟨t, t.origin pos, allowance⟩ := by
  have hunset {g : Nat} (hg : 0 < g) : (t.origin pos).slots.mark g = .unset :=
    Slots.mark_initial_of_pos _ _ hg
  refine ⟨⟨hpos, Slots.length_initial _ _, fun g => ?_⟩, 0, 250, ∅, ht.orderly,
    (wellFormed_iff.1 ht).2, by rw [Nat.zero_add], nofun, fun g hlo _ => ?_⟩
  · rcases Nat.eq_zero_or_pos g with rfl | hg
    · exact Mark.timely_opened pos
    · rw [hunset hg]
      exact Mark.timely_unset pos
  · rw [hunset hlo]
    exact Mark.isWhole_unset

/-- A call that is fit makes calls that are fit: what comes before a part is a derivation. -/
theorem Calls.regular (h : Calls subject call next) (hcall : call.Regular subject groups) :
    next.Regular subject groups := by
  obtain ⟨hcandidate, before, levels, closed, hsuits⟩ := hcall
  -- A derivation leads to a place and a record that are fit for what is behind it.
  have hbehind {u t : Expr} {c d : Candidate} {b before levels : Nat} {closed : Set Nat}
      (hc : c.Regular subject groups) (hu : u.Derives subject c d) (horderly : u.Orderly b)
      (hle : b + u.groupCount ≤ groups) (hsuits : Suits c.slots t groups before levels closed)
      (n : Nat) : Call.Regular subject groups ⟨t, d, n⟩ := by
    have hlen : b + u.groupCount < c.slots.length := by
      rw [hc.length_eq]
      exact Nat.lt_succ_of_le hle
    exact ⟨hc.of_derives hu horderly hle, before, levels, closed,
      hsuits.mono fun g => (hu.renews horderly hlen g).isWhole⟩
  cases h with
  | inside =>
    obtain ⟨-, levels, hbody⟩ := hsuits.of_group _
    exact ⟨hcandidate.enter (Nat.le_add_right _ _), before + 1, levels, closed, hbody⟩
  | branch _ =>
    -- The branches before it have matched elsewhere, from the same candidate.
    obtain ⟨-, -, ht⟩ := hsuits.of_alternation.of_append
    exact ⟨hcandidate, _, _, _, ht⟩
  | @item ts _ _ c d _ _ _ done rest _ hfront _ =>
    obtain ⟨horderly, hle, ht⟩ := hsuits.of_append
    have hmem : d ∈ done ++ d :: rest := List.mem_append_right done List.mem_cons_self
    obtain ⟨c', hc', hderives⟩ :=
      ((sequenceCandidates_yields horderly [c] _ _ _ hfront).2 d).1 hmem
    obtain rfl : c' = c := List.mem_singleton.1 hc'
    exact hbehind (u := concat ts) hcandidate hderives horderly hle ht _
  | @pass body min count max c d _ _ _ done rest _ hround _ _ =>
    have hmem : d ∈ done ++ d :: rest := List.mem_append_right done List.mem_cons_self
    obtain ⟨hatom, -, horderly⟩ := hsuits.orderly
    have hderives : (loop body 0 none).Derives subject c d :=
      ⟨count, Nat.zero_le count, nofun, hround.iterates (candidates_yields horderly) hmem⟩
    exact hbehind hcandidate hderives (b := before) ⟨hatom, nofun, horderly⟩ hsuits.le
      hsuits.of_loop _

theorem Reached.regular (ht : t.WellFormed) {start : Nat} (h : Reached subject t start call) :
    call.Regular subject t.groupCount := by
  induction h with
  | root _ hpos _ => exact regular_origin ht hpos _
  | step _ hcalls ih => exact hcalls.regular ih

/-- What a call must come with so that nothing outside the record or the text is looked at. -/
structure Call.InBounds (subject : Subject) (groups : Nat) (call : Call) : Prop where
  /-- The call is for a place in the text. -/
  stop_le : call.candidate.stop ≤ subject.size
  /-- There is a mark for each group and one for the whole match. -/
  length_eq : call.candidate.slots.length = groups + 1
  /-- No start lies behind the place of the call. -/
  start_le : ∀ g, ∀ p ∈ (call.candidate.slots.mark g).start?, p ≤ call.candidate.stop
  /-- An end comes with a start that is not greater, and does not lie behind that place either. -/
  exists_start : ∀ g, ∀ q ∈ (call.candidate.slots.mark g).stop?,
    ∃ p ∈ (call.candidate.slots.mark g).start?, p ≤ q ∧ q ≤ call.candidate.stop
  /-- The marks that entering a group overwrites are there. -/
  group : ∀ index body, call.tree = .group index body →
    index + body.groupCount < call.candidate.slots.length
  /-- The mark of the group that is referred to is there, with both ends or neither. -/
  backref : ∀ index, call.tree = .backref index → index < call.candidate.slots.length ∧
    ((call.candidate.slots.mark index).start?.isSome ↔
      (call.candidate.slots.mark index).stop?.isSome)
  /-- The bytes that are looked for again are in the text, and the place behind them is not before
  that of the call. -/
  span : ∀ index start stop, call.tree = .backref index →
    call.candidate.slots.span? index = some (start, stop) →
    start ≤ stop ∧ stop ≤ subject.size ∧
      call.candidate.stop ≤ call.candidate.stop + stop - start

/-- No `call` of a search by enumeration looks outside the record or the text. Whatever the
`pattern`, the options, the text, the flags and the position where the search starts: each call that
is `Reached` is `InBounds`. -/
theorem Reached.inBounds {pattern : List UInt8} (ht : parse pattern = .ok t) {start : Nat}
    (h : Reached subject t start call) : call.InBounds subject t.groupCount := by
  obtain ⟨hcandidate, before, levels, closed, hsuits⟩ := h.regular (wellFormed_of_parse ht)
  refine ⟨hcandidate.stop_le, hcandidate.length_eq, fun g => (hcandidate.timely g).1,
    fun g => (hcandidate.timely g).2, fun index body htree => ?_, fun index htree => ?_,
    fun index start stop _ hspan => ?_⟩
  · rw [htree] at hsuits
    obtain ⟨rfl, -⟩ := hsuits.of_group 0
    have hle := hsuits.le
    rw [groupCount] at hle
    rw [hcandidate.length_eq]
    omega
  · rw [htree] at hsuits
    -- The reference names a closed group, and closed groups lie before it.
    obtain ⟨hlt, hwhole⟩ := hsuits.closed_whole index hsuits.fits.refersBack
    have hle := hsuits.le
    rw [hcandidate.length_eq]
    exact ⟨by omega, hwhole⟩
  · obtain ⟨hle, hstop⟩ := (hcandidate.timely index).of_span? hspan
    exact ⟨hle, Nat.le_trans hstop hcandidate.stop_le, by omega⟩

/-- In `xaabaaa` nothing is found for `(a*)b\1` at the first position. From the second one the
back-reference is called for behind the `b`, with the span of both `a` recorded. -/
theorem Reached.inBounds_backref :
    let t : Expr := .concat [.group 1 (.loop (.literal 97) 0 none), .literal 98, .backref 1]
    let subject : Subject := ⟨#[120, 97, 97, 98, 97, 97, 97], {}, {}⟩
    let call : Call := ⟨.backref 1, ⟨4, [⟨some 1, none⟩, ⟨some 1, some 3⟩]⟩, 999991⟩
    parse [40, 97, 42, 41, 98, 92, 49] = .ok t ∧ Reached subject t 0 call ∧
      call.InBounds subject 1 := by
  intro t subject call
  have hparse : parse [40, 97, 42, 41, 98, 92, 49] = .ok t := rfl
  have hroot : Reached subject t 0 ⟨t, t.origin 1, subject.options.candidateLimit⟩ := by
    refine .root (Nat.zero_le 1) (by decide) fun p _ hp => ?_
    obtain rfl : p = 0 := Nat.lt_one_iff.1 hp
    decide +kernel
  have hcall : Calls subject ⟨t, t.origin 1, subject.options.candidateLimit⟩ call := by
    have hfront : sequenceCandidates subject [.group 1 (.loop (.literal 97) 0 none), .literal 98]
        [t.origin 1] subject.options.candidateLimit = .ok ([] ++ call.candidate :: [], 999991) := by
      decide +kernel
    exact @Calls.item subject _ [] _ _ _ _ _ _ _ _ [] hfront rfl
  have hreached := hroot.step hcall
  exact ⟨hparse, hreached, hreached.inBounds hparse⟩

end Expr

end PosixRegex
