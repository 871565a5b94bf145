import Mathlib.Data.Nat.Find
import Mathlib.Logic.Relation
import Mathlib.Tactic.ByContra
import PosixRegex.Proofs.Slots

/-!
# The ranking of records

Records are ranked by the first group on which they do not tie, and what one of two records lacks
does not decide. So the ranking is not transitive: a record can tie with two others of which one
beats the other, and three records can even beat each other in a circle. What a search can promise
of the record that it ends with is that every other one leads to it by comparisons, none of which
was lost.

- `Slots.order_swap`: the ranking of two records from the other side.
- `Slots.order_leave`, `Slots.order_enter_ne_lt`: two threads that do the same keep their ranking,
  or entering a group makes them tie.
- `Slots.Ascends`: one record leads to another one by comparisons that are not lost.
- `Slots.Ascends.take_eq`: marks that no other marks tie with or beat are never lost on the way.
- `Slots.Outcome`: a record to which all records lead.
- `Slots.Ascends.eq_or_prefers`: among records where every group is closed the way leads upwards.
- `Slots.Outcome.foremost`: so the record to which all lead is preferred to all others.
-/

namespace PosixRegex

namespace Mark

variable {m n o : Mark} {p q : Nat}

theorem comparePositions_swap (a b : Option Nat) :
    (comparePositions a b).swap = comparePositions b a := by
  cases a with
  | none => cases b <;> rfl
  | some a =>
    cases b with
    | none => rfl
    | some b => exact Nat.compare_swap a b

theorem order_swap (m n : Mark) : (m.order n).swap = n.order m := by
  rw [order, order, Ordering.swap_then, comparePositions_swap, comparePositions_swap]

@[simp]
theorem order_self (m : Mark) : m.order m = .eq := by
  have htie (p : Option Nat) : comparePositions p p = .eq :=
    comparePositions_eq_iff.2 (.inr (.inr rfl))
  rw [order, htie, htie]
  rfl

/-- A mark with an earlier start is the better one. -/
theorem order_eq_gt_of_start (hm : m.start? = some p) (hn : n.start? = some q) (hlt : p < q) :
    m.order n = .gt := by
  rw [order, hm, hn, comparePositions, Nat.compare_eq_gt.2 hlt]
  rfl

/-- A mark with a later start is the worse one. -/
theorem order_eq_lt_of_start (hm : m.start? = some p) (hn : n.start? = some q) (hlt : q < p) :
    m.order n = .lt := by
  rw [order, hm, hn, comparePositions, Nat.compare_eq_lt.2 hlt]
  rfl

/-- Closing two open groups at one position leaves their ranking as it is. -/
theorem order_closed (hm : m.stop? = none) (p : Nat) :
    (m.closed p).order (n.closed p) = m.order n := by
  rw [order, order, closed, closed, hm, comparePositions_eq_iff.2 (.inr (.inr rfl)),
    comparePositions_eq_iff.2 (.inl rfl)]

/-- A group was entered and left. -/
def IsClosed (m : Mark) : Prop := m.start?.isSome ∧ m.stop?.isSome

/-- Of two groups that were entered and left, the first one started earlier, or it started where the
other one did and ended later. -/
def Precedes (m n : Mark) : Prop :=
  ∃ i j k l, m = ⟨some i, some j⟩ ∧ n = ⟨some k, some l⟩ ∧ (i < k ∨ i = k ∧ l < j)

theorem Precedes.trans (h : m.Precedes n) (h' : n.Precedes o) : m.Precedes o := by
  obtain ⟨i, j, k, l, rfl, rfl, hlt⟩ := h
  obtain ⟨k', l', x, y, heq, rfl, hlt'⟩ := h'
  cases heq
  exact ⟨i, j, x, y, rfl, rfl, by omega⟩

theorem Precedes.order_eq_gt (h : m.Precedes n) : m.order n = .gt := by
  obtain ⟨i, j, k, l, rfl, rfl, hlt | ⟨rfl, hlt⟩⟩ := h
  · simp only [order, comparePositions, Nat.compare_eq_gt.2 hlt]
    rfl
  · simp only [order, comparePositions, Nat.compare_eq_eq.2, Nat.compare_eq_gt.2 hlt]
    rfl

/-- Of two groups that were entered and left one precedes the other, unless they have one span. -/
theorem IsClosed.trichotomy (hm : m.IsClosed) (hn : n.IsClosed) :
    m.Precedes n ∨ m = n ∨ n.Precedes m := by
  obtain ⟨start, stop⟩ := m
  obtain ⟨start', stop'⟩ := n
  obtain ⟨⟨i, rfl⟩, ⟨j, rfl⟩⟩ := hm.imp Option.isSome_iff_exists.1 Option.isSome_iff_exists.1
  obtain ⟨⟨k, rfl⟩, ⟨l, rfl⟩⟩ := hn.imp Option.isSome_iff_exists.1 Option.isSome_iff_exists.1
  rcases Nat.lt_trichotomy i k with hlt | rfl | hlt
  · exact .inl ⟨i, j, k, l, rfl, rfl, .inl hlt⟩
  · rcases Nat.lt_trichotomy j l with hlt | rfl | hlt
    · exact .inr (.inr ⟨i, l, i, j, rfl, rfl, .inr ⟨rfl, hlt⟩⟩)
    · exact .inr (.inl rfl)
    · exact .inl ⟨i, j, i, l, rfl, rfl, .inr ⟨rfl, hlt⟩⟩
  · exact .inr (.inr ⟨k, l, i, j, rfl, rfl, .inl hlt⟩)

end Mark

namespace Slots

variable {u v w v' w' : Slots} {P Q : Slots → Prop} {group last pos n g p q : Nat}

/-! ### Deciding groups -/

/-- The ranking of two records is the other way round from the other side. -/
theorem order_swap (v w : Slots) : (v.order w).swap = w.order v := by
  induction v generalizing w with
  | nil => cases w <;> rfl
  | cons a v ih =>
    cases w with
    | nil => rfl
    | cons b w =>
      rw [order, order, ← Mark.order_swap a b]
      cases a.order b with
      | eq => exact ih w
      | lt | gt => rfl

theorem order_eq_gt_iff : v.order w = .gt ↔ w.order v = .lt := by
  rw [← order_swap w v, Ordering.swap_eq_gt]

/-- Two records tie when neither is beaten by the other one. -/
theorem order_eq_eq_iff : v.order w = .eq ↔ v.order w ≠ .lt ∧ w.order v ≠ .lt := by
  rw [← order_swap v w]
  cases v.order w <;> decide

/-- Of two records the one whose match starts earlier is the better one. -/
theorem order_eq_gt_of_start? (hv : v.start? = some p) (hw : w.start? = some q) (h : p < q) :
    v.order w = .gt :=
  order_eq_of_zero (lt_length_of_start? hv) (lt_length_of_start? hw)
    (Mark.order_eq_gt_of_start hv hw h) nofun

/-- Two records that do not tie are ranked by a group on which they do not tie, and they tie on the
groups before it. -/
theorem exists_first_of_order_ne (h : v.order w ≠ .eq) :
    ∃ g, g < v.length ∧ g < w.length ∧ (∀ k < g, (v.mark k).order (w.mark k) = .eq) ∧
      (v.mark g).order (w.mark g) = v.order w := by
  induction v generalizing w with
  | nil => exact absurd rfl h
  | cons a v ih =>
    cases w with
    | nil => exact absurd rfl h
    | cons b w =>
      cases hab : a.order b with
      | eq =>
        -- The heads tie, so the tails decide.
        rw [order, hab] at h ⊢
        obtain ⟨g, hv, hw, htie, hg⟩ := ih h
        refine ⟨g + 1, Nat.succ_lt_succ hv, Nat.succ_lt_succ hw, fun k hk => ?_, hg⟩
        cases k with
        | zero => exact hab
        | succ k => exact htie k (Nat.lt_of_succ_lt_succ hk)
      | lt | gt =>
        rw [order, hab]
        exact ⟨0, Nat.succ_pos _, Nat.succ_pos _, fun k hk => absurd hk (Nat.not_lt_zero k), hab⟩

/-- A group that decides between two records decides between others whose marks are ranked in the
same way. -/
theorem order_eq_of_marks (hv : v'.length = v.length) (hw : w'.length = w.length)
    (h : ∀ g, (v'.mark g).order (w'.mark g) = (v.mark g).order (w.mark g)) (hne : v.order w ≠ .eq) :
    v'.order w' = v.order w := by
  obtain ⟨g, hgv, hgw, htie, hdecides⟩ := exists_first_of_order_ne hne
  refine order_eq_of_first (hv ▸ hgv) (hw ▸ hgw) (fun k hk => ?_) ?_ hne
  · rw [h, htie k hk]
  · rw [h, hdecides]

/-- Records whose marks are ranked in the same way are ranked in the same way. -/
theorem order_congr (hv : v'.length = v.length) (hw : w'.length = w.length)
    (h : ∀ g, (v'.mark g).order (w'.mark g) = (v.mark g).order (w.mark g)) :
    v'.order w' = v.order w := by
  by_cases heq : v.order w = .eq
  · by_contra hne
    rw [heq] at hne
    exact hne ((order_eq_of_marks hv.symm hw.symm (fun g => (h g).symm) hne).symm.trans heq)
  · exact order_eq_of_marks hv hw h heq

/-! ### Two threads that do the same -/

/-- Leaving a group that is open in two records leaves their ranking as it is. -/
theorem order_leave (hv : group < v.length) (hw : group < w.length)
    (hopen : (v.mark group).stop? = none) (pos : Nat) :
    (v.leave group pos).order (w.leave group pos) = v.order w := by
  refine order_congr (length_leave v group pos) (length_leave w group pos) fun g => ?_
  by_cases hg : g = group
  · rw [hg, mark_leave_self hv, mark_leave_self hw, Mark.order_closed hopen]
  · rw [mark_leave_of_ne hg, mark_leave_of_ne hg]

/-- A record fares worse when a group is entered later than before and is not forgotten. -/
theorem order_enter_of_lt {start pos : Nat} (hlast : last < group)
    (hstart : v.mark group = .opened start) (hlt : start < pos) :
    (v.enter group last pos).order v = .lt := by
  have hstarted : (v.mark group).start? = some start := by
    rw [hstart]
    rfl
  have hlen : group < v.length := lt_length_of_start? hstarted
  have hforget (g : Nat) : (v.forget group last).mark g = v.mark g := by
    rw [mark_forget, if_neg (by omega)]
  -- The groups before tie, and the group itself starts later.
  refine order_eq_of_first (g := group) (by rwa [length_enter]) hlen (fun g hg => ?_) ?_
    (by nofun)
  · rw [mark_enter, if_neg fun h => Nat.ne_of_lt hg h.1, hforget, Mark.order_self]
  · rw [mark_enter, if_pos ⟨rfl, hlen⟩, hforget, hstart]
    simp [Mark.order, Mark.opened, Mark.comparePositions, Nat.compare_eq_lt.2 hlt]

/-- Entering a group after which nothing has been entered in two records does not turn their ranking
round: what it does not overwrite is as before, and on the rest they tie. -/
theorem order_enter_ne_lt (hlen : v.length = w.length) (hle : group ≤ last)
    (hv : ∀ g, last < g → v.mark g = .unset) (hw : ∀ g, last < g → w.mark g = .unset)
    (h : v.order w ≠ .lt) (pos : Nat) :
    (v.enter group last pos).order (w.enter group last pos) ≠ .lt := by
  -- A group that decides now lies before the group, and has decided before.
  have hkept {g : Nat} (hg : g < group) :
      ((v.enter group last pos).mark g).order ((w.enter group last pos).mark g) =
        (v.mark g).order (w.mark g) := by
    rw [mark_enter_of_outside (.inl hg) hle, mark_enter_of_outside (.inl hg) hle]
  have htie {g : Nat} (hg : group ≤ g) :
      ((v.enter group last pos).mark g).order ((w.enter group last pos).mark g) = .eq := by
    have hsame : (v.enter group last pos).mark g = (w.enter group last pos).mark g := by
      by_cases hlast : last < g
      · rw [mark_enter_of_outside (.inr hlast) hle, mark_enter_of_outside (.inr hlast) hle,
          hv g hlast, hw g hlast]
      · rcases Nat.eq_or_lt_of_le hg with rfl | hlt
        · have hforget (u : Slots) : (u.forget group last).mark group = .unset := by
            rw [mark_forget, if_pos ⟨Nat.le_refl _, hle⟩]
          rw [mark_enter, mark_enter, hforget, hforget, hlen]
        · rw [mark_enter_inner hlt (Nat.le_of_not_lt hlast),
            mark_enter_inner hlt (Nat.le_of_not_lt hlast)]
    rw [hsame, Mark.order_self]
  intro hlt
  obtain ⟨g, hgv, hgw, hbefore, hdecides⟩ :=
    exists_first_of_order_ne (v := v.enter group last pos) (w := w.enter group last pos)
      (by rw [hlt]; nofun)
  rw [hlt] at hdecides
  have hg : g < group := by
    refine Nat.lt_of_not_le fun hge => ?_
    rw [htie hge] at hdecides
    cases hdecides
  rw [length_enter] at hgv hgw
  refine h (order_eq_of_first hgv hgw (fun k hk => ?_) ?_ nofun)
  · rw [← hkept (Nat.lt_trans hk hg), hbefore k hk]
  · rw [← hkept hg, hdecides]

/-! ### The first groups alone -/

theorem mark_take (hg : g < n) (v : Slots) : mark (v.take n) g = v.mark g := by
  rw [mark, mark, List.getD_eq_getElem?_getD, List.getD_eq_getElem?_getD,
    List.getElem?_take_of_lt hg]

/-- A record that is not beaten is not beaten on its first groups alone. -/
theorem order_take_ne_lt (h : v.order w ≠ .lt) (n : Nat) : order (v.take n) (w.take n) ≠ .lt := by
  intro hlt
  obtain ⟨g, hgv, hgw, htie, hdecides⟩ :=
    exists_first_of_order_ne (v := v.take n) (w := w.take n) (by rw [hlt]; nofun)
  rw [List.length_take, Nat.lt_min] at hgv hgw
  rw [hlt] at hdecides
  refine h (order_eq_of_first hgv.2 hgw.2 (fun k hk => ?_) ?_ nofun)
  · rw [← mark_take (Nat.lt_trans hk hgv.1) v, ← mark_take (Nat.lt_trans hk hgv.1) w, htie k hk]
  · rw [← mark_take hgv.1 v, ← mark_take hgv.1 w, hdecides]

/-! ### Comparisons that are not lost -/

/-- One record leads to another one by comparisons that are not lost: on the way each record has a
property and is ranked no lower than the one before it. -/
def Ascends (P : Slots → Prop) : Slots → Slots → Prop :=
  Relation.ReflTransGen fun v w => P w ∧ w.order v ≠ .lt

namespace Ascends

theorem refl (P : Slots → Prop) (v : Slots) : Ascends P v v := Relation.ReflTransGen.refl

theorem single (hw : P w) (h : w.order v ≠ .lt) : Ascends P v w :=
  Relation.ReflTransGen.single ⟨hw, h⟩

theorem trans (h : Ascends P v w) (h' : Ascends P w u) : Ascends P v u :=
  Relation.ReflTransGen.trans h h'

theorem tail (h : Ascends P v w) (hu : P u) (h' : u.order w ≠ .lt) : Ascends P v u :=
  h.trans (.single hu h')

/-- What no comparison that is not lost takes away is there at the end. -/
theorem preserves {T : Slots → Prop} (hstep : ∀ v w, T v → P w → w.order v ≠ .lt → T w)
    (h : Ascends P v w) (hv : T v) : T w := by
  induction h with
  | refl => exact hv
  | tail _ hlink ih => exact hstep _ _ ih hlink.1 hlink.2

/-- A change of records that does not turn their ranking round turns one way into another. -/
theorem map {f : Slots → Slots} (hP : ∀ v, P v → Q (f v))
    (hf : ∀ v w, P v → P w → w.order v ≠ .lt → (f w).order (f v) ≠ .lt) (h : Ascends P v w)
    (hv : P v) : Ascends Q (f v) (f w) := by
  refine (h.preserves (T := fun w => P w ∧ Ascends Q (f v) (f w)) (fun x y hx hy hle => ?_)
    ⟨hv, refl Q (f v)⟩).2
  exact ⟨hy, hx.2.tail (hP y hy) (hf x y hx.1 hy hle)⟩

theorem mono (hPQ : ∀ v, P v → Q v) (h : Ascends P v w) : Ascends Q v w := by
  induction h with
  | refl => exact refl Q v
  | tail _ hlink ih => exact ih.tail (hPQ _ hlink.1) hlink.2

/-- The whole match does not get worse on the way when it is closed in each record. -/
theorem mark_zero (hP : ∀ u, P u → (u.mark 0).IsClosed) (hv : (v.mark 0).IsClosed)
    (h : Ascends P v w) : w.mark 0 = v.mark 0 ∨ (w.mark 0).Precedes (v.mark 0) := by
  refine (h.preserves (T := fun u => (u.mark 0).IsClosed ∧
    (u.mark 0 = v.mark 0 ∨ (u.mark 0).Precedes (v.mark 0))) (fun x y hx hy hle => ?_)
    ⟨hv, .inl rfl⟩).2
  refine ⟨hP y hy, ?_⟩
  rcases (hP y hy).trichotomy hx.1 with hyx | heq | hxy
  · rcases hx.2 with heq | hxv
    · exact .inr (heq ▸ hyx)
    · exact .inr (hyx.trans hxv)
  · rw [heq]
    exact hx.2
  · refine absurd (order_eq_gt_iff.1 ?_) hle
    exact order_eq_of_zero (lt_length_of_isSome hx.1.1) (lt_length_of_isSome (hP y hy).1)
      hxy.order_eq_gt nofun

/-- The marks of the first groups are kept on the way when they beat all others. -/
theorem take_eq (hdom : ∀ u, P u → u.take n ≠ v.take n → order (v.take n) (u.take n) = .gt)
    (h : Ascends P v w) : w.take n = v.take n := by
  refine h.preserves (T := fun u => u.take n = v.take n) (fun x y hx hy hle => ?_) rfl
  by_contra hne
  refine order_take_ne_lt hle n ?_
  rw [hx, ← order_eq_gt_iff]
  exact hdom y hy hne

end Ascends

/-- The outcome of a search that keeps the better one of two records: one of all records to which
all of them lead, or none when there are none. -/
structure Outcome (records : Set Slots) (best : Option Slots) : Prop where
  /-- Without an outcome there is no record. -/
  none : best = none → records = ∅
  /-- The outcome is one of the records. -/
  mem : ∀ w ∈ best, w ∈ records
  /-- All records lead to it. -/
  ascends : ∀ w ∈ best, ∀ v ∈ records, Ascends (· ∈ records) v w

/-- The marks of the first groups of a record beat those of all records that have other ones. -/
def Decides (records : Set Slots) (n : Nat) (v : Slots) : Prop :=
  v ∈ records ∧ ∀ u ∈ records, u.take n ≠ v.take n → order (v.take n) (u.take n) = .gt

namespace Outcome

variable {records : Set Slots} {best best' : Option Slots}

/-- There is an outcome just when there is a record. -/
theorem eq_none_iff (h : Outcome records best) : best = Option.none ↔ records = ∅ := by
  refine ⟨h.none, fun hempty => ?_⟩
  cases hbest : best with
  | none => rfl
  | some w =>
    have hw := h.mem w hbest
    rw [hempty] at hw
    exact hw.elim

/-- What is decided of the first groups is so in the outcome. -/
theorem take_eq (h : Outcome records best) (hv : Decides records n v) (hw : w ∈ best) :
    w.take n = v.take n :=
  (h.ascends w hw v hv.1).take_eq hv.2

/-- Two outcomes have the same whole match, when it is closed in each record. -/
theorem mark_zero_eq (h : Outcome records best) (h' : Outcome records best')
    (hclosed : ∀ v ∈ records, (v.mark 0).IsClosed) (hv : v ∈ best) (hw : w ∈ best') :
    w.mark 0 = v.mark 0 := by
  have hvmem := h.mem v hv
  have hwmem := h'.mem w hw
  rcases (h'.ascends w hw v hvmem).mark_zero hclosed (hclosed v hvmem) with heq | hwv
  · exact heq
  · rcases (h.ascends v hv w hwmem).mark_zero hclosed (hclosed w hwmem) with heq | hvw
    · exact heq.symm
    · -- Neither of them can come before the other.
      have hself := (hwv.trans hvw).order_eq_gt
      rw [Mark.order_self] at hself
      cases hself

end Outcome

/-! ### Records where every group is closed -/

/-- On the first group where two records differ both groups are closed, and that of the first record
started earlier, or at the same position and ended later. -/
def Prefers (v w : Slots) : Prop :=
  ∃ g, (∀ k < g, v.mark k = w.mark k) ∧ (v.mark g).Precedes (w.mark g)

theorem Prefers.trans (h : u.Prefers v) (h' : v.Prefers w) : u.Prefers w := by
  obtain ⟨g, hsame, hg⟩ := h
  obtain ⟨k, hsame', hk⟩ := h'
  -- The lesser of the two groups is the first on which the outer records differ.
  rcases Nat.lt_trichotomy g k with hlt | rfl | hlt
  · refine ⟨g, fun i hi => ?_, hsame' g hlt ▸ hg⟩
    rw [hsame i hi, hsame' i (Nat.lt_trans hi hlt)]
  · exact ⟨g, fun i hi => (hsame i hi).trans (hsame' i hi), hg.trans hk⟩
  · refine ⟨k, fun i hi => ?_, hsame k hlt ▸ hk⟩
    rw [hsame i (Nat.lt_trans hi hlt), hsame' i hi]

theorem Prefers.order_eq_gt (h : v.Prefers w) : v.order w = .gt := by
  obtain ⟨g, hsame, hg⟩ := h
  have hgt := hg.order_eq_gt
  obtain ⟨i, j, k, l, hv, hw, -⟩ := hg
  refine order_eq_of_first ?_ ?_ (fun x hx => ?_) hgt nofun
  · exact lt_length_of_isSome (by rw [hv]; rfl)
  · exact lt_length_of_isSome (by rw [hw]; rfl)
  · rw [hsame x hx, Mark.order_self]

/-- Every group has a closed mark. -/
def Complete (groups : Nat) (v : Slots) : Prop :=
  v.length = groups + 1 ∧ ∀ g ≤ groups, (v.mark g).IsClosed

/-- A complete record that is not beaten by another one is that record, or is preferred to it. -/
theorem Complete.eq_or_prefers {groups : Nat} (hv : v.Complete groups) (hw : w.Complete groups)
    (h : v.order w ≠ .lt) : v = w ∨ v.Prefers w := by
  by_cases heq : v = w
  · exact .inl heq
  · -- There is a first group on which the records differ, and it decides.
    have hdiffers : ∃ g, v.mark g ≠ w.mark g := by
      by_contra hsame
      exact heq (ext_mark (hv.1.trans hw.1.symm) fun g => by
        by_contra hne
        exact hsame ⟨g, hne⟩)
    classical
    have hfirst {k : Nat} (hk : k < Nat.find hdiffers) : v.mark k = w.mark k := by
      by_contra hne
      exact Nat.find_min hdiffers hk hne
    have hne := Nat.find_spec hdiffers
    have hle : Nat.find hdiffers ≤ groups := by
      refine Nat.le_of_not_lt fun hlt => hne ?_
      rw [mark_of_length_le (by rw [hv.1]; exact hlt), mark_of_length_le (by rw [hw.1]; exact hlt)]
    rcases (hv.2 _ hle).trichotomy (hw.2 _ hle) with hlt | hsame | hlt
    · exact .inr ⟨_, fun k hk => hfirst hk, hlt⟩
    · exact absurd hsame hne
    · have hbeaten : w.Prefers v := ⟨_, fun k hk => (hfirst hk).symm, hlt⟩
      exact absurd (order_eq_gt_iff.1 hbeaten.order_eq_gt) h

/-- Among complete records a way by comparisons that are not lost leads upwards. -/
theorem Ascends.eq_or_prefers {groups : Nat} (hP : ∀ v, P v → v.Complete groups) (hv : P v)
    (h : Ascends P v w) : w = v ∨ w.Prefers v := by
  refine (h.preserves (T := fun u => P u ∧ (u = v ∨ u.Prefers v)) (fun x y hx hy hle => ?_)
    ⟨hv, .inl rfl⟩).2
  refine ⟨hy, ?_⟩
  rcases (hP y hy).eq_or_prefers (hP x hx.1) hle with rfl | hyx
  · exact hx.2
  · rcases hx.2 with rfl | hxv
    · exact .inr hyx
    · exact .inr (hyx.trans hxv)

/-- A record of a set that is preferred to all others of it. -/
structure Foremost (records : Set Slots) (v : Slots) : Prop where
  /-- It is one of them. -/
  mem : v ∈ records
  /-- It beats all others. -/
  order_eq_gt : ∀ w ∈ records, w ≠ v → v.order w = .gt
  /-- It beats each of them on the first group on which they differ, where the start is earlier, or
  the same and the end is later. -/
  prefers : ∀ w ∈ records, w ≠ v → v.Prefers w

/-- Among complete records the outcome is preferred to all others. -/
theorem Outcome.foremost {groups : Nat} {records : Set Slots} {best : Option Slots}
    (h : Outcome records best) (hcomplete : ∀ v ∈ records, v.Complete groups) (hw : w ∈ best) :
    Foremost records w := by
  have hprefers (v : Slots) (hv : v ∈ records) (hne : v ≠ w) : w.Prefers v := by
    rcases (h.ascends w hw v hv).eq_or_prefers hcomplete hv with heq | hprefers
    · exact absurd heq.symm hne
    · exact hprefers
  exact ⟨h.mem w hw, fun v hv hne => (hprefers v hv hne).order_eq_gt, hprefers⟩

end Slots

end PosixRegex
