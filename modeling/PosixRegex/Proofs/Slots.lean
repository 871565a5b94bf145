import Mathlib.Data.List.GetD
import PosixRegex.Slots

/-!
# Marks under entering, leaving and ranking

What entering and leaving a group does to each mark of a record, and how the ranking of two records
follows from that of their marks.

- `Slots.mark_setSlot`, `mark_forget`: setting a slot changes one mark, and forgetting a range of
  groups unsets theirs.
- `Slots.mark_enter_self`, `mark_enter_inner`, `mark_enter_of_outside`: entering a group opens its
  own mark, forgets the marks inside the group and keeps the others.
- `Slots.mark_leave_self`, `mark_leave_of_ne`: leaving a group closes its own mark.
- `Slots.foldl_setSlot`: setting the slots in which two records differ.
- `Slots.order_eq_of_first`: the first group on which two records do not tie decides their ranking.
-/

namespace PosixRegex

namespace Mark

@[simp]
theorem start?_closed (m : Mark) (pos : Nat) : (m.closed pos).start? = m.start? := rfl

/-- Two positions do not decide when one of them is missing or they are equal. -/
theorem comparePositions_eq_iff {a b : Option Nat} :
    comparePositions a b = .eq ↔ a = none ∨ b = none ∨ a = b := by
  cases a <;> cases b <;> simp [comparePositions]

end Mark

namespace Slots

variable {v w : Slots} {group lastNested pos g : Nat}

/-- Beyond the end of a record every mark counts as unset. -/
theorem mark_of_length_le (h : v.length ≤ g) : v.mark g = .unset := by
  rw [mark, List.getD_eq_default _ _ h]

/-- A group that was entered has a place in the record. -/
theorem lt_length_of_isSome (h : (v.mark g).start?.isSome) : g < v.length := by
  refine Nat.lt_of_not_le fun hg => ?_
  rw [mark_of_length_le hg] at h
  exact Bool.false_ne_true h

theorem lt_length_of_start? (h : (v.mark g).start? = some pos) : g < v.length :=
  lt_length_of_isSome (Option.isSome_iff_exists.2 ⟨pos, h⟩)

/-- Two records of one length with the same marks are one. -/
theorem ext_mark (hlen : v.length = w.length) (h : ∀ g, v.mark g = w.mark g) : v = w := by
  refine List.ext_getElem hlen fun i hv hw => ?_
  have hi := h i
  rwa [mark, mark, List.getD_eq_getElem _ _ hv, List.getD_eq_getElem _ _ hw] at hi

/-! ### Setting and forgetting -/

/-- Setting a slot changes one mark, if there is such a mark. -/
theorem mark_setSlot (v : Slots) (slot : Nat) (value : Option Nat) (g : Nat) :
    (v.setSlot slot value).mark g =
      if g = slot / 2 ∧ g < v.length then
        if slot % 2 = 0 then ⟨value, (v.mark g).stop?⟩ else ⟨(v.mark g).start?, value⟩
      else v.mark g := by
  by_cases hg : g < v.length
  · have hg' : g < (v.setSlot slot value).length := by rwa [length_setSlot]
    rw [mark, List.getD_eq_getElem _ _ hg', mark, List.getD_eq_getElem _ _ hg]
    simp only [setSlot, List.getElem_modify, hg, and_true, eq_comm]
  · have hle := Nat.le_of_not_lt hg
    rw [if_neg fun h => hg h.2, mark_of_length_le hle, mark_of_length_le]
    rwa [length_setSlot]

/-- The marks of the groups from `first` to `last` are forgotten, and the others are kept. -/
theorem mark_forget (v : Slots) (first last g : Nat) :
    (v.forget first last).mark g = if first ≤ g ∧ g ≤ last then .unset else v.mark g := by
  by_cases hg : g < v.length
  · have hg' : g < (v.forget first last).length := by rwa [length_forget]
    rw [mark, List.getD_eq_getElem _ _ hg', mark, List.getD_eq_getElem _ _ hg]
    simp only [forget, List.getElem_mapIdx]
  · have hle := Nat.le_of_not_lt hg
    rw [mark_of_length_le hle, mark_of_length_le (by rwa [length_forget]), ite_self]

/-! ### Entering and leaving -/

/-- All marks after a group is entered, at once: the start of `group` is noted upon what is left
when the groups from `group` to `lastNested` are forgotten. -/
theorem mark_enter (v : Slots) (group lastNested pos g : Nat) :
    (v.enter group lastNested pos).mark g =
      if g = group ∧ g < v.length then ⟨some pos, ((v.forget group lastNested).mark g).stop?⟩
      else (v.forget group lastNested).mark g := by
  rw [enter, mark_setSlot, Nat.mul_div_cancel_left group Nat.two_pos, length_forget,
    if_pos (Nat.mul_mod_right 2 group)]

/-- Entering a group records no end. -/
theorem stop?_mark_enter (v : Slots) (group lastNested pos g : Nat) :
    ((v.enter group lastNested pos).mark g).stop? =
      ((v.forget group lastNested).mark g).stop? := by
  rw [mark_enter]
  split <;> rfl

/-- A group that is entered is open. -/
theorem mark_enter_self (hle : group ≤ lastNested) (h : group < v.length) :
    (v.enter group lastNested pos).mark group = .opened pos := by
  rw [mark_enter, if_pos ⟨rfl, h⟩, mark_forget, if_pos ⟨Nat.le_refl _, hle⟩]
  rfl

/-- The groups inside a group that is entered are forgotten. -/
theorem mark_enter_inner (hlo : group < g) (hhi : g ≤ lastNested) :
    (v.enter group lastNested pos).mark g = .unset := by
  rw [mark_enter, if_neg fun h => Nat.ne_of_gt hlo h.1, mark_forget,
    if_pos ⟨Nat.le_of_lt hlo, hhi⟩]

/-- Entering a group keeps the marks before the group and those after the ones inside it. -/
theorem mark_enter_of_outside (h : g < group ∨ lastNested < g) (hle : group ≤ lastNested) :
    (v.enter group lastNested pos).mark g = v.mark g := by
  rw [mark_enter, if_neg (by omega), mark_forget, if_neg (by omega)]

/-- What is entered does not depend on the marks that entering overwrites. -/
theorem enter_congr (hlen : v.length = w.length)
    (h : ∀ g, g < group ∨ lastNested < g → v.mark g = w.mark g) :
    v.enter group lastNested pos = w.enter group lastNested pos := by
  have hforget : v.forget group lastNested = w.forget group lastNested := by
    refine ext_mark (by simp only [length_forget, hlen]) fun g => ?_
    rw [mark_forget, mark_forget]
    split
    · rfl
    · exact h g (by omega)
  rw [enter, enter, hforget]

/-- A group that is left is closed. -/
theorem mark_leave_self (h : group < v.length) :
    (v.leave group pos).mark group = (v.mark group).closed pos := by
  have h' : group < (v.leave group pos).length := by rwa [length_leave]
  rw [mark, List.getD_eq_getElem _ _ h', mark, List.getD_eq_getElem _ _ h]
  simp only [leave, List.getElem_modify, if_true]

/-- Leaving a group keeps the marks of the other groups. -/
theorem mark_leave_of_ne (h : g ≠ group) : (v.leave group pos).mark g = v.mark g := by
  by_cases hg : g < v.length
  · have hg' : g < (v.leave group pos).length := by rwa [length_leave]
    rw [mark, List.getD_eq_getElem _ _ hg', mark, List.getD_eq_getElem _ _ hg]
    simp only [leave, List.getElem_modify, if_neg (Ne.symm h)]
  · have hle : v.length ≤ g := Nat.le_of_not_lt hg
    rw [mark_of_length_le hle, mark_of_length_le]
    rwa [length_leave]

/-- Leaving a group does not change where any group starts. -/
@[simp]
theorem start?_mark_leave (v : Slots) (group pos g : Nat) :
    ((v.leave group pos).mark g).start? = (v.mark g).start? := by
  by_cases hg : g = group
  · subst hg
    by_cases hlen : g < v.length
    · rw [mark_leave_self hlen, Mark.start?_closed]
    · have hle : v.length ≤ g := Nat.le_of_not_lt hlen
      rw [mark_of_length_le hle, mark_of_length_le (by rwa [length_leave])]
  · rw [mark_leave_of_ne hg]

/-! ### Single slots -/

theorem slot?_start (v : Slots) (g : Nat) : v.slot? (2 * g) = (v.mark g).start? := by
  rw [slot?, if_pos (Nat.mul_mod_right 2 g), Nat.mul_div_cancel_left g Nat.two_pos]

theorem slot?_stop (v : Slots) (g : Nat) : v.slot? (2 * g + 1) = (v.mark g).stop? := by
  rw [slot?, if_neg (by omega), show (2 * g + 1) / 2 = g by omega]

/-- Two records of one length with the same slots are one. -/
theorem ext_slot? (hlen : v.length = w.length) (h : ∀ slot, v.slot? slot = w.slot? slot) :
    v = w := by
  refine ext_mark hlen fun g => ?_
  have hstart := h (2 * g)
  have hstop := h (2 * g + 1)
  rw [slot?_start, slot?_start] at hstart
  rw [slot?_stop, slot?_stop] at hstop
  exact congrArg₂ Mark.mk hstart hstop

/-- Records with the same mark of a group have the same slots of it. -/
theorem slot?_congr {slot : Nat} (h : v.mark (slot / 2) = w.mark (slot / 2)) :
    v.slot? slot = w.slot? slot := by
  rw [slot?, slot?, h]

/-- A slot that is set holds what it is set to, if there is such a slot, and the others are kept. -/
theorem slot?_setSlot (v : Slots) (slot : Nat) (value : Option Nat) (other : Nat) :
    (v.setSlot slot value).slot? other =
      if other = slot ∧ slot / 2 < v.length then value else v.slot? other := by
  by_cases hgroup : other / 2 = slot / 2 ∧ other / 2 < v.length
  · obtain ⟨heq, hlt⟩ := hgroup
    rw [heq] at hlt
    have hmark := mark_setSlot v slot value (slot / 2)
    simp only [hlt, and_self, if_true] at hmark
    simp only [slot?, heq, hmark, hlt, and_true]
    -- The two slots of a group differ in their parity.
    by_cases hother : other = slot
    · subst hother
      by_cases hstart : other % 2 = 0 <;> simp [hstart]
    · by_cases hstart : slot % 2 = 0
      · have hstop : other % 2 ≠ 0 := by omega
        simp [hstart, hstop, hother]
      · have hstop : other % 2 = 0 := by omega
        simp [hstart, hstop, hother]
  · have hnone : ¬(other = slot ∧ slot / 2 < v.length) := by
      rintro ⟨rfl, hlt⟩
      exact hgroup ⟨rfl, hlt⟩
    rw [if_neg hnone]
    refine slot?_congr ?_
    rw [mark_setSlot, if_neg hgroup]

/-- Entering a group keeps the slots that are not its own and not of the groups it forgets. -/
theorem slot?_enter_of_not_mem (hle : group ≤ lastNested) {slot : Nat}
    (h : slot ∉ List.range' (2 * group) (2 * (lastNested + 1) - 2 * group)) :
    (v.enter group lastNested pos).slot? slot = v.slot? slot := by
  rw [List.mem_range'_1] at h
  exact slot?_congr (mark_enter_of_outside (by omega) hle)

/-- Leaving a group keeps all slots but the one for its end. -/
theorem slot?_leave_of_ne {slot : Nat} (h : slot ≠ 2 * group + 1) :
    (v.leave group pos).slot? slot = v.slot? slot := by
  by_cases hgroup : slot / 2 = group
  · obtain rfl : slot = 2 * group := by omega
    rw [slot?_start, slot?_start, start?_mark_leave]
  · exact slot?_congr (mark_leave_of_ne hgroup)

/-- Setting the slots in which two records differ makes one record of them. -/
theorem foldl_setSlot {slots : List Nat} (hlen : w.length = v.length)
    (h : ∀ slot, slot ∉ slots → w.slot? slot = v.slot? slot) :
    slots.foldl (fun w slot => w.setSlot slot (v.slot? slot)) w = v := by
  induction slots generalizing w with
  | nil => exact ext_slot? hlen fun slot => h slot List.not_mem_nil
  | cons s slots ih =>
    refine ih (by rw [length_setSlot, hlen]) fun slot hslot => ?_
    rw [slot?_setSlot]
    split
    · rename_i hs
      rw [hs.1]
    · rename_i hs
      by_cases heq : slot = s
      · -- Beyond the end of the records there is nothing to set.
        have hle : w.length ≤ slot / 2 := by
          subst heq
          exact Nat.le_of_not_lt fun hlt => hs ⟨rfl, hlt⟩
        refine slot?_congr ?_
        rw [mark_of_length_le hle, mark_of_length_le (hlen ▸ hle)]
      · refine h slot fun hmem => ?_
        exact (List.mem_cons.1 hmem).elim heq hslot

/-! ### The record at the start of a match -/

/-- At the start of a match no group but group 0 is entered. -/
theorem mark_initial_of_pos (groups pos : Nat) (h : 0 < g) :
    (initial groups pos).mark g = .unset := by
  obtain ⟨g, rfl⟩ := Nat.exists_eq_succ_of_ne_zero (Nat.ne_of_gt h)
  rw [mark, initial, List.getD_cons_succ, List.getD_eq_getElem?_getD, List.getElem?_replicate]
  split <;> rfl

/-! ### Ranking -/

theorem mark_cons_zero (m : Mark) (v : Slots) : mark (m :: v) 0 = m := rfl

theorem mark_cons_succ (m : Mark) (v : Slots) (g : Nat) : mark (m :: v) (g + 1) = v.mark g := by
  rw [mark, List.getD_cons_succ, mark]

/-- Two records whose marks all tie are ranked equal. -/
theorem order_eq_of_forall (h : ∀ g, (v.mark g).order (w.mark g) = .eq) : v.order w = .eq := by
  induction v generalizing w with
  | nil => rfl
  | cons a v ih =>
    cases w with
    | nil => rfl
    | cons b w =>
      have hab : a.order b = .eq := h 0
      rw [order, hab]
      refine ih fun g => ?_
      have := h (g + 1)
      rwa [mark_cons_succ, mark_cons_succ] at this

/-- The first group on which two records do not tie decides their ranking. -/
theorem order_eq_of_first {o : Ordering} (hv : g < v.length) (hw : g < w.length)
    (htie : ∀ h < g, (v.mark h).order (w.mark h) = .eq) (ho : (v.mark g).order (w.mark g) = o)
    (hne : o ≠ .eq) : v.order w = o := by
  induction v generalizing w g with
  | nil => exact absurd hv (Nat.not_lt_zero g)
  | cons a v ih =>
    cases w with
    | nil => exact absurd hw (Nat.not_lt_zero g)
    | cons b w =>
      cases g with
      | zero =>
        -- The heads decide.
        rw [mark_cons_zero, mark_cons_zero] at ho
        rw [order, ho]
        cases o with
        | eq => exact absurd rfl hne
        | lt => rfl
        | gt => rfl
      | succ g =>
        -- The heads tie, so the tails decide.
        have hab : a.order b = .eq := htie 0 (Nat.succ_pos g)
        rw [order, hab]
        refine ih (Nat.lt_of_succ_lt_succ hv) (Nat.lt_of_succ_lt_succ hw) (fun h hh => ?_) ?_
        · have := htie (h + 1) (Nat.succ_lt_succ hh)
          rwa [mark_cons_succ, mark_cons_succ] at this
        · rwa [mark_cons_succ, mark_cons_succ] at ho

/-- Two records whose whole matches do not tie are ranked as these are. -/
theorem order_eq_of_zero {o : Ordering} (hv : 0 < v.length) (hw : 0 < w.length)
    (ho : (v.mark 0).order (w.mark 0) = o) (hne : o ≠ .eq) : v.order w = o :=
  order_eq_of_first hv hw (fun h hh => absurd hh (Nat.not_lt_zero h)) ho hne

end Slots

end PosixRegex
