import PosixRegex.Expr.Candidates
import PosixRegex.Proofs.Slots

/-!
# Records of a text with bytes put in front

When bytes are put in front of a text, every position in it moves on by their number. All that is
done with a record commutes with moving its positions: a search compares positions and counts marks,
but never asks for a position itself.

- `Slots.shift`: a record with all positions moved on.
- `Slots.shift_enter`, `Slots.shift_leave`: entering and leaving a group.
- `Slots.order_shift`, `Slots.entered_shift`: what decides between two records.
- `Candidate.shift`: a candidate with all positions moved on.
-/

namespace PosixRegex

namespace Mark

/-- A mark with its positions moved on. -/
def shift (d : Nat) (m : Mark) : Mark := ⟨m.start?.map (· + d), m.stop?.map (· + d)⟩

@[simp]
theorem shift_unset (d : Nat) : unset.shift d = unset := rfl

@[simp]
theorem shift_opened (d pos : Nat) : (opened pos).shift d = opened (pos + d) := rfl

@[simp]
theorem shift_closed (d : Nat) (m : Mark) (pos : Nat) :
    (m.closed pos).shift d = (m.shift d).closed (pos + d) := rfl

@[simp]
theorem shift_zero (m : Mark) : m.shift 0 = m := by
  simp [shift]

theorem shift_injective (d : Nat) : Function.Injective (shift d) := by
  have hadd : Function.Injective (Option.map (· + d)) :=
    Option.map_injective fun a b h => Nat.add_right_cancel h
  rintro ⟨start, stop⟩ ⟨start', stop'⟩ h
  obtain ⟨hstart, hstop⟩ := Mark.mk.inj h
  exact congr (congrArg Mark.mk (hadd hstart)) (hadd hstop)

theorem comparePositions_shift (d : Nat) (a b : Option Nat) :
    comparePositions (a.map (· + d)) (b.map (· + d)) = comparePositions a b := by
  cases a <;> cases b <;> simp [comparePositions, Nat.compare_eq_ite_lt]

@[simp]
theorem order_shift (d : Nat) (m n : Mark) : (m.shift d).order (n.shift d) = m.order n := by
  simp only [order, shift, comparePositions_shift]

theorem span?_shift (d : Nat) (m : Mark) :
    (m.shift d).span? = m.span?.map fun (start, stop) => (start + d, stop + d) := by
  obtain ⟨start, stop⟩ := m
  cases start <;> cases stop <;> rfl

end Mark

namespace Slots

variable {v w : Slots} {d : Nat}

/-- A record with all positions moved on. -/
def shift (d : Nat) (v : Slots) : Slots := v.map (·.shift d)

@[simp]
theorem length_shift (d : Nat) (v : Slots) : (v.shift d).length = v.length := by
  simp [shift]

@[simp]
theorem shift_zero (v : Slots) : v.shift 0 = v := by
  simp [shift]

theorem shift_injective (d : Nat) : Function.Injective (shift d) :=
  fun _ _ h => List.map_inj_right (fun _ _ h => Mark.shift_injective d h) |>.1 h

@[simp]
theorem mark_shift (d : Nat) (v : Slots) (g : Nat) : (v.shift d).mark g = (v.mark g).shift d := by
  rw [mark, mark, shift, List.getD_eq_getElem?_getD, List.getElem?_map,
    List.getD_eq_getElem?_getD]
  cases v[g]? <;> rfl

@[simp]
theorem start?_shift (d : Nat) (v : Slots) : (v.shift d).start? = v.start?.map (· + d) := by
  rw [start?, mark_shift, Mark.shift, start?]

theorem span?_shift (d : Nat) (v : Slots) (g : Nat) :
    (v.shift d).span? g = (v.span? g).map fun (start, stop) => (start + d, stop + d) := by
  rw [span?, mark_shift, Mark.span?_shift, span?]

@[simp]
theorem shift_initial (d groups pos : Nat) :
    (initial groups pos).shift d = initial groups (pos + d) := by
  simp [shift, initial]

@[simp]
theorem shift_forget (d : Nat) (v : Slots) (first last : Nat) :
    (v.forget first last).shift d = (v.shift d).forget first last := by
  refine ext_mark (by simp) fun g => ?_
  simp only [mark_shift, mark_forget, apply_ite (Mark.shift d), Mark.shift_unset]

/-- Entering a group further on. -/
@[simp]
theorem shift_enter (d : Nat) (v : Slots) (group lastNested pos : Nat) :
    (v.enter group lastNested pos).shift d = (v.shift d).enter group lastNested (pos + d) := by
  refine ext_mark (by simp) fun g => ?_
  rw [mark_shift, mark_enter, mark_enter, ← shift_forget, length_shift, mark_shift]
  split <;> rfl

/-- Leaving a group further on. -/
@[simp]
theorem shift_leave (d : Nat) (v : Slots) (group pos : Nat) :
    (v.leave group pos).shift d = (v.shift d).leave group (pos + d) := by
  refine ext_mark (by simp) fun g => ?_
  by_cases hg : g = group
  · subst hg
    by_cases hlen : g < v.length
    · rw [mark_shift, mark_leave_self hlen, mark_leave_self (by simpa using hlen), mark_shift,
        Mark.shift_closed]
    · have hle : v.length ≤ g := Nat.le_of_not_lt hlen
      rw [mark_of_length_le (by simpa using hle), mark_of_length_le (by simpa using hle)]
  · rw [mark_shift, mark_leave_of_ne hg, mark_leave_of_ne hg, mark_shift]

/-- Two records are ranked as they are further on. -/
@[simp]
theorem order_shift (d : Nat) (v w : Slots) : (v.shift d).order (w.shift d) = v.order w := by
  induction v generalizing w with
  | nil => rfl
  | cons a v ih =>
    cases w with
    | nil => rfl
    | cons b w =>
      show order (a.shift d :: shift d v) (b.shift d :: shift d w) = order (a :: v) (b :: w)
      rw [order, order, Mark.order_shift, ih]

@[simp]
theorem beats_shift (d : Nat) (v w : Slots) : (v.shift d).beats (w.shift d) = v.beats w := by
  rw [beats, order_shift, beats]

/-- A record beats the one that is known, if any, as it does further on. -/
@[simp]
theorem all_beats_shift (d : Nat) (best : Option Slots) (v : Slots) :
    (best.map (·.shift d)).all (v.shift d).beats = best.all v.beats := by
  cases best <;> simp

/-- As many groups are entered. -/
@[simp]
theorem entered_shift (d : Nat) (v : Slots) : (v.shift d).entered = v.entered := by
  rw [entered, shift, List.countP_map, entered]
  congr 1
  ext m
  simp [Mark.shift]

end Slots

namespace Candidate

variable {c : Candidate}

/-- A candidate with all positions moved on. -/
def shift (d : Nat) (c : Candidate) : Candidate := ⟨c.stop + d, c.slots.shift d⟩

theorem shift_injective (d : Nat) : Function.Injective (shift d) := by
  rintro ⟨stop, v⟩ ⟨stop', v'⟩ h
  obtain ⟨hstop, hslots⟩ := Candidate.mk.inj h
  exact congr (congrArg Candidate.mk (Nat.add_right_cancel hstop)) (Slots.shift_injective d hslots)

/-- Whether two candidates end at the same position. -/
theorem shift_stop_beq (d : Nat) (c e : Candidate) :
    ((c.shift d).stop == (e.shift d).stop) = (c.stop == e.stop) := by
  simp [shift, Bool.beq_eq_decide_eq]

end Candidate

end PosixRegex
