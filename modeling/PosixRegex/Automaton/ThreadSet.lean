import PosixRegex.Slots

/-!
# Sets of threads

The threads of a simulation at one position: a set of states in the order of their arrival, and for
each of them the record of the thread that reached it.

A state belongs to the set when `sparse` sends it to a place in `dense` that holds the state. So
forgetting all states needs no more than an empty `dense`: what is left in `sparse` does no harm.

The records stand in one row of slots, `stride` of them for each state. The record of `id` is the
window from `id * stride` to `(id + 1) * stride`.
-/

namespace PosixRegex.Automaton

/-- Threads by the state that they are in. -/
structure ThreadSet where
  /-- The states in the set, in the order of their arrival. -/
  dense : Array Nat
  /-- For each state, its place in `dense` when it belongs to the set, and any number otherwise. -/
  sparse : Array Nat
  /-- The number of slots of one record. -/
  stride : Nat
  /-- The slots of the records of all states; those of a state outside the set tell nothing. -/
  slots : Array (Option Nat)
deriving Repr, Inhabited

namespace ThreadSet

/-- The empty set for an automaton with `states` states and records of `stride` slots. -/
def empty (states stride : Nat) : ThreadSet where
  dense := #[]
  sparse := Array.replicate states 0
  stride := stride
  slots := Array.replicate (states * stride) none

/-- Whether a state belongs to the set. -/
def contains (t : ThreadSet) (id : Nat) : Bool :=
  match t.sparse[id]? with
  | some place => t.dense[place]? == some id
  | none => false

/-- Whether the set has no states. -/
def isEmpty (t : ThreadSet) : Bool := t.dense.isEmpty

/-- Adds a state that does not belong to the set yet. -/
def insert (t : ThreadSet) (id : Nat) : ThreadSet :=
  { t with dense := t.dense.push id, sparse := t.sparse.setIfInBounds id t.dense.size }

/-- Writes values into a row of slots, the first one to `place`. -/
def overwrite (slots : Array (Option Nat)) (place : Nat) : List (Option Nat) → Array (Option Nat)
  | [] => slots
  | value :: values => overwrite (slots.setIfInBounds place value) (place + 1) values

/-- The record of a state. -/
def record (t : ThreadSet) (id : Nat) : Slots :=
  .ofRow (t.slots.extract (id * t.stride) ((id + 1) * t.stride)).toList

/-- Gives a state a new record. -/
def setRecord (t : ThreadSet) (id : Nat) (v : Slots) : ThreadSet :=
  { t with slots := overwrite t.slots (id * t.stride) (v.toRow.take t.stride) }

/-- Forgets all states. -/
def clear (t : ThreadSet) : ThreadSet := { t with dense := #[] }

@[simp]
theorem contains_empty (states stride id : Nat) : (empty states stride).contains id = false := by
  unfold contains empty
  split <;> simp

@[simp]
theorem contains_clear (t : ThreadSet) (id : Nat) : t.clear.contains id = false := by
  unfold contains clear
  split <;> simp

/-- A new record leaves the set of states as it is. -/
@[simp]
theorem contains_setRecord (t : ThreadSet) (id other : Nat) (v : Slots) :
    (t.setRecord id v).contains other = t.contains other := rfl

/-! ### Windows of the row -/

@[simp]
theorem size_overwrite (slots : Array (Option Nat)) (place : Nat) (values : List (Option Nat)) :
    (overwrite slots place values).size = slots.size := by
  induction values generalizing slots place with
  | nil => rfl
  | cons value values ih => rw [overwrite, ih, Array.size_setIfInBounds]

/-- The values that are written stand in the row from `place` on, and the others are kept. -/
theorem getElem?_overwrite (slots : Array (Option Nat)) (place : Nat) (values : List (Option Nat))
    (i : Nat) :
    (overwrite slots place values)[i]? =
      if place ≤ i ∧ i < place + values.length ∧ i < slots.size then values[i - place]?
      else slots[i]? := by
  induction values generalizing slots place with
  | nil => rw [overwrite, if_neg (by simp only [List.length_nil]; omega)]
  | cons value values ih =>
    rw [overwrite, ih, Array.size_setIfInBounds, Array.getElem?_setIfInBounds, List.length_cons]
    -- The first value stands at `place`, and the others behind it.
    by_cases hplace : place = i
    · subst hplace
      rw [if_neg (by omega), if_pos rfl, Nat.sub_self]
      split
      · rw [if_pos (by omega), List.getElem?_cons_zero]
      · rw [if_neg (by omega), Array.getElem?_eq_none (by omega)]
    · rw [if_neg hplace]
      split
      · rw [if_pos (by omega), show i - place = i - (place + 1) + 1 by omega,
          List.getElem?_cons_succ]
      · rw [if_neg (by omega)]

/-- A place in the windows of two states is in one window. -/
theorem eq_of_mem_windows {stride id other i : Nat} (hid : id * stride ≤ i)
    (hid' : i < (id + 1) * stride) (hother : other * stride ≤ i)
    (hother' : i < (other + 1) * stride) : id = other := by
  have hlt := Nat.lt_of_mul_lt_mul_right (Nat.lt_of_le_of_lt hid hother')
  have hlt' := Nat.lt_of_mul_lt_mul_right (Nat.lt_of_le_of_lt hother hid')
  omega

/-- A new record leaves the records of other states as they are. -/
theorem record_setRecord_of_ne (t : ThreadSet) {id other : Nat} (h : id ≠ other) (v : Slots) :
    (t.setRecord id v).record other = t.record other := by
  simp only [record, setRecord]
  congr 2
  refine Array.ext_getElem? fun i => ?_
  rw [Array.getElem?_extract, Array.getElem?_extract, size_overwrite, getElem?_overwrite]
  -- What is written stays in the window of `id`, and what is read in that of `other`.
  split
  · rename_i hi
    rw [if_neg]
    rintro ⟨hlo, hhi, -⟩
    rw [List.length_take] at hhi
    have hwindow : id * t.stride + t.stride = (id + 1) * t.stride := (Nat.succ_mul _ _).symm
    exact h (eq_of_mem_windows hlo (by omega) (Nat.le_add_right _ i) (by omega))
  · rfl

/-- A new record is read back when it fills the window of its state. -/
theorem record_setRecord_self (t : ThreadSet) {id : Nat} {v : Slots}
    (hv : 2 * v.length = t.stride) (hid : (id + 1) * t.stride ≤ t.slots.size) :
    (t.setRecord id v).record id = v := by
  have hwindow : id * t.stride + t.stride = (id + 1) * t.stride := (Nat.succ_mul _ _).symm
  have hlen : v.toRow.length = t.stride := by rw [Slots.length_toRow, hv]
  simp only [record, setRecord]
  rw [List.take_of_length_le (Nat.le_of_eq hlen)]
  suffices hrow : ((overwrite t.slots (id * t.stride) v.toRow).extract (id * t.stride)
      ((id + 1) * t.stride)).toList = v.toRow by
    rw [hrow, Slots.ofRow_toRow]
  refine List.ext_getElem? fun i => ?_
  rw [Array.getElem?_toList, Array.getElem?_extract, size_overwrite, getElem?_overwrite]
  split
  · rw [if_pos (by omega), Nat.add_sub_cancel_left]
  · rw [List.getElem?_eq_none (by omega)]

end ThreadSet

end PosixRegex.Automaton
