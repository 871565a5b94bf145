/-!
# Recorded spans

A search records the span of each group, and of the whole match as group 0. While the search runs a
span may be open: its start is known and its end is not.

`Slots.order` ranks two records. Groups are compared in the order of their numbers, and for each
group an earlier start wins and then a later end. What one of the two records lacks does not decide.
-/

namespace PosixRegex

/-- What is known of the span of one group. -/
structure Mark where
  /-- The position where the group was entered. -/
  start? : Option Nat
  /-- The position where the group was left. -/
  stop? : Option Nat
deriving DecidableEq, Repr, Inhabited

namespace Mark

/-- The mark of a group that was not entered. -/
def unset : Mark := ⟨none, none⟩

/-- The mark of a group that is entered at a position. -/
def opened (pos : Nat) : Mark := ⟨some pos, none⟩

/-- A mark whose group is left at a position. -/
def closed (m : Mark) (pos : Nat) : Mark := { m with stop? := some pos }

/-- The span of a group that was entered and left. -/
def span? (m : Mark) : Option (Nat × Nat) :=
  match m.start?, m.stop? with
  | some start, some stop => some (start, stop)
  | _, _ => none

/-- Compares two positions; one that is missing does not decide. -/
def comparePositions : Option Nat → Option Nat → Ordering
  | some a, some b => compare a b
  | _, _ => .eq

/-- Ranks two marks of one group: the greater has the earlier start, or at equal starts the later
end. -/
def order (a b : Mark) : Ordering :=
  (comparePositions b.start? a.start?).then (comparePositions a.stop? b.stop?)

end Mark

/-- The marks of all groups, by number. -/
abbrev Slots := List Mark

namespace Slots

/-- The record at the start of a match: group 0 is open, and the other groups are unset. -/
def initial (groups pos : Nat) : Slots := .opened pos :: List.replicate groups .unset

/-- Forgets the groups from `first` to `last`. -/
def forget (v : Slots) (first last : Nat) : Slots :=
  v.mapIdx fun i m => if first ≤ i ∧ i ≤ last then .unset else m

/-- Leaves a group. -/
def leave (v : Slots) (group pos : Nat) : Slots := v.modify group (·.closed pos)

/-- The mark of a group. -/
def mark (v : Slots) (group : Nat) : Mark := v.getD group .unset

/-- The span of a group that was entered and left. -/
def span? (v : Slots) (group : Nat) : Option (Nat × Nat) := (v.mark group).span?

/-- What one slot records. The slots are numbered through, two for each group: its start, and behind
it its end. -/
def slot? (v : Slots) (slot : Nat) : Option Nat :=
  if slot % 2 = 0 then (v.mark (slot / 2)).start? else (v.mark (slot / 2)).stop?

/-- Sets one slot. -/
def setSlot (v : Slots) (slot : Nat) (value : Option Nat) : Slots :=
  v.modify (slot / 2) fun m =>
    if slot % 2 = 0 then { m with start? := value } else { m with stop? := value }

/-- Enters a group: forgets it and the groups after it up to `lastNested`, and notes where it
starts. -/
def enter (v : Slots) (group lastNested pos : Nat) : Slots :=
  (v.forget group lastNested).setSlot (2 * group) (some pos)

/-- The slots of all groups in a row, two for each. -/
def toRow (v : Slots) : List (Option Nat) := v.flatMap fun m => [m.start?, m.stop?]

/-- The record whose slots stand in a row. -/
def ofRow : List (Option Nat) → Slots
  | start? :: stop? :: row => ⟨start?, stop?⟩ :: ofRow row
  | _ => []

/-- The start of the whole match. -/
def start? (v : Slots) : Option Nat := (v.mark 0).start?

/-- Ranks two records; the greater one is preferred. -/
def order : Slots → Slots → Ordering
  | a :: v, b :: w =>
    match a.order b with
    | .eq => order v w
    | decided => decided
  | _, _ => .eq

/-- Whether a record is preferred to another one. -/
def beats (v w : Slots) : Bool := order v w == .gt

/-- The number of groups that were entered. -/
def entered (v : Slots) : Nat := v.countP (·.start?.isSome)

@[simp]
theorem length_initial (groups pos : Nat) : (initial groups pos).length = groups + 1 := by
  simp [initial]

@[simp]
theorem length_forget (v : Slots) (first last : Nat) : (v.forget first last).length = v.length := by
  simp [forget]

@[simp]
theorem length_leave (v : Slots) (group pos : Nat) : (v.leave group pos).length = v.length := by
  simp [leave]

@[simp]
theorem length_setSlot (v : Slots) (slot : Nat) (value : Option Nat) :
    (v.setSlot slot value).length = v.length := by
  simp [setSlot]

@[simp]
theorem length_enter (v : Slots) (group lastNested pos : Nat) :
    (v.enter group lastNested pos).length = v.length := by
  simp [enter]

/-! ### Records as rows of slots -/

@[simp]
theorem length_toRow (v : Slots) : v.toRow.length = 2 * v.length := by
  induction v with
  | nil => rfl
  | cons m v ih =>
    rw [toRow, List.flatMap_cons, List.length_append, ← toRow, ih]
    simp only [List.length_cons, List.length_nil]
    omega

/-- A record is read back from its row. -/
@[simp]
theorem ofRow_toRow (v : Slots) : ofRow v.toRow = v := by
  induction v with
  | nil => rfl
  | cons m v ih => exact congrArg (m :: ·) ih

/-- In a row of slots that hold nothing no group is entered. -/
theorem ofRow_replicate (groups : Nat) :
    ofRow (List.replicate (2 * groups) none) = List.replicate groups .unset := by
  rw [← ofRow_toRow (List.replicate groups .unset), toRow]
  refine congrArg ofRow ?_
  induction groups with
  | zero => rfl
  | succ groups ih => exact congrArg (fun row => none :: none :: row) ih

/-- A row has the slots of half as many groups. -/
theorem length_ofRow : ∀ row : List (Option Nat), (ofRow row).length = row.length / 2
  | [] => rfl
  | [_] => by simp [ofRow]
  | _ :: _ :: row => by
    simp only [ofRow, List.length_cons, length_ofRow row]
    omega

end Slots

end PosixRegex
