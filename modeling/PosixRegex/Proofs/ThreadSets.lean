import Mathlib.Data.List.Nodup
import Mathlib.Data.List.Perm.Subperm
import Mathlib.Data.List.Range
import Mathlib.Logic.Function.Basic
import PosixRegex.Proofs.Worklist

/-!
# Sets of threads through a simulation

A simulation has two sets of threads, adds states to them, exchanges them and clears them, and never
looks at what is left in `sparse`. That this does no harm is said by comparing the sets with a
ledger that keeps nothing of the kind: for each set the states that were added since it was last
cleared, in order, and the record that was last given to each state.

- `ThreadSet.Accords`: a set of threads accords with its ledger.
- `ThreadSet.Change.accords_apply`: each change that may be made is made to the ledger too.
- `ThreadSet.Accords.nodup`, `ThreadSet.Accords.length_le`: no state is listed twice, so that there
  is room for all.
- `ThreadSet.foldl_apply_spec`: the sets after any changes.
-/

namespace PosixRegex.Automaton.ThreadSet

/-- The two sets of threads of a simulation. -/
inductive Side where
  /-- The threads at the present position. -/
  | current
  /-- The threads at the next position. -/
  | spare
deriving DecidableEq

/-- The other one of the two sets. -/
def Side.other : Side → Side
  | current => spare
  | spare => current

/-- What a set of threads is to hold. -/
structure Ledger where
  /-- The states that were added since the set was last cleared, in order. -/
  arrived : List Nat
  /-- The record that was last given to each state. -/
  given : Nat → Slots

/-- The ledger of a set to which nothing has happened: no group of any record is entered. -/
def Ledger.empty (groups : Nat) : Ledger := ⟨[], fun _ => List.replicate (groups + 1) .unset⟩

/-- A change to the two sets. -/
inductive Change where
  /-- Forgets the states of a set. -/
  | clear (side : Side)
  /-- Exchanges the two sets. -/
  | swap
  /-- Adds a state to a set. -/
  | insert (side : Side) (id : Nat)
  /-- Gives a state of a set a record. -/
  | setRecord (side : Side) (id : Nat) (v : Slots)

namespace Change

/-- The sets after a change. -/
def apply (ts : Side → ThreadSet) : Change → Side → ThreadSet
  | clear side => Function.update ts side (ts side).clear
  | swap => ts ∘ Side.other
  | insert side id => Function.update ts side ((ts side).insert id)
  | setRecord side id v => Function.update ts side ((ts side).setRecord id v)

/-- The ledgers after a change. -/
def note (ls : Side → Ledger) : Change → Side → Ledger
  | clear side => Function.update ls side { ls side with arrived := [] }
  | swap => ls ∘ Side.other
  | insert side id => Function.update ls side { ls side with arrived := (ls side).arrived ++ [id] }
  | setRecord side id v =>
    Function.update ls side { ls side with given := Function.update (ls side).given id v }

/-- A change may be made to sets for `states` states and records of `groups` groups: only a state
that does not belong to a set yet is added to it, and a record has a mark for the whole match and
for each group. -/
def Permitted (states groups : Nat) (ts : Side → ThreadSet) : Change → Prop
  | insert side id => id < states ∧ (ts side).contains id = false
  | setRecord _ _ v => v.length = groups + 1
  | clear _ | swap => True

instance (states groups : Nat) (ts : Side → ThreadSet) : DecidablePred (Permitted states groups ts)
  | insert _ _ => inferInstanceAs (Decidable (_ ∧ _))
  | setRecord _ _ _ => inferInstanceAs (Decidable (_ = _))
  | clear _ | swap => inferInstanceAs (Decidable True)

/-- Changes may be made one after the other. -/
def AllPermitted (states groups : Nat) (ts : Side → ThreadSet) : List Change → Prop
  | [] => True
  | change :: changes =>
    change.Permitted states groups ts ∧ AllPermitted states groups (apply ts change) changes

instance decidableAllPermitted (states groups : Nat) (ts : Side → ThreadSet) :
    DecidablePred (AllPermitted states groups ts)
  | [] => inferInstanceAs (Decidable True)
  | change :: changes =>
    have := decidableAllPermitted states groups (apply ts change) changes
    inferInstanceAs (Decidable (_ ∧ _))

end Change

/-- A set of threads for `states` states and records of `groups` groups accords with its ledger. -/
structure Accords (states groups : Nat) (t : ThreadSet) (l : Ledger) : Prop where
  /-- Each state in `dense` is known to be there. -/
  wellformed : t.Wellformed states groups
  /-- The states stand in the order of their arrival. -/
  dense_eq : t.dense.toList = l.arrived
  /-- Each state has the record that it was given. -/
  record_eq : ∀ id < states, t.record id = l.given id

variable {states groups id : Nat} {t : ThreadSet} {l : Ledger} {v : Slots}

namespace Accords

theorem empty (states groups : Nat) :
    Accords states groups (.empty states (2 * (groups + 1))) (.empty groups) where
  wellformed := wellformed_empty states groups
  dense_eq := rfl
  record_eq id hid := by
    -- The window of a state lies within the row, where no slot holds anything.
    have hwindow := (wellformed_empty states groups).window_le hid
    have hwidth : (id + 1) * (2 * (groups + 1)) - id * (2 * (groups + 1)) = 2 * (groups + 1) := by
      rw [Nat.succ_mul, Nat.add_sub_cancel_left]
    simp only [ThreadSet.empty, Array.size_replicate] at hwindow
    rw [record, ThreadSet.empty, Array.extract_replicate, Nat.min_eq_left hwindow, hwidth,
      Array.toList_replicate, Slots.ofRow_replicate]
    rfl

theorem clear (h : Accords states groups t l) :
    Accords states groups t.clear { l with arrived := [] } :=
  ⟨h.wellformed.clear, rfl, h.record_eq⟩

theorem insert (h : Accords states groups t l) (hid : id < states) (hnot : t.contains id = false) :
    Accords states groups (t.insert id) { l with arrived := l.arrived ++ [id] } where
  wellformed := h.wellformed.insert hid hnot
  dense_eq := by rw [ThreadSet.insert, Array.toList_push, h.dense_eq]
  record_eq := h.record_eq

theorem setRecord (h : Accords states groups t l) (id : Nat) (hv : v.length = groups + 1) :
    Accords states groups (t.setRecord id v) { l with given := Function.update l.given id v } where
  wellformed := h.wellformed.setRecord id v
  dense_eq := h.dense_eq
  record_eq other hother := by
    dsimp only
    by_cases hid : other = id
    · subst hid
      rw [Function.update_self, h.wellformed.record_setRecord_self hother hv]
    · rw [Function.update_of_ne hid, record_setRecord_of_ne t (Ne.symm hid),
        h.record_eq other hother]

/-- A change to one of the sets leaves the other one alone. -/
theorem update {ts : Side → ThreadSet} {ls : Side → Ledger}
    (h : ∀ side, Accords states groups (ts side) (ls side)) (h' : Accords states groups t l)
    (changed side : Side) : Accords states groups (Function.update ts changed t side)
      (Function.update ls changed l side) := by
  rw [Function.update_apply, Function.update_apply]
  split
  · exact h'
  · exact h side

/-- The states in the set are those that have arrived. -/
theorem contains_iff (h : Accords states groups t l) : t.contains id = true ↔ id ∈ l.arrived := by
  rw [← h.wellformed.mem_dense_iff, ← h.dense_eq, Array.mem_toList_iff]

/-- No state is listed twice, since each has one place. -/
theorem nodup (h : Accords states groups t l) : l.arrived.Nodup := by
  rw [← h.dense_eq, List.nodup_iff_getElem?_ne_getElem?]
  intro i j hij hj heq
  rw [Array.getElem?_toList, Array.getElem?_toList] at heq
  have hplace : t.dense[j]? = some t.dense[j] := Array.getElem?_eq_getElem hj
  have hi := h.wellformed.sparse_of_dense (heq.trans hplace)
  rw [h.wellformed.sparse_of_dense hplace] at hi
  exact Nat.ne_of_lt hij (Option.some.inj hi).symm

/-- There are no more states in the set than there are states. -/
theorem length_le (h : Accords states groups t l) : l.arrived.length ≤ states := by
  have hsubset : l.arrived ⊆ List.range states := fun id hid =>
    List.mem_range.2 (h.wellformed.lt_of_contains (h.contains_iff.2 hid))
  have hlength := (h.nodup.subperm hsubset).length_le
  rwa [List.length_range] at hlength

end Accords

namespace Change

variable {ts : Side → ThreadSet} {ls : Side → Ledger}

/-- A change to the sets is one to their ledgers. -/
theorem accords_apply (h : ∀ side, Accords states groups (ts side) (ls side)) {change : Change}
    (hchange : change.Permitted states groups ts) (side : Side) :
    Accords states groups (apply ts change side) (note ls change side) := by
  cases change with
  | clear changed => exact .update h (h changed).clear changed side
  | swap => exact h side.other
  | insert changed id => exact .update h ((h changed).insert hchange.1 hchange.2) changed side
  | setRecord changed id v => exact .update h ((h changed).setRecord id hchange) changed side

/-- Changes to the sets are changes to their ledgers. -/
theorem accords_foldl_apply (h : ∀ side, Accords states groups (ts side) (ls side))
    {changes : List Change} (hchanges : AllPermitted states groups ts changes) (side : Side) :
    Accords states groups (changes.foldl apply ts side) (changes.foldl note ls side) := by
  induction changes generalizing ts ls with
  | nil => exact h side
  | cons change changes ih => exact ih (accords_apply h hchanges.1) hchanges.2

end Change

/-- The two sets of threads are sets, whatever is left in `sparse` and `slots` from before. Let
`changes` be made to empty sets for `states` states, adding to a set only states that it does not
contain yet. Then `contains` holds of the states that were added to the set of a `side` since it was
last cleared; `dense` lists them once each, in the order in which they were added, so that its size
is at most `states`; and the `record` of each state is the one that it was last given. The records
stand in windows of one row, and `setRecord` leaves those of all other states alone. -/
theorem foldl_apply_spec {changes : List Change}
    (h : Change.AllPermitted states groups (fun _ => .empty states (2 * (groups + 1))) changes)
    (side : Side) :
    let t := changes.foldl Change.apply (fun _ => .empty states (2 * (groups + 1))) side
    let l := changes.foldl Change.note (fun _ => .empty groups) side
    (∀ id, t.contains id = true ↔ id ∈ l.arrived) ∧ t.dense.toList = l.arrived ∧
      l.arrived.Nodup ∧ t.dense.size ≤ states ∧ (∀ id < states, t.record id = l.given id) ∧
      ∀ id other v, id ≠ other → (t.setRecord id v).record other = t.record other := by
  intro t l
  have haccords : Accords states groups t l :=
    Change.accords_foldl_apply (fun _ => .empty states groups) h side
  refine ⟨fun id => haccords.contains_iff, haccords.dense_eq, haccords.nodup, ?_,
    haccords.record_eq, fun id other v hne => record_setRecord_of_ne t hne v⟩
  rw [← Array.length_toList, haccords.dense_eq]
  exact haccords.length_le

/-- One set holds the states 2 and 0 when it is exchanged, comes back and is cleared. Once the state
1 is added it stands where the place of 2 points to, and 2 does not belong to the set. The record of
1 does not touch the one that 2 had. -/
theorem foldl_apply_spec_stale :
    let v : Slots := [.opened 4, .unset]
    let w : Slots := [⟨some 0, some 5⟩, ⟨some 1, some 2⟩]
    let changes : List Change := [.insert .current 2, .setRecord .current 2 v, .insert .current 0,
      .swap, .insert .current 2, .swap, .clear .current, .insert .current 1,
      .setRecord .current 1 w]
    let ts := changes.foldl Change.apply (fun _ => .empty 3 4)
    Change.AllPermitted 3 1 (fun _ => .empty 3 4) changes ∧
      (ts .current).sparse[2]? = (ts .current).sparse[1]? ∧ (ts .current).contains 2 = false ∧
      (ts .current).dense.toList = [1] ∧ (ts .spare).contains 2 = true ∧
      (ts .current).record 1 = w ∧ (ts .current).record 2 = v := by
  intro v w changes ts
  have hpermitted : Change.AllPermitted 3 1 (fun _ => .empty 3 4) changes := by decide
  obtain ⟨hcurrent, hdense, -, -, hrecord, -⟩ := foldl_apply_spec hpermitted .current
  obtain ⟨hspare, -⟩ := foldl_apply_spec hpermitted .spare
  refine ⟨hpermitted, by decide, ?_, hdense, (hspare 2).2 (by decide), hrecord 1 (by decide),
    hrecord 2 (by decide)⟩
  rw [← Bool.not_eq_true, hcurrent]
  decide

end PosixRegex.Automaton.ThreadSet
