import PosixRegex.Proofs.Ranking
import PosixRegex.Proofs.Scope

/-!
# Records along a path

Every thread on a path has a record that the scope of its state admits: it has a mark for each
group, the groups around the state are open, no group beyond the scope has been entered, and a group
that has been entered lies in groups that have been entered too.

- `Scope.Admits`: the records that a scope admits.
- `Automaton.Path.admitted`: every record on a path from the start of a match is one of them.
- `Automaton.order_effect_ne_lt`: of two threads in one state the one that is not beaten is not
  beaten after the next move either.
- `Automaton.Path.start?_eq`: it tells where the match starts, and no group in it starts later than
  its thread has come.
-/

namespace PosixRegex

/-- The records that the scope of a state admits. -/
structure Scope.Admits (spans : Nat → Nat → Prop) (groups : Nat) (here : Scope) (v : Slots) :
    Prop where
  /-- There is a mark for each group. -/
  length_eq : v.length = groups + 1
  /-- The groups after the bound have not been entered. -/
  beyond : ∀ g, here.bound < g → v.mark g = .unset
  /-- The groups around the state have been entered and not been left. -/
  opened : ∀ g ∈ here.opened, (v.mark g).start?.isSome ∧ (v.mark g).stop? = none
  /-- A group that has been entered lies in groups that have been entered. -/
  nested : ∀ g l, spans g l → ∀ h, g < h → h ≤ l → (v.mark h).start?.isSome →
    (v.mark g).start?.isSome
  /-- A group that has not been entered has not been left. -/
  unset : ∀ g, (v.mark g).start? = none → v.mark g = .unset

namespace Scope.Admits

variable {spans : Nat → Nat → Prop} {groups pos group last : Nat} {opened outer : List Nat}
  {bound bound' : Nat} {v : Slots}

/-- A scope with a larger bound admits more. -/
theorem mono (h : Scope.Admits spans groups ⟨opened, bound⟩ v) (hle : bound ≤ bound') :
    Scope.Admits spans groups ⟨opened, bound'⟩ v :=
  { h with beyond := fun g hg => h.beyond g (Nat.lt_of_le_of_lt hle hg) }

/-- The record at the start of a match. -/
theorem initial (spans : Nat → Nat → Prop) (groups pos bound : Nat) :
    Scope.Admits spans groups ⟨[0], bound⟩ (Slots.initial groups pos) where
  length_eq := Slots.length_initial groups pos
  beyond g hg := Slots.mark_initial_of_pos groups pos (Nat.zero_lt_of_lt hg)
  opened g hg := by
    rw [List.mem_singleton.1 hg]
    exact ⟨rfl, rfl⟩
  nested g l _ h hlt _ hset := by
    rw [Slots.mark_initial_of_pos groups pos (Nat.zero_lt_of_lt hlt)] at hset
    exact absurd hset Bool.false_ne_true
  unset g hg := by
    cases g with
    | zero => exact absurd hg nofun
    | succ g => exact Slots.mark_initial_of_pos groups pos (Nat.succ_pos g)

/-- Entering a group. -/
theorem enter (h : Scope.Admits spans groups ⟨opened, bound⟩ v) (hspan : spans group last)
    (hgroup : group ≤ groups) (hlast : group ≤ last) (hbound : bound ≤ last)
    (hopened : ∀ g ∈ opened, g < group)
    (haround : ∀ g l, spans g l → g < group → group ≤ l → g ∈ opened) (hbound' : group ≤ bound') :
    Scope.Admits spans groups ⟨group :: opened, bound'⟩ (v.enter group last pos) := by
  have hlt : group < v.length := by rw [h.length_eq]; exact Nat.lt_succ_of_le hgroup
  have hself : (v.enter group last pos).mark group = .opened pos :=
    Slots.mark_enter_self hlast hlt
  have hbelow {g : Nat} (hg : g < group) : (v.enter group last pos).mark g = v.mark g :=
    Slots.mark_enter_of_outside (.inl hg) hlast
  -- Nothing beyond the bound has been entered, and what is inside is forgotten.
  have habove {g : Nat} (hg : group < g) : (v.enter group last pos).mark g = .unset := by
    by_cases hin : g ≤ last
    · exact Slots.mark_enter_inner hg hin
    · rw [Slots.mark_enter_of_outside (.inr (Nat.lt_of_not_le hin)) hlast]
      exact h.beyond g (Nat.lt_of_le_of_lt hbound (Nat.lt_of_not_le hin))
  refine ⟨by rw [Slots.length_enter, h.length_eq], fun g hg => ?_, fun g hg => ?_, ?_,
    fun g hg => ?_⟩
  · exact habove (Nat.lt_of_le_of_lt hbound' hg)
  · rcases List.mem_cons.1 hg with rfl | hg
    · rw [hself]
      exact ⟨rfl, rfl⟩
    · rw [hbelow (hopened g hg)]
      exact h.opened g hg
  · -- A group with an entered one in it reaches beyond the new one, lies before it or is open.
    intro g l hgl k hlo hhi hset
    rcases Nat.lt_trichotomy k group with hk | rfl | hk
    · rw [hbelow hk] at hset
      rw [hbelow (Nat.lt_trans hlo hk)]
      exact h.nested g l hgl k hlo hhi hset
    · rw [hbelow hlo]
      exact (h.opened g (haround g l hgl hlo hhi)).1
    · rw [habove hk] at hset
      exact absurd hset Bool.false_ne_true
  · rcases Nat.lt_trichotomy g group with hlt | rfl | hlt
    · rw [hbelow hlt] at hg ⊢
      exact h.unset g hg
    · rw [hself] at hg
      exact absurd hg nofun
    · exact habove hlt

/-- Leaving a group. -/
theorem leave (h : Scope.Admits spans groups ⟨group :: outer, bound⟩ v)
    (houter : ∀ g ∈ outer, g < group) :
    Scope.Admits spans groups ⟨outer, bound⟩ (v.leave group pos) := by
  have hset := (h.opened group List.mem_cons_self).1
  have hkeep {g : Nat} (hg : g ≠ group) : (v.leave group pos).mark g = v.mark g :=
    Slots.mark_leave_of_ne hg
  -- The group itself is open, so a mark that is unset is not that of the group.
  have hunset {g : Nat} (hg : v.mark g = .unset) : g ≠ group := by
    rintro rfl
    rw [hg] at hset
    exact Bool.false_ne_true hset
  refine ⟨by rw [Slots.length_leave, h.length_eq], fun g hg => ?_, fun g hg => ?_, ?_,
    fun g hg => ?_⟩
  · have hg := h.beyond g hg
    rw [hkeep (hunset hg), hg]
  · rw [hkeep (Nat.ne_of_lt (houter g hg))]
    exact h.opened g (List.mem_cons_of_mem _ hg)
  · intro g l hgl k hlo hhi hk
    rw [Slots.start?_mark_leave] at hk ⊢
    exact h.nested g l hgl k hlo hhi hk
  · rw [Slots.start?_mark_leave] at hg
    have hg := h.unset g hg
    rw [hkeep (hunset hg), hg]

end Scope.Admits

namespace Automaton

variable {a : Automaton} {spans : Nat → Nat → Prop} {scopes : List Scope} {subject : Subject}

/-- The scope of the state of a thread admits the record of the thread. -/
def Thread.Admitted (a : Automaton) (spans : Nat → Nat → Prop) (scopes : List Scope)
    (x : Thread) : Prop :=
  ∃ here, scopes[x.state]? = some here ∧ here.Admits spans a.groupCount x.place.slots

/-- A thread that is admitted where it is can go on to any state within that scope. -/
theorem Thread.Admitted.of_within {opened : List Nat} {bound q : Nat} {c : Candidate}
    (h : Scope.Admits spans a.groupCount ⟨opened, bound⟩ c.slots)
    (hq : Within scopes opened bound q) : Thread.Admitted a spans scopes ⟨q, c⟩ := by
  obtain ⟨b, hle, hq⟩ := hq
  exact ⟨_, hq, h.mono hle⟩

/-- A step leads from an admitted thread to an admitted one. -/
theorem Step.admitted (ha : a.Scoped spans scopes) {x y : Thread} (h : Step a subject x y)
    (hx : x.Admitted a spans scopes) : y.Admitted a spans scopes := by
  obtain ⟨⟨opened, bound⟩, hhere, hx⟩ := hx
  -- In each case the scope of the state permits the step, and the next scope admits the record.
  cases h with
  | byte hst | set hst | skip hst | assertion hst =>
    exact .of_within hx (ha.permits_of hst hhere)
  | branch hst hmem =>
    obtain ⟨-, htargets⟩ := ha.permits_of hst hhere
    exact .of_within hx (htargets _ hmem)
  | enterGroup hst =>
    obtain ⟨hspan, hbound, hlt, haround, hnext⟩ := ha.permits_of hst hhere
    obtain ⟨-, hle, hlast⟩ := ha.bounds hspan
    exact .of_within (hx.enter hspan (Nat.le_trans hle hlast) hle hbound hlt haround
      (Nat.le_refl _)) hnext
  | leaveGroup hst =>
    obtain ⟨outer, rfl, hlt, hnext⟩ := ha.permits_of hst hhere
    exact .of_within (hx.leave hlt) hnext

/-- Moving on does not turn the ranking of two threads in one state round. Where a group is entered
nothing beyond it has been entered, and a group that is left is open in both records. -/
theorem order_effect_ne_lt (ha : a.Scoped spans scopes) {q pos : Nat} {v w : Slots} {st : State}
    (hst : a.states[q]? = some st) (hv : Thread.Admitted a spans scopes ⟨q, ⟨pos, v⟩⟩)
    (hw : Thread.Admitted a spans scopes ⟨q, ⟨pos, w⟩⟩) (h : v.order w ≠ .lt) :
    (st.effect pos v).order (st.effect pos w) ≠ .lt := by
  obtain ⟨here, hhere, hv⟩ := hv
  obtain ⟨here', hhere', hw⟩ := hw
  cases hhere.symm.trans hhere'
  have hlen : v.length = w.length := hv.length_eq.trans hw.length_eq.symm
  cases st with
  | byte | set | branch | assertion | skip | accept => exact h
  | enterGroup group last next =>
    obtain ⟨hspan, hbound, -⟩ := ha.permits_of hst hhere
    obtain ⟨-, hle, -⟩ := ha.bounds hspan
    -- A group behind those that are forgotten has not been entered in either record.
    refine Slots.order_enter_ne_lt hlen hle (fun g hg => ?_) (fun g hg => ?_) h pos
    · exact hv.beyond g (Nat.lt_of_le_of_lt hbound hg)
    · exact hw.beyond g (Nat.lt_of_le_of_lt hbound hg)
  | leaveGroup group next =>
    obtain ⟨outer, hopened, -⟩ := ha.permits_of hst hhere
    have hopen := hv.opened group (hopened ▸ List.mem_cons_self)
    have hlt := Slots.lt_length_of_isSome hopen.1
    rw [State.effect, State.effect, Slots.order_leave hlt (hlen ▸ hlt) hopen.2]
    exact h

/-- The thread that begins a match. -/
def origin (a : Automaton) (pos : Nat) : Thread := ⟨a.start, ⟨pos, .initial a.groupCount pos⟩⟩

/-- Every thread of a match is admitted. -/
theorem Path.admitted (ha : a.Scoped spans scopes) {pos : Nat} {x : Thread}
    (h : a.Path subject (a.origin pos) x) : x.Admitted a spans scopes :=
  h.preserves (fun _ _ hx hstep => hstep.admitted ha hx)
    (.of_within (Scope.Admits.initial spans a.groupCount pos 0) ha.start)

/-- A step leads to a state of the automaton. -/
theorem Step.state_lt (ha : a.Scoped spans scopes) {x y : Thread} (h : Step a subject x y) :
    y.state < a.states.size := by
  cases h with
  | byte hst | set hst | skip hst | assertion hst =>
    obtain ⟨here, -, hnext⟩ := ha.permits hst
    exact ha.lt_of_within hnext
  | branch hst hmem =>
    obtain ⟨here, -, -, htargets⟩ := ha.permits hst
    exact ha.lt_of_within (htargets _ hmem)
  | enterGroup hst =>
    obtain ⟨here, -, -, -, -, -, hnext⟩ := ha.permits hst
    exact ha.lt_of_within hnext
  | leaveGroup hst =>
    obtain ⟨here, -, outer, -, -, hnext⟩ := ha.permits hst
    exact ha.lt_of_within hnext

/-! ### Positions in records -/

/-- A step keeps the start of the match. -/
theorem Step.start?_eq (ha : a.Scoped spans scopes) {x y : Thread} (h : Step a subject x y) :
    y.place.slots.start? = x.place.slots.start? := by
  cases h with
  | byte | set | branch | assertion | skip => rfl
  | enterGroup hst =>
    obtain ⟨here, -, hspan, -⟩ := ha.permits hst
    obtain ⟨hpos, hle, -⟩ := ha.bounds hspan
    exact congrArg Mark.start? (Slots.mark_enter_of_outside (.inl hpos) hle)
  | leaveGroup hst => exact Slots.start?_mark_leave _ _ _ _

/-- A step goes forwards, by no more than one byte. -/
theorem Step.stop_le {x y : Thread} (h : Step a subject x y) :
    x.place.stop ≤ y.place.stop ∧ y.place.stop ≤ x.place.stop + 1 := by
  cases h <;> exact ⟨by simp, by simp⟩

/-- No group of a thread starts after the place of the thread. -/
def Thread.Recent (x : Thread) : Prop :=
  ∀ g p, (x.place.slots.mark g).start? = some p → p ≤ x.place.stop

/-- A step leads to a thread whose groups do not start after its place either. -/
theorem Step.recent {x y : Thread} (h : Step a subject x y) (hx : x.Recent) : y.Recent := by
  cases h with
  | branch | assertion | skip => exact hx
  | byte | set => exact fun g p hp => Nat.le_succ_of_le (hx g p hp)
  | @enterGroup q group last next c hst =>
    intro g p hp
    dsimp only at hp ⊢
    rw [Slots.mark_enter] at hp
    -- The new group starts here; the marks inside it are unset and the others are as before.
    split at hp
    · cases hp
      exact Nat.le_refl _
    · rw [Slots.mark_forget] at hp
      split at hp
      · cases hp
      · exact hx g p hp
  | leaveGroup hst =>
    intro g p hp
    dsimp only at hp ⊢
    rw [Slots.start?_mark_leave] at hp
    exact hx g p hp

/-- The threads of a match know where the match starts, and no group starts after their places. -/
theorem Path.start?_eq (ha : a.Scoped spans scopes) {pos : Nat} {x : Thread}
    (h : a.Path subject (a.origin pos) x) : x.place.slots.start? = some pos ∧ x.Recent := by
  refine h.preserves (P := fun x => x.place.slots.start? = some pos ∧ x.Recent)
    (fun y z hy hstep => ⟨(hstep.start?_eq ha).trans hy.1, hstep.recent hy.2⟩) ⟨rfl, ?_⟩
  intro g p hp
  cases g with
  | zero =>
    cases hp
    exact Nat.le_refl _
  | succ g =>
    dsimp only [origin] at hp
    rw [Slots.mark_initial_of_pos _ _ (Nat.succ_pos g)] at hp
    cases hp

end Automaton

end PosixRegex
