import PosixRegex.Proofs.Parallel
import PosixRegex.Proofs.Raising
import PosixRegex.Proofs.Sealing
import PosixRegex.Proofs.Wiring

/-!
# A group around an automaton

A group around a whole pattern adds three states to its automaton: one that enters the group before
all others, and one that leaves it before the new accepting state. All other states are one further
on, for groups with numbers one higher. A thread has one mark more, and as long as the group is open
this is the mark of the whole match, so it decides nothing that is not decided by the whole match
already, and it counts for every thread alike. So an exploration of one automaton takes the same
steps as one of the other, apart from those in the new states.

- `Slots.enclose`: a record with the mark of the whole match twice.
- `Encloses`: an automaton with a group around it.
- `View.Beside.step`: the explorations of both, side by side.
- `addThread_beside`: adding a thread to both.
-/

namespace PosixRegex

/-! ### Records -/

namespace Mark

theorem unset_order (m : Mark) : unset.order m = .eq := by
  rcases m with ⟨_ | _, _ | _⟩ <;> rfl

theorem order_unset (m : Mark) : m.order unset = .eq := by
  rcases m with ⟨_ | _, _ | _⟩ <;> rfl

end Mark

namespace Slots

variable {v w : Slots} {group groups last pos : Nat}

/-- A match has begun and is not over. -/
def Begun (v : Slots) : Prop := ∃ pos, v.mark 0 = .opened pos

/-- A record for a group around the whole match: it has the mark of the whole match once more. -/
def enclose (v : Slots) : Slots := v.mark 0 :: v

theorem mark_enclose_succ (v : Slots) (g : Nat) : v.enclose.mark (g + 1) = v.mark g :=
  mark_cons_succ _ v g

/-- The mark of the whole match decides nothing when it comes a second time. -/
@[simp]
theorem order_enclose (v w : Slots) : v.enclose.order w.enclose = v.order w := by
  cases v with
  | nil =>
    show order [.unset] (w.mark 0 :: w) = order [] w
    rw [order, Mark.unset_order]
  | cons a v =>
    cases w with
    | nil =>
      show order (a :: a :: v) [.unset] = order (a :: v) []
      rw [order, Mark.order_unset]
    | cons b w =>
      rw [enclose, enclose, order, mark_cons_zero, mark_cons_zero]
      cases hab : a.order b with
      | eq => rfl
      | lt | gt => rw [order, hab]

/-- One more group has been entered. -/
theorem entered_enclose (h : v.Begun) : v.enclose.entered = v.entered + 1 := by
  obtain ⟨pos, hpos⟩ := h
  refine List.countP_cons_of_pos ?_
  rw [hpos]
  rfl

theorem mark_zero_enter (h : 0 < group) (v : Slots) (last pos : Nat) :
    (v.enter group last pos).mark 0 = v.mark 0 := by
  rw [mark_enter, if_neg fun hg => Nat.ne_of_lt h hg.1, mark_forget,
    if_neg fun hg => Nat.not_le_of_lt h hg.1]

/-- Entering a group, which is numbered one higher. -/
theorem enclose_enter (h : 0 < group) (v : Slots) (last pos : Nat) :
    v.enclose.enter (group + 1) (last + 1) pos = (v.enter group last pos).enclose := by
  have hslot : 2 * (group + 1) / 2 = group + 1 := Nat.mul_div_cancel_left _ Nat.two_pos
  rw [enclose, enclose, mark_zero_enter h, enter, forget, List.mapIdx_cons, setSlot, hslot,
    List.modify_succ_cons]
  refine congr (congrArg _ ?_) ?_
  · simp
  · simp [enter, forget, setSlot]

/-- Leaving a group, which is numbered one higher. -/
theorem enclose_leave (h : 0 < group) (v : Slots) (pos : Nat) :
    v.enclose.leave (group + 1) pos = (v.leave group pos).enclose := by
  rw [enclose, enclose, mark_leave_of_ne (Nat.ne_of_lt h)]
  rfl

/-- Entering the group at the start of a match. -/
theorem enter_initial (groups pos : Nat) :
    (initial (groups + 1) pos).enter 1 (groups + 1) pos = (initial groups pos).enclose := by
  refine ext_mark (by simp [enclose]) fun g => ?_
  rcases g with _ | _ | g
  · exact mark_enter_of_outside (.inl Nat.one_pos) (Nat.le_add_left 1 groups)
  · exact mark_enter_self (Nat.le_add_left 1 groups) (by simp)
  · rw [mark_enclose_succ, mark_initial_of_pos groups pos (Nat.succ_pos g)]
    -- The other groups are unset before, and stay so.
    by_cases hg : g + 2 ≤ groups + 1
    · exact mark_enter_inner (by omega) hg
    · rw [mark_enter_of_outside (.inr (Nat.lt_of_not_le hg)) (Nat.le_add_left 1 groups)]
      exact mark_initial_of_pos _ pos (Nat.succ_pos _)

theorem begun_initial (groups pos : Nat) : (initial groups pos).Begun := ⟨pos, rfl⟩

/-- As long as the match is not over the group has not been left. -/
theorem Begun.unleft_enclose (h : v.Begun) : v.enclose.Unleft 1 := by
  obtain ⟨pos, hpos⟩ := h
  have hstart : (v.mark 0).start? = some pos := by
    rw [hpos]
    rfl
  refine ⟨Nat.succ_lt_succ (lt_length_of_start? hstart), ?_⟩
  rw [mark_enclose_succ, hpos]
  rfl

/-- Leaving the group at the end of a match. -/
theorem Begun.leave_enclose (h : v.Begun) (pos : Nat) :
    (v.enclose.leave 1 pos).leave 0 pos = (v.leave 0 pos).enclose := by
  cases v with
  | nil =>
    obtain ⟨start, hstart⟩ := h
    cases hstart
  | cons m v => rfl

end Slots

/-! ### Automata -/

namespace Automaton

theorem State.successors_relocate (d n : Nat) (st : State) :
    (st.relocate d n).successors = st.successors.map (· + d) := by
  cases st <;> rfl

/-- An automaton is another one with a group around it. -/
structure Encloses (outer inner : Automaton) : Prop where
  /-- The inner automaton starts in its first state. -/
  start_inner : inner.start = 0
  /-- The inner automaton accepts in its last state. -/
  size_inner : inner.states.size = inner.accept + 1
  /-- That state accepts. -/
  accepts_inner : inner.states[inner.accept]? = some .accept
  /-- Its groups are among those that are forgotten when they are entered. -/
  nests_inner : inner.Nests
  /-- So are those of the outer automaton. -/
  nests_outer : outer.Nests
  /-- The states of the inner automaton lead to its states only. -/
  le_accept : ∀ {q r}, inner.Leads q r → r ≤ inner.accept
  /-- The inner automaton does not enter the whole match. -/
  pos_of_enterGroup : ∀ {q group last next : Nat},
    inner.states[q]? = some (.enterGroup group last next) → 0 < group
  /-- Nor does it leave it. -/
  pos_of_leaveGroup : ∀ {q group next : Nat},
    inner.states[q]? = some (.leaveGroup group next) → 0 < group
  /-- There is one group more. -/
  groupCount_outer : outer.groupCount = inner.groupCount + 1
  /-- There are two more states, and the accepting one is again the last. -/
  accept_outer : outer.accept = inner.accept + 2
  /-- There are no more states. -/
  size_outer : outer.states.size = outer.accept + 1
  /-- The outer automaton starts in its first state. -/
  start_outer : outer.start = 0
  /-- There it enters the group. -/
  enters : outer.states[0]? = some (.enterGroup 1 outer.groupCount 1)
  /-- The states of the inner automaton follow. -/
  inside : ∀ q < inner.accept, outer.states[q + 1]? = inner.states[q]?.map (State.relocate 1 1)
  /-- Then the group is left. -/
  leaves : outer.states[inner.accept + 1]? = some (.leaveGroup 1 outer.accept)
  /-- And then the match is accepted. -/
  accepts_outer : outer.states[outer.accept]? = some .accept

/-- The states of the automaton of a group around a tree, in their order. -/
theorem getElem?_states_group (o : Options) (t : Expr) (q : Nat) :
    (ofExpr o (.group 1 (t.raise 1))).states[q]? =
      (State.enterGroup 1 (1 + t.groupCount) 1 ::
        ((t.fragment o 0 t.stateCount).map (State.relocate 1 1) ++
          [.leaveGroup 1 (2 + t.stateCount), .accept]))[q]? := by
  have hinside := Expr.fragment_raise o 1 1 t 0 t.stateCount
  rw [Nat.zero_add] at hinside
  simp [ofExpr, Expr.fragment, Expr.stateCount, Nat.add_comm 1 t.stateCount, hinside]

theorem stateCount_group_raise (t : Expr) :
    (Expr.group 1 (t.raise 1)).stateCount = 2 + t.stateCount := by
  rw [Expr.stateCount, Expr.stateCount_raise]

theorem groupCount_group_raise (t : Expr) :
    (Expr.group 1 (t.raise 1)).groupCount = 1 + t.groupCount := by
  rw [Expr.groupCount, Expr.groupCount_raise]

/-- The automaton of a group around a tree is that of the tree with a group around it. -/
theorem encloses_ofExpr (o : Options) {t : Expr} (hback : t.hasBackref = false)
    (ht : t.WellFormed) : (ofExpr o (.group 1 (t.raise 1))).Encloses (ofExpr o t) where
  start_inner := rfl
  size_inner := size_ofExpr o t
  accepts_inner := states_accept_ofExpr o t
  nests_inner := nests_ofExpr o t
  nests_outer := nests_ofExpr o _
  le_accept hlead := by
    have hlt := (wellFormed_ofExpr o hback ht).lt_of_leads _ _ hlead
    rw [size_ofExpr] at hlt
    exact Nat.le_of_lt_succ hlt
  pos_of_enterGroup hq := ((wellFormed_ofExpr o hback ht).enterGroup _ _ _ _ hq).1
  pos_of_leaveGroup hq := ((wellFormed_ofExpr o hback ht).leaveGroup _ _ _ hq).1
  groupCount_outer := (groupCount_group_raise t).trans (Nat.add_comm 1 _)
  accept_outer := (stateCount_group_raise t).trans (Nat.add_comm 2 _)
  size_outer := size_ofExpr o _
  start_outer := rfl
  enters := by
    rw [getElem?_states_group, ofExpr, groupCount_group_raise]
    rfl
  -- Behind the state that enters the outer group the other states follow, moved on by one.
  inside q hq := by
    have hlt : q < (t.fragment o 0 t.stateCount).length := by
      rw [Expr.length_fragment]
      exact hq
    have hinner : (ofExpr o t).states[q]? = (t.fragment o 0 t.stateCount)[q]? := by
      rw [ofExpr, List.getElem?_toArray, List.getElem?_append_left hlt]
    rw [getElem?_states_group, List.getElem?_cons_succ, List.getElem?_append_left, hinner,
      List.getElem?_map]
    rwa [List.length_map]
  leaves := by
    have hlast : ((t.fragment o 0 t.stateCount).map (State.relocate 1 1)).length =
        t.stateCount := by
      rw [List.length_map, Expr.length_fragment]
    show (ofExpr o (.group 1 (t.raise 1))).states[t.stateCount + 1]? =
      some (.leaveGroup 1 (Expr.group 1 (t.raise 1)).stateCount)
    rw [getElem?_states_group, List.getElem?_cons_succ,
      List.getElem?_append_right (Nat.le_of_eq hlast), hlast, Nat.sub_self,
      stateCount_group_raise]
    rfl
  accepts_outer := states_accept_ofExpr o _

namespace Encloses

variable {outer inner : Automaton} (h : outer.Encloses inner)

include h

/-- Apart from the state that leaves the group, a state of the outer automaton is the one that
enters it, or the accepting one, or comes from a state of the inner automaton. -/
theorem states_cases {q : Nat} {st : State} (hst : outer.states[q]? = some st)
    (hq : q ≠ inner.accept + 1) :
    st = .enterGroup 1 outer.groupCount 1 ∨ st = .accept ∨
      ∃ (r : Nat) (u : State), inner.states[r]? = some u ∧ st = u.relocate 1 1 := by
  have hlt := (Array.getElem?_eq_some_iff.1 hst).1
  rw [h.size_outer, h.accept_outer] at hlt
  cases q with
  | zero =>
    rw [h.enters] at hst
    exact .inl (Option.some.inj hst).symm
  | succ q =>
    rcases Nat.lt_or_ge q inner.accept with hin | hout
    · rw [h.inside q hin] at hst
      obtain ⟨u, hu, heq⟩ := Option.map_eq_some_iff.1 hst
      exact .inr (.inr ⟨q, u, hu, heq.symm⟩)
    · obtain rfl : q = inner.accept + 1 := by omega
      have haccept := h.accepts_outer
      rw [h.accept_outer] at haccept
      exact .inr (.inl (Option.some.inj (hst.symm.trans haccept)))

/-- The match is accepted by leaving the group. -/
theorem endsLeaving : outer.EndsLeaving (inner.accept + 1) 1 where
  leaves := h.leaves
  accepts := h.accepts_outer
  not_mem_successors hst hq hmem := by
    have haccept := h.accept_outer
    rcases h.states_cases hst hq with rfl | rfl | ⟨r, u, hu, rfl⟩
    · rw [List.mem_singleton.1 hmem] at haccept
      omega
    · exact List.not_mem_nil hmem
    -- No state of the inner automaton leads further than its accepting state.
    · rw [State.successors_relocate] at hmem
      obtain ⟨target, htarget, heq⟩ := List.mem_map.1 hmem
      have := h.le_accept ⟨u, hu, htarget⟩
      omega
  ne_leaveGroup hst hq next heq := by
    rcases h.states_cases hst hq with rfl | rfl | ⟨r, u, hu, rfl⟩
    · cases heq
    · cases heq
    · cases u with
      | leaveGroup group target =>
        have hpos := h.pos_of_leaveGroup hu
        rw [State.relocate, State.leaveGroup.injEq] at heq
        omega
      | _ => cases heq

end Encloses

/-! ### Explorations side by side -/

/-- All states but the accepting one are in view. -/
def beforeAccept (a : Automaton) (q : Nat) : Bool := q != a.accept

theorem shut_beforeAccept {a : Automaton} (haccept : a.states[a.accept]? = some .accept)
    (subject : Subject) (pos : Nat) : a.Shut subject pos a.beforeAccept := by
  intro q st hst hdead v p hp
  obtain rfl : q = a.accept := by simpa [beforeAccept] using hdead
  cases haccept.symm.trans hst
  exact absurd hp List.not_mem_nil

namespace ThreadSet

/-- Threads in an automaton with a group around it. -/
def encloseAll (threads : List (Nat × Slots)) : List (Nat × Slots) :=
  threads.map fun p => (p.1 + 1, p.2.enclose)

theorem lookup_encloseAll (threads : List (Nat × Slots)) (id : Nat) :
    (encloseAll threads).lookup (id + 1) = (threads.lookup id).map Slots.enclose := by
  induction threads with
  | nil => rfl
  | cons p threads ih =>
    obtain ⟨q, u⟩ := p
    rw [encloseAll, List.map_cons, lookup_cons, lookup_cons, ← encloseAll, ih]
    by_cases hid : id = q <;> simp [hid]

theorem putRecord_encloseAll (threads : List (Nat × Slots)) (id : Nat) (v : Slots) :
    putRecord (encloseAll threads) (id + 1) v.enclose = encloseAll (putRecord threads id v) := by
  rw [putRecord, putRecord, lookup_encloseAll, Option.isSome_map]
  split
  · simp only [encloseAll, List.map_map]
    refine List.map_congr_left fun p _ => ?_
    by_cases hp : p.1 = id <;> simp [hp]
  · simp [encloseAll]

/-- Threads in other states than the first one. -/
def behind (threads : List (Nat × Slots)) : List (Nat × Slots) := threads.filter (·.1 != 0)

theorem lookup_behind (threads : List (Nat × Slots)) (id : Nat) :
    (behind threads).lookup (id + 1) = threads.lookup (id + 1) := by
  induction threads with
  | nil => rfl
  | cons p threads ih =>
    obtain ⟨q, u⟩ := p
    cases q with
    | zero =>
      -- The first state is dropped, and it is not the one that is looked for.
      rw [lookup_cons, if_neg (Nat.succ_ne_zero id), ← ih]
      rfl
    | succ q =>
      rw [behind, List.filter_cons_of_pos (by simp), ← behind, lookup_cons, lookup_cons, ih]

theorem putRecord_behind (threads : List (Nat × Slots)) (id : Nat) (v : Slots) :
    putRecord (behind threads) (id + 1) v = behind (putRecord threads (id + 1) v) := by
  rw [putRecord, putRecord, lookup_behind]
  split
  · rw [behind, behind, List.filter_map]
    refine congrArg (List.map _) (List.filter_congr fun p _ => ?_)
    by_cases hp : p.1 = id + 1 <;> simp [hp]
  · simp [behind]

/-- Threads of an automaton, and of that with a group around it. -/
structure Beside (first : Option Slots) (threads threads' : List (Nat × Slots)) : Prop where
  /-- Apart from the first state they are the same. -/
  behind_eq : behind threads' = encloseAll threads
  /-- In the first state there is a given thread, or none. -/
  lookup_zero : threads'.lookup 0 = first
  /-- Each thread has begun a match. -/
  begun : ∀ p ∈ threads, p.2.Begun

variable {first : Option Slots} {threads threads' : List (Nat × Slots)} {v : Slots}

theorem beside_nil : Beside none [] [] := ⟨rfl, rfl, nofun⟩

/-- A thread in the first state does not matter for the others. -/
theorem Beside.putRecord_zero (h : Beside none threads threads') (v : Slots) :
    Beside (some v) threads (putRecord threads' 0 v) where
  behind_eq := by
    rw [putRecord, h.lookup_zero, ← h.behind_eq]
    simp [behind]
  lookup_zero := by rw [lookup_putRecord, if_pos rfl]
  begun := h.begun

theorem Beside.lookup_succ (h : Beside first threads threads') (id : Nat) :
    threads'.lookup (id + 1) = (threads.lookup id).map Slots.enclose := by
  rw [← lookup_behind, h.behind_eq, lookup_encloseAll]

theorem Beside.begun_of_lookup (h : Beside first threads threads') {id : Nat}
    (hv : threads.lookup id = some v) : v.Begun := by
  obtain ⟨before, after, rfl, -⟩ := List.lookup_eq_some_iff.1 hv
  exact h.begun (id, v) (List.mem_append_right _ List.mem_cons_self)

theorem mem_putRecord {id : Nat} {p : Nat × Slots} (h : p ∈ putRecord threads id v) :
    p ∈ threads ∨ p.2 = v := by
  unfold putRecord at h
  split at h
  · obtain ⟨p', hp', rfl⟩ := List.mem_map.1 h
    split
    · exact .inr rfl
    · exact .inl hp'
  · rcases List.mem_append.1 h with h | h
    · exact .inl h
    · rw [List.mem_singleton.1 h]
      exact .inr rfl

/-- Corresponding records. -/
theorem Beside.putRecord (h : Beside first threads threads') (hv : v.Begun) (id : Nat) :
    Beside first (putRecord threads id v) (putRecord threads' (id + 1) v.enclose) where
  behind_eq := by
    rw [← putRecord_behind, h.behind_eq, putRecord_encloseAll]
  lookup_zero := by
    rw [lookup_putRecord, if_neg (Nat.succ_ne_zero id).symm, h.lookup_zero]
  begun p hp := by
    rcases mem_putRecord hp with hp | hp
    · exact h.begun p hp
    · rwa [hp]

end ThreadSet

/-- An errand in an automaton with a group around it. -/
def Errand.enclose : Errand → Errand
  | visit id v => visit (id + 1) v.enclose
  | finish id => finish (id + 1)

namespace Encloses

variable {outer inner : Automaton} {subject : Subject} {pos q : Nat} {st : State}

/-- No state of the inner automaton touches the mark of the whole match. -/
theorem begun_effect (h : outer.Encloses inner) (hst : inner.states[q]? = some st) {v : Slots}
    (hv : v.Begun) (pos : Nat) : (st.effect pos v).Begun := by
  obtain ⟨start, hstart⟩ := hv
  refine ⟨start, ?_⟩
  rw [← hstart]
  cases st with
  | enterGroup group last next => exact Slots.mark_zero_enter (h.pos_of_enterGroup hst) v last pos
  | leaveGroup group next => exact Slots.mark_leave_of_ne (Nat.ne_of_lt (h.pos_of_leaveGroup hst))
  | _ => rfl

/-- The moves of a state further on are the same ones further on. -/
theorem moves_relocate (h : outer.Encloses inner) (hst : inner.states[q]? = some st)
    (v : Slots) :
    (st.relocate 1 1).moves subject pos v.enclose =
      ThreadSet.encloseAll (st.moves subject pos v) := by
  cases st with
  | byte | set | accept | skip => rfl
  | branch targets => simp [State.relocate, State.moves, ThreadSet.encloseAll]
  | enterGroup group last next =>
    rw [State.relocate, State.moves, Slots.enclose_enter (h.pos_of_enterGroup hst)]
    rfl
  | leaveGroup group next =>
    rw [State.relocate, State.moves, Slots.enclose_leave (h.pos_of_leaveGroup hst)]
    rfl
  | assertion anchor next =>
    rw [State.relocate, State.moves, State.moves]
    split <;> rfl

/-- All states up to the one that leaves the group are in view. -/
theorem beforeAccept_eq_true (h : outer.Encloses inner) (hq : q ≤ inner.accept + 1) :
    outer.beforeAccept q = true := by
  rw [beforeAccept, bne_iff_ne, h.accept_outer]
  omega

/-- Before the accepting state both automata move in the same way. -/
theorem exists_ofMoves (h : outer.Encloses inner) (hst : inner.states[q]? = some st)
    (subject : Subject) (pos : Nat) :
    ∃ st', outer.states[q + 1]? = some st' ∧ ∀ v,
      (Errand.ofMoves subject pos v.enclose st').filter (outer.beforeAccept ·.state) =
        (Errand.ofMoves subject pos v st).map Errand.enclose := by
  have hlt := (Array.getElem?_eq_some_iff.1 hst).1
  rw [h.size_inner] at hlt
  rcases Nat.lt_succ_iff_lt_or_eq.1 hlt with hlt | rfl
  · refine ⟨st.relocate 1 1, by rw [h.inside q hlt, hst]; rfl, fun v => ?_⟩
    rw [Errand.ofMoves, h.moves_relocate hst, ThreadSet.encloseAll, List.map_map, Errand.ofMoves,
      List.map_map]
    refine List.filter_eq_self.2 fun x hx => ?_
    -- The accepting state of the outer automaton is beyond all states of the inner one.
    obtain ⟨p, hp, rfl⟩ := List.mem_map.1 hx
    have hle := h.le_accept ⟨st, hst, State.mem_successors_of_mem_moves hp⟩
    exact h.beforeAccept_eq_true (Nat.succ_le_succ hle)
  · cases h.accepts_inner.symm.trans hst
    refine ⟨_, h.leaves, fun v => ?_⟩
    simp [Errand.ofMoves, State.moves, Errand.state, beforeAccept]

end Encloses

namespace View

variable {outer inner : Automaton} {subject : Subject} {pos q accept : Nat} {first : Option Slots}
  {tail : List Errand} {v : Slots} {w w' : View} {xs xs' : List Errand} {live live' : Nat → Bool}

/-- Views of explorations of an automaton and of that with a group around it. The second one may
have some more errands to do at the end. -/
structure Beside (accept : Nat) (first : Option Slots) (tail : List Errand) (w w' : View) :
    Prop where
  /-- They have the same threads. -/
  threads : ThreadSet.Beside first w.threads w'.threads
  /-- They have the same visits that are not over. -/
  openVisits_succ : ∀ q, w'.openVisits (q + 1) = w.openVisits q
  /-- They have the same errands. -/
  errands_eq : w'.errands = w.errands.map Errand.enclose ++ tail
  /-- The states to be visited are those up to the accepting one, for matches that have begun. -/
  visits : ∀ q v, .visit q v ∈ w.errands → q ≤ accept ∧ v.Begun

/-- Whether a record is accepted does not depend on the group around the automaton. -/
theorem Beside.accepts_eq (h : Beside accept first tail w w') (hv : v.Begun) (q : Nat) :
    w'.accepts (q + 1) v.enclose = w.accepts q v := by
  unfold accepts
  rw [h.threads.lookup_succ, h.openVisits_succ]
  cases hu : w.threads.lookup q with
  | none => rfl
  | some u =>
    dsimp only [Option.map_some]
    -- Both records have entered one group more.
    rw [Slots.order_enclose, Slots.entered_enclose hv,
      Slots.entered_enclose (h.threads.begun_of_lookup hu)]
    simp only [Nat.add_lt_add_iff_right]

/-- A visit begins in both. -/
theorem Beside.begin (h : Beside accept first tail w w') (hv : v.Begun) (q : Nat) :
    Beside accept first tail (w.begin q v) (w'.begin (q + 1) v.enclose) where
  threads := h.threads.putRecord hv q
  openVisits_succ r := by
    simp only [View.begin, h.openVisits_succ, Nat.add_right_cancel_iff]
  errands_eq := congrArg (Errand.finish (q + 1) :: ·) h.errands_eq
  visits r u hmem := h.visits r u ((List.mem_cons.1 hmem).resolve_left nofun)

/-- The moves of both. -/
theorem Beside.schedule (h : Beside accept first tail w w')
    (hxs : xs'.filter (live' ·.state) = xs.map Errand.enclose)
    (hvisits : ∀ q v, .visit q v ∈ xs → q ≤ accept ∧ v.Begun) :
    Beside accept first tail (w.schedule everywhere xs) (w'.schedule live' xs') where
  threads := h.threads
  openVisits_succ := h.openVisits_succ
  errands_eq := by
    have hall : xs.filter (everywhere ·.state) = xs := List.filter_eq_self.2 fun _ _ => rfl
    simp only [View.schedule, hall, hxs, h.errands_eq, List.map_append, List.append_assoc]
  visits q v hmem := by
    rcases List.mem_append.1 hmem with hmem | hmem
    · exact hvisits q v (List.mem_filter.1 hmem).1
    · exact h.visits q v hmem

/-- An errand is done in both. -/
theorem Beside.step (h : Beside inner.accept first tail w w') (hencl : outer.Encloses inner)
    (hne : w.errands ≠ []) :
    Beside inner.accept first tail (w.step inner subject pos everywhere)
      (w'.step outer subject pos outer.beforeAccept) := by
  obtain ⟨threads, openVisits, errands⟩ := w
  obtain ⟨threads', openVisits', errands'⟩ := w'
  cases errands with
  | nil => exact absurd rfl hne
  | cons x xs =>
    obtain rfl : errands' = x.enclose :: (xs.map Errand.enclose ++ tail) := h.errands_eq
    -- What is left to be done after the errand.
    have hrest : Beside inner.accept first tail ⟨threads, openVisits, xs⟩
        ⟨threads', openVisits', xs.map Errand.enclose ++ tail⟩ :=
      ⟨h.threads, h.openVisits_succ, rfl, fun q v hmem =>
        h.visits q v (List.mem_cons_of_mem x hmem)⟩
    cases x with
    | finish q =>
      refine ⟨h.threads, fun r => ?_, rfl, hrest.visits⟩
      have hopen := h.openVisits_succ r
      dsimp only at hopen
      simp only [View.step, Errand.enclose, hopen, Nat.add_right_cancel_iff]
    | visit q v =>
      obtain ⟨hq, hv⟩ := h.visits q v List.mem_cons_self
      have hlt : q < inner.states.size := by
        rw [hencl.size_inner]
        exact Nat.lt_succ_of_le hq
      obtain ⟨st', hst', hmoves⟩ :=
        hencl.exists_ofMoves (Array.getElem?_eq_getElem hlt) subject pos
      have haccepts := hrest.accepts_eq hv q
      cases hw : (⟨threads, openVisits, xs⟩ : View).accepts q v with
      | false =>
        rw [hw] at haccepts
        rw [step_visit_of_not_accepts hw, Errand.enclose, step_visit_of_not_accepts haccepts]
        exact hrest
      | true =>
        rw [hw] at haccepts
        rw [step_visit_of_accepts (Array.getElem?_eq_getElem hlt) hw, Errand.enclose,
          step_visit_of_accepts hst' haccepts]
        refine (hrest.begin hv q).schedule (hmoves v) fun r u hmem => ?_
        obtain ⟨p, hp, heq⟩ := List.mem_map.1 hmem
        cases heq
        refine ⟨hencl.le_accept ⟨_, Array.getElem?_eq_getElem hlt,
          State.mem_successors_of_mem_moves hp⟩, ?_⟩
        rw [(State.mem_moves hp).1]
        exact hencl.begun_effect (Array.getElem?_eq_getElem hlt) hv pos

/-- In its first state the outer automaton enters the group. -/
theorem step_enters (hencl : outer.Encloses inner) {threads : List (Nat × Slots)}
    (hnone : threads.lookup 0 = none) (openVisits : Nat → Option Nat) (v : Slots) :
    View.step outer subject pos outer.beforeAccept ⟨threads, openVisits, [.visit 0 v]⟩ =
      ⟨ThreadSet.putRecord threads 0 v,
        fun q => if q = 0 then (openVisits q).map (· + 1) else openVisits q,
        [.visit 1 (v.enter 1 outer.groupCount pos), .finish 0]⟩ := by
  have haccepts : (⟨threads, openVisits, []⟩ : View).accepts 0 v = true := by
    rw [accepts, hnone]
  have hlive : outer.beforeAccept 1 = true := hencl.beforeAccept_eq_true (Nat.le_add_left 1 _)
  rw [step_visit_of_accepts hencl.enters haccepts]
  simp [View.schedule, View.begin, Errand.ofMoves, State.moves, Errand.state, hlive]

/-- When a match begins, the outer exploration is one step ahead. -/
theorem beside_start (hencl : outer.Encloses inner) (subject : Subject) (pos : Nat)
    {threads threads' : List (Nat × Slots)} {openVisits openVisits' : Nat → Option Nat}
    (hthreads : ThreadSet.Beside none threads threads')
    (hopen : ∀ q, openVisits' (q + 1) = openVisits q) :
    Beside inner.accept (some (.initial outer.groupCount pos)) ([0].map .finish)
      ⟨threads, openVisits, [.visit 0 (.initial inner.groupCount pos)]⟩
      (View.step outer subject pos outer.beforeAccept
        ⟨threads', openVisits', [.visit 0 (.initial outer.groupCount pos)]⟩) := by
  rw [step_enters hencl hthreads.lookup_zero]
  refine ⟨hthreads.putRecord_zero _, fun q => ?_, ?_, fun r u hmem => ?_⟩
  · simp only [if_neg (Nat.succ_ne_zero q), hopen q]
  · rw [hencl.groupCount_outer, Slots.enter_initial]
    rfl
  · cases List.mem_singleton.1 hmem
    exact ⟨Nat.zero_le _, Slots.begun_initial _ pos⟩

/-- When the inner exploration has come to its end, the outer one has come to the errands at the
end. -/
theorem Beside.exists_iterate (h : Beside inner.accept first tail w w')
    (hencl : outer.Encloses inner) {m : Nat}
    (hm : ((View.step inner subject pos everywhere)^[m] w).errands = []) :
    ∃ n, Beside inner.accept first tail ((View.step inner subject pos everywhere)^[m] w)
      ((View.step outer subject pos outer.beforeAccept)^[n] w') := by
  induction m generalizing w w' with
  | zero => exact ⟨0, h⟩
  | succ m ih =>
    by_cases hrest : w.errands = []
    · rw [iterate_of_rest inner subject pos everywhere hrest]
      exact ⟨0, h⟩
    · rw [Function.iterate_succ_apply] at hm ⊢
      obtain ⟨n, hn⟩ := ih (h.step hencl hrest) hm
      exact ⟨n + 1, hn⟩

/-- Ending visits changes no thread. -/
theorem threads_iterate_of_finishes (a : Automaton) (subject : Subject) (pos : Nat)
    (live : Nat → Bool) {ids : List Nat} (h : w.errands = ids.map .finish) (n : Nat) :
    ((View.step a subject pos live)^[n] w).threads = w.threads := by
  induction n generalizing w ids with
  | zero => rfl
  | succ n ih =>
    rw [Function.iterate_succ_apply]
    cases ids with
    | nil =>
      have hrest : w.errands = [] := h
      have hstep : View.step a subject pos live w = w := iterate_of_rest a subject pos live hrest 1
      rw [hstep, ih h]
    | cons id ids =>
      obtain ⟨threads, openVisits, errands⟩ := w
      obtain rfl : errands = .finish id :: ids.map .finish := h
      exact ih rfl

/-- Explorations side by side end with the same threads. -/
theorem Beside.threads_of_rest {ids : List Nat}
    (h : Beside inner.accept first (ids.map .finish) w w') (hencl : outer.Encloses inner)
    {m n : Nat} {threads threads' : List (Nat × Slots)} {openVisits openVisits' : Nat → Option Nat}
    (hm : (View.step inner subject pos everywhere)^[m] w = ⟨threads, openVisits, []⟩)
    (hn : (View.step outer subject pos outer.beforeAccept)^[n] w' = ⟨threads', openVisits', []⟩) :
    ThreadSet.Beside first threads threads' := by
  obtain ⟨k, hk⟩ := h.exists_iterate hencl (congrArg errands hm)
  rw [hm] at hk
  -- Then the outer exploration ends visits only, until it is at rest, too.
  have hsame :=
    threads_iterate_of_finishes outer subject pos outer.beforeAccept hk.errands_eq n
  rw [← Function.iterate_add_apply, Nat.add_comm, Function.iterate_add_apply, hn,
    iterate_of_rest outer subject pos outer.beforeAccept rfl k] at hsame
  rw [show threads' = _ from hsame]
  exact hk.threads

end View

/-! ### Adding threads -/

section AddThread

variable {outer inner : Automaton} {subject : Subject} {pos q : Nat} {first : Option Slots}
  {t t' u u' : ThreadSet} {openVisits openVisits' : Array Nat} {v : Slots}

/-- As long as no visit is under way it is the same for both automata. -/
theorem Encloses.counts_succ (h : outer.Encloses inner) (q : Nat) :
    Exploration.counts outer.beforeAccept (Simulation.init outer).openVisits (q + 1) =
      Exploration.counts everywhere (Simulation.init inner).openVisits q := by
  have haccept := h.accept_outer
  simp only [Exploration.counts, Simulation.init, Array.getElem?_replicate, everywhere, if_true,
    beforeAccept, bne_iff_ne, h.size_outer, h.size_inner]
  by_cases hq : q < inner.accept + 1
  · rw [if_pos (by omega), if_pos (by omega), if_pos hq]
  · rw [if_neg hq]
    split
    · exact if_neg (by omega)
    · rfl

/-- Adding a thread to both. -/
theorem addThread_beside (hencl : outer.Encloses inner)
    (h : addThread inner subject pos t (Simulation.init inner).openVisits q v =
      some (t', openVisits))
    (h' : addThread outer subject pos u (Simulation.init outer).openVisits (q + 1) v.enclose =
      some (u', openVisits'))
    (hwf : t.Wellformed inner.states.size inner.groupCount)
    (hwf' : u.Wellformed outer.states.size outer.groupCount)
    (hlen : v.length = inner.groupCount + 1)
    (hq : q ≤ inner.accept) (hv : v.Begun)
    (hbeside : ThreadSet.Beside first (t.visible everywhere) (u.visible outer.beforeAccept)) :
    ThreadSet.Beside first (t'.visible everywhere) (u'.visible outer.beforeAccept) := by
  have hlen' : v.enclose.length = outer.groupCount + 1 := by
    rw [hencl.groupCount_outer, ← hlen]
    rfl
  obtain ⟨-, -, m, hm⟩ :=
    addThread_view hencl.nests_inner h hwf hlen (inner.shut_everywhere subject pos)
  obtain ⟨-, -, n, hn⟩ := addThread_view hencl.nests_outer h' hwf' hlen'
    (shut_beforeAccept hencl.accepts_outer subject pos)
  -- At first both have one visit to make, of the same state and with the same record.
  have hview : View.Beside inner.accept first ([].map .finish)
      ⟨t.visible everywhere, Exploration.counts everywhere (Simulation.init inner).openVisits,
        [Errand.visit q v].filter (everywhere ·.state)⟩
      ⟨u.visible outer.beforeAccept,
        Exploration.counts outer.beforeAccept (Simulation.init outer).openVisits,
        [Errand.visit (q + 1) v.enclose].filter (outer.beforeAccept ·.state)⟩ := by
    refine ⟨hbeside, hencl.counts_succ, ?_, fun r w hmem => ?_⟩
    · have hlive := hencl.beforeAccept_eq_true (Nat.succ_le_succ hq)
      simp [Errand.enclose, Errand.state, everywhere, hlive]
    · cases List.mem_singleton.1 (List.mem_filter.1 hmem).1
      exact ⟨hq, hv⟩
  exact hview.threads_of_rest hencl hm hn

/-- Beginning a match in both: the group is entered in the first state. -/
theorem addThread_start_beside (hencl : outer.Encloses inner)
    (h : addThread inner subject pos t (Simulation.init inner).openVisits inner.start
      (.initial inner.groupCount pos) = some (t', openVisits))
    (h' : addThread outer subject pos u (Simulation.init outer).openVisits outer.start
      (.initial outer.groupCount pos) = some (u', openVisits'))
    (hwf : t.Wellformed inner.states.size inner.groupCount)
    (hwf' : u.Wellformed outer.states.size outer.groupCount)
    (hbeside : ThreadSet.Beside none (t.visible everywhere) (u.visible outer.beforeAccept)) :
    ThreadSet.Beside (some (.initial outer.groupCount pos)) (t'.visible everywhere)
      (u'.visible outer.beforeAccept) := by
  obtain ⟨-, -, m, hm⟩ := addThread_view hencl.nests_inner h hwf (Slots.length_initial _ _)
    (inner.shut_everywhere subject pos)
  obtain ⟨-, -, n, hn⟩ := addThread_view hencl.nests_outer h' hwf' (Slots.length_initial _ _)
    (shut_beforeAccept hencl.accepts_outer subject pos)
  rw [hencl.start_inner] at hm
  rw [hencl.start_outer] at hn
  have hlive : outer.beforeAccept 0 = true := hencl.beforeAccept_eq_true (Nat.zero_le _)
  have hvisit : [Errand.visit 0 (.initial outer.groupCount pos)].filter
      (outer.beforeAccept ·.state) = [.visit 0 (.initial outer.groupCount pos)] := by
    simp [Errand.state, hlive]
  rw [hvisit] at hn
  have hview := View.beside_start hencl subject pos hbeside hencl.counts_succ
  -- One step more does not matter where the outer exploration is at rest.
  have hn' : (View.step outer subject pos outer.beforeAccept)^[n]
      (View.step outer subject pos outer.beforeAccept ⟨u.visible outer.beforeAccept,
        Exploration.counts outer.beforeAccept (Simulation.init outer).openVisits,
        [.visit 0 (.initial outer.groupCount pos)]⟩) =
      ⟨u'.visible outer.beforeAccept,
        Exploration.counts outer.beforeAccept (Simulation.init outer).openVisits, []⟩ := by
    rw [← Function.iterate_succ_apply, Function.iterate_succ_apply', hn]
    rfl
  exact hview.threads_of_rest hencl hm hn'

end AddThread

end Automaton

end PosixRegex
