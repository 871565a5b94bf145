import PosixRegex.Proofs.Agreement
import PosixRegex.Proofs.Enclosing

/-!
# Patterns in parentheses

Parentheses around a whole pattern change nothing but that there is one more group, which spans the
whole match. The automaton gets a group around it, and the simulations of both go over a text side
by side: their threads correspond to each other in their order, apart from those in the states that
enter and leave the group, which read no byte. So the same threads are given up, the same records
displace others, and the same matches are taken.

- `Simulation.Beside`: simulations of an automaton and of that with a group around it.
- `Simulation.Beside.run`: they end with the same match.
- `Regex.matchFrom_parenthesized`: the matches of a pattern in parentheses.
-/

namespace PosixRegex

namespace Automaton

namespace State

/-- A state leads to where it goes after reading a byte. -/
theorem mem_successors_of_step? {b : UInt8} {target : Nat} {st : State}
    (h : st.step? b = some target) : target ∈ st.successors := by
  cases st with
  | byte a next =>
    rw [step?] at h
    split at h <;> cases h
    exact List.mem_singleton_self _
  | set s next =>
    rw [step?] at h
    split at h <;> cases h
    exact List.mem_singleton_self _
  | _ => cases h

end State

variable {outer inner : Automaton} {subject : Subject} {pos q : Nat} {b : UInt8}
  {first best : Option Slots} {current current' t t' u u' : ThreadSet}
  {openVisits openVisits' : Array Nat} {ids : List Nat}

/-- A record beats another one when it does so with a group around both. -/
theorem all_beats_enclose (best : Option Slots) (v : Slots) :
    (best.map Slots.enclose).all v.enclose.beats = best.all v.beats := by
  cases best <;> simp [Slots.beats]

/-- A thread is as late as with a group around it. -/
theorem isLate_enclose (best : Option Slots) (v : Slots) :
    isLate (best.map Slots.enclose) v.enclose = isLate best v := by
  cases best <;> rfl

namespace Encloses

variable (h : outer.Encloses inner)

include h

/-- The states of both automata read the same bytes. -/
theorem step?_succ (hq : q ≤ inner.accept) (b : UInt8) :
    outer.states[q + 1]?.bind (State.step? b) =
      (inner.states[q]?.bind (State.step? b)).map (· + 1) := by
  rcases Nat.lt_or_eq_of_le hq with hlt | rfl
  · rw [h.inside q hlt]
    cases inner.states[q]? with
    | none => rfl
    | some st => exact State.step?_relocate 1 1 b st
  · rw [h.leaves, h.accepts_inner]
    rfl

/-- At first the state that leaves the group is not being visited. -/
theorem openVisits_init : (Simulation.init outer).openVisits[inner.accept + 1]? = some 0 := by
  rw [Simulation.init, Array.getElem?_replicate, if_pos]
  rw [h.size_outer, h.accept_outer]
  omega

/-- The first state and the accepting one read no byte. -/
theorem step?_eq_none (hq : q = 0 ∨ q = outer.accept) (b : UInt8) :
    outer.states[q]?.bind (State.step? b) = none := by
  rcases hq with rfl | rfl
  · rw [h.enters]
    rfl
  · rw [h.accepts_outer]
    rfl

end Encloses

/-! ### Sets of threads -/

namespace ThreadSet

theorem visible_everywhere (t : ThreadSet) :
    t.visible everywhere = t.dense.toList.map fun id => (id, t.record id) :=
  congrArg (List.map _) (List.filter_eq_self.2 fun _ _ => rfl)

theorem Wellformed.isEmpty_iff {states groups : Nat} (h : t.Wellformed states groups) :
    t.isEmpty = true ↔ ∀ q, t.contains q = false := by
  rw [isEmpty, Array.isEmpty_iff, Array.eq_empty_iff_forall_not_mem]
  simp only [h.mem_dense_iff, Bool.not_eq_true]

/-- Sets of threads of an automaton and of that with a group around it: apart from the first state
and the accepting one they have the same threads, and a match is accepted by leaving the group. -/
structure Corresponds (outer inner : Automaton) (pos : Nat) (first : Option Slots)
    (t u : ThreadSet) : Prop where
  /-- The first set has room for the states. -/
  wellformed : t.Wellformed inner.states.size inner.groupCount
  /-- So has the other one. -/
  wellformed' : u.Wellformed outer.states.size outer.groupCount
  /-- They have the same threads. -/
  beside : Beside first (t.visible everywhere) (u.visible outer.beforeAccept)
  /-- The accepting state has the thread of the state before it. -/
  isSealed : Sealed outer (inner.accept + 1) 1 pos (u.visible everywhere)

theorem corresponds_of_empty (hwf : t.Wellformed inner.states.size inner.groupCount)
    (hwf' : u.Wellformed outer.states.size outer.groupCount) (hempty : t.dense = #[])
    (hempty' : u.dense = #[]) (pos : Nat) : Corresponds outer inner pos none t u := by
  have hnil {t : ThreadSet} (h : t.dense = #[]) (live : Nat → Bool) : t.visible live = [] := by
    rw [visible, h]
    rfl
  refine ⟨hwf, hwf', ?_, ?_⟩
  · rw [hnil hempty, hnil hempty']
    exact beside_nil
  · rw [hnil hempty']
    exact sealed_nil outer _ 1 pos

namespace Corresponds

variable (h : Corresponds outer inner pos first t u) (hencl : outer.Encloses inner)

include h

/-- Other than in the first state and the accepting one there are the same states in the same
order. -/
theorem filter_dense : u.dense.toList.filter (fun q => q != 0 && outer.beforeAccept q) =
    t.dense.toList.map (· + 1) := by
  have hfst := congrArg (List.map Prod.fst) h.beside.behind_eq
  rw [visible_everywhere, behind, encloseAll, visible, List.filter_map, List.filter_filter] at hfst
  simpa [Function.comp_def] using hfst

/-- Each thread has begun a match. -/
theorem begun {id : Nat} (hid : t.contains id = true) : (t.record id).Begun :=
  h.beside.begun (id, t.record id) (h.wellformed.mem_visible.2 ⟨rfl, hid, rfl⟩)

include hencl

/-- The inner states have threads with the same records, or both have none. -/
theorem lookup_succ {id : Nat} (hid : id ≤ inner.accept) :
    (if u.contains (id + 1) then some (u.record (id + 1)) else none) =
      (if t.contains id then some (t.record id) else none).map Slots.enclose := by
  rw [← h.wellformed'.lookup_visible (hencl.beforeAccept_eq_true (Nat.succ_le_succ hid)),
    h.beside.lookup_succ, h.wellformed.lookup_visible rfl]

theorem le_accept {id : Nat} (hid : t.contains id = true) : id ≤ inner.accept := by
  have hlt := h.wellformed.lt_of_contains hid
  rw [hencl.size_inner] at hlt
  exact Nat.le_of_lt_succ hlt

theorem record_succ {id : Nat} (hid : t.contains id = true) :
    u.record (id + 1) = (t.record id).enclose := by
  have hlookup := h.lookup_succ hencl (h.le_accept hencl hid)
  rw [if_pos hid] at hlookup
  split at hlookup
  · exact Option.some.inj hlookup
  · cases hlookup

/-- The accepting states have threads, or both have none. In one of them the group has been left. -/
theorem lookup_accept :
    (if u.contains outer.accept then some (u.record outer.accept) else none) =
      (if t.contains inner.accept then some (t.record inner.accept) else none).map
        fun v => v.enclose.leave 1 pos := by
  have hvisible (id : Nat) : (u.visible everywhere).lookup id =
      if u.contains id then some (u.record id) else none := h.wellformed'.lookup_visible rfl
  rw [← hvisible, h.isSealed.lookup_accept, hvisible, h.lookup_succ hencl (Nat.le_refl _),
    Option.map_map]
  rfl

/-- Only the first state can have a thread where there are no others. -/
theorem isEmpty_eq : u.isEmpty = (t.isEmpty && first.isNone) := by
  have hzero := h.wellformed'.lookup_visible (hencl.beforeAccept_eq_true (Nat.zero_le _))
  rw [h.beside.lookup_zero] at hzero
  rw [Bool.eq_iff_iff, Bool.and_eq_true, h.wellformed.isEmpty_iff, h.wellformed'.isEmpty_iff,
    Option.isNone_iff_eq_none]
  constructor
  · refine fun hempty => ⟨fun q => Bool.eq_false_iff.2 fun hq => ?_, ?_⟩
    · have hlookup := h.lookup_succ hencl (h.le_accept hencl hq)
      rw [hempty, if_pos hq] at hlookup
      cases hlookup
    · rw [hzero, hempty]
      rfl
  · rintro ⟨hempty, rfl⟩ q
    refine Bool.eq_false_iff.2 fun hq => ?_
    have hlt := h.wellformed'.lt_of_contains hq
    rw [hencl.size_outer, hencl.accept_outer] at hlt
    -- The state is the first one, or comes after a state of the inner automaton.
    rcases q with _ | q
    · rw [if_pos hq] at hzero
      cases hzero
    · rcases Nat.lt_or_eq_of_le (Nat.le_of_lt_succ hlt) with hlt | heq
      · have hlookup := h.lookup_succ hencl (Nat.le_of_lt_succ (Nat.lt_of_succ_lt_succ hlt))
        rw [if_pos hq, hempty] at hlookup
        cases hlookup
      · have hlookup := h.lookup_accept hencl
        rw [hencl.accept_outer, ← heq, if_pos hq, hempty] at hlookup
        cases hlookup

/-- Adding a thread to both. -/
theorem addThread {v : Slots} (hlen : v.length = inner.groupCount + 1) (hq : q ≤ inner.accept)
    (hv : v.Begun)
    (hadd : Automaton.addThread inner subject pos t (Simulation.init inner).openVisits q v =
      some (t', openVisits))
    (hadd' : Automaton.addThread outer subject pos u (Simulation.init outer).openVisits (q + 1)
      v.enclose = some (u', openVisits')) :
    openVisits = (Simulation.init inner).openVisits ∧
      openVisits' = (Simulation.init outer).openVisits ∧
      Corresponds outer inner pos first t' u' := by
  have hlen' : v.enclose.length = outer.groupCount + 1 := by
    rw [hencl.groupCount_outer, ← hlen]
    rfl
  obtain ⟨hopen, hwf, -⟩ := addThread_view hencl.nests_inner hadd h.wellformed hlen
    (inner.shut_everywhere subject pos)
  obtain ⟨hopen', hwf', -⟩ := addThread_view hencl.nests_outer hadd' h.wellformed' hlen'
    (outer.shut_everywhere subject pos)
  refine ⟨hopen, hopen', hwf, hwf', ?_, ?_⟩
  · exact addThread_beside hencl hadd hadd' h.wellformed h.wellformed' hlen hq hv h.beside
  · refine addThread_sealed hencl.nests_outer hencl.endsLeaving hadd' h.wellformed' hlen'
      hencl.openVisits_init ?_ hv.unleft_enclose h.isSealed
    have haccept := hencl.accept_outer
    omega

/-- Beginning a match in both. -/
theorem addThread_start (hfirst : first = none)
    (hadd : Automaton.addThread inner subject pos t (Simulation.init inner).openVisits inner.start
      (.initial inner.groupCount pos) = some (t', openVisits))
    (hadd' : Automaton.addThread outer subject pos u (Simulation.init outer).openVisits outer.start
      (.initial outer.groupCount pos) = some (u', openVisits')) :
    Corresponds outer inner pos (some (.initial outer.groupCount pos)) t' u' := by
  subst hfirst
  obtain ⟨-, hwf, -⟩ := addThread_view hencl.nests_inner hadd h.wellformed
    (Slots.length_initial _ _) (inner.shut_everywhere subject pos)
  obtain ⟨-, hwf', -⟩ := addThread_view hencl.nests_outer hadd' h.wellformed'
    (Slots.length_initial _ _) (outer.shut_everywhere subject pos)
  refine ⟨hwf, hwf', ?_, ?_⟩
  · exact addThread_start_beside hencl hadd hadd' h.wellformed h.wellformed' h.beside
  · refine addThread_sealed hencl.nests_outer hencl.endsLeaving hadd' h.wellformed'
      (Slots.length_initial _ _) hencl.openVisits_init ?_ ?_ h.isSealed
    · rw [hencl.start_outer, hencl.accept_outer]
      omega
    · refine Slots.unleft_initial ?_ pos
      rw [hencl.groupCount_outer]
      exact Nat.le_add_left 1 _

end Corresponds

end ThreadSet

/-! ### Advancing -/

open ThreadSet (Corresponds)

/-- Threads that read nothing can be left out. -/
theorem advanceThreads_filter {a : Automaton} (p : Nat → Bool)
    (hunread : ∀ q ∈ ids, p q = false → a.states[q]?.bind (State.step? b) = none)
    (next : ThreadSet × Array Nat) :
    ids.foldlM (advanceThread a subject pos b best current) next =
      (ids.filter p).foldlM (advanceThread a subject pos b best current) next := by
  induction ids generalizing next with
  | nil => rfl
  | cons id ids ih =>
    have hrest (next : ThreadSet × Array Nat) :=
      ih (fun q hq => hunread q (List.mem_cons_of_mem id hq)) next
    cases hid : p id with
    | true =>
      rw [List.filter_cons_of_pos hid, List.foldlM_cons, List.foldlM_cons]
      exact Option.bind_congr fun next _ => hrest next
    | false =>
      have hhead : advanceThread a subject pos b best current next id = some next := by
        rw [advanceThread, hunread id List.mem_cons_self hid]
      rw [List.filter_cons_of_neg (Bool.eq_false_iff.1 hid), List.foldlM_cons, hhead]
      exact hrest next

/-- Advancing a thread in both. -/
theorem advanceThread_corresponds (hencl : outer.Encloses inner)
    (hcurrent : current.Wellformed inner.states.size inner.groupCount)
    (h : Corresponds outer inner pos first t u) (hq : q ≤ inner.accept)
    (hbegun : (current.record q).Begun)
    (hrecord : current'.record (q + 1) = (current.record q).enclose)
    (hadvance : advanceThread inner subject pos b best current
      (t, (Simulation.init inner).openVisits) q = some (t', openVisits))
    (hadvance' : advanceThread outer subject pos b (best.map Slots.enclose) current'
      (u, (Simulation.init outer).openVisits) (q + 1) = some (u', openVisits')) :
    openVisits = (Simulation.init inner).openVisits ∧
      openVisits' = (Simulation.init outer).openVisits ∧
      Corresponds outer inner pos first t' u' := by
  unfold advanceThread at hadvance hadvance'
  rw [hencl.step?_succ hq, hrecord, isLate_enclose] at hadvance'
  -- A state steps in both automata alike, so the two threads fare alike.
  cases hstep : inner.states[q]?.bind (State.step? b) with
  | none =>
    rw [hstep] at hadvance hadvance'
    cases hadvance
    cases hadvance'
    exact ⟨rfl, rfl, h⟩
  | some target =>
    rw [hstep] at hadvance hadvance'
    dsimp only [Option.map_some] at hadvance hadvance'
    split at hadvance
    · rename_i hlate
      rw [if_pos hlate] at hadvance'
      cases hadvance
      cases hadvance'
      exact ⟨rfl, rfl, h⟩
    · rename_i hlate
      rw [if_neg hlate] at hadvance'
      obtain ⟨st, hst, hread⟩ := Option.bind_eq_some_iff.1 hstep
      have htarget := hencl.le_accept ⟨st, hst, State.mem_successors_of_step? hread⟩
      exact h.addThread hencl (length_record_of_step? hcurrent hstep) htarget hbegun hadvance
        hadvance'

/-- Advancing several threads in both, one after the other. -/
theorem advanceThreads_corresponds (hencl : outer.Encloses inner)
    (hcurrent : current.Wellformed inner.states.size inner.groupCount)
    (h : Corresponds outer inner pos first t u)
    (hids : ∀ q ∈ ids, q ≤ inner.accept ∧ (current.record q).Begun ∧
      current'.record (q + 1) = (current.record q).enclose)
    (hadvance : ids.foldlM (advanceThread inner subject pos b best current)
      (t, (Simulation.init inner).openVisits) = some (t', openVisits))
    (hadvance' : (ids.map (· + 1)).foldlM
      (advanceThread outer subject pos b (best.map Slots.enclose) current')
      (u, (Simulation.init outer).openVisits) = some (u', openVisits')) :
    Corresponds outer inner pos first t' u' := by
  induction ids generalizing t u with
  | nil =>
    cases hadvance
    cases hadvance'
    exact h
  | cons id ids ih =>
    rw [List.foldlM_cons] at hadvance
    rw [List.map_cons, List.foldlM_cons] at hadvance'
    obtain ⟨⟨t₁, o₁⟩, hhead, hrest⟩ := Option.bind_eq_some_iff.1 hadvance
    obtain ⟨⟨u₁, o₁'⟩, hhead', hrest'⟩ := Option.bind_eq_some_iff.1 hadvance'
    obtain ⟨hle, hbegun, hrecord⟩ := hids id List.mem_cons_self
    obtain ⟨rfl, rfl, h₁⟩ :=
      advanceThread_corresponds hencl hcurrent h hle hbegun hrecord hhead hhead'
    exact ih h₁ (fun q hq => hids q (List.mem_cons_of_mem id hq)) hrest hrest'

/-! ### Simulations -/

namespace Simulation

variable {sim sim' next next' : Simulation}

/-- Simulations of an automaton and of that with a group around it. -/
structure Beside (outer inner : Automaton) (pos : Nat) (first : Option Slots)
    (sim sim' : Simulation) : Prop where
  /-- The first simulation is sound. -/
  sound : sim.Sound inner
  /-- The other simulation is sound. -/
  sound' : sim'.Sound outer
  /-- In the first one all visits are over. -/
  openVisits_eq : sim.openVisits = (init inner).openVisits
  /-- In the other one, too. -/
  openVisits_eq' : sim'.openVisits = (init outer).openVisits
  /-- They have the same threads. -/
  corresponds : ThreadSet.Corresponds outer inner pos first sim.current sim'.current
  /-- They have found the same match. -/
  best_eq : sim'.best = sim.best.map Slots.enclose

theorem beside_init (hencl : outer.Encloses inner) (pos : Nat) :
    Beside outer inner pos none (init inner) (init outer) where
  sound := sound_init hencl.nests_inner
  sound' := sound_init hencl.nests_outer
  openVisits_eq := rfl
  openVisits_eq' := rfl
  corresponds := ThreadSet.corresponds_of_empty (sound_init hencl.nests_inner).current
    (sound_init hencl.nests_outer).current rfl rfl pos
  best_eq := rfl

namespace Beside

variable (h : Beside outer inner pos first sim sim') (hencl : outer.Encloses inner)

include h hencl

/-- Beginning a match in both. The first state has a thread then, unless a match is known. -/
theorem seed (hfirst : first = none) (hseed : sim.seed inner subject pos = some next)
    (hseed' : sim'.seed outer subject pos = some next') :
    ∃ first', Beside outer inner pos first' next next' ∧ (next.best.isSome → first' = none) := by
  obtain ⟨hsound, hopen, hbest⟩ := h.sound.seed hseed
  obtain ⟨hsound', hopen', hbest'⟩ := h.sound'.seed hseed'
  have hopen_eq := hopen.trans h.openVisits_eq
  have hopen_eq' := hopen'.trans h.openVisits_eq'
  have hbest_eq : next'.best = next.best.map Slots.enclose := by
    rw [hbest, hbest', h.best_eq]
  cases hknown : sim.best with
  | some v =>
    refine ⟨first, ⟨hsound, hsound', hopen_eq, hopen_eq', ?_, hbest_eq⟩, fun _ => hfirst⟩
    rw [seed_of_isSome (by rw [hknown]; rfl)] at hseed
    rw [seed_of_isSome (by rw [h.best_eq, hknown]; rfl)] at hseed'
    cases hseed
    cases hseed'
    exact h.corresponds
  | none =>
    -- A new match has a thread in the first state, where the group is entered.
    refine ⟨some (.initial outer.groupCount pos),
      ⟨hsound, hsound', hopen_eq, hopen_eq', ?_, hbest_eq⟩, fun hsome => ?_⟩
    · rw [seed_of_none hknown, h.openVisits_eq] at hseed
      rw [seed_of_none (by rw [h.best_eq, hknown]; rfl), h.openVisits_eq'] at hseed'
      obtain ⟨⟨current, openVisits⟩, hadd, rfl⟩ := Option.map_eq_some_iff.1 hseed
      obtain ⟨⟨current', openVisits'⟩, hadd', rfl⟩ := Option.map_eq_some_iff.1 hseed'
      exact h.corresponds.addThread_start hencl hfirst hadd hadd'
    · rw [hbest, hknown] at hsome
      cases hsome

/-- Taking a match in both. -/
theorem harvest :
    Beside outer inner pos first (sim.harvest inner pos) (sim'.harvest outer pos) := by
  have hlookup := h.corresponds.lookup_accept hencl
  have hbest : (sim'.harvest outer pos).best =
      (sim.harvest inner pos).best.map Slots.enclose := by
    unfold Simulation.harvest
    cases hcontains : sim.current.contains inner.accept with
    | false =>
      cases hcontains' : sim'.current.contains outer.accept with
      | false => exact h.best_eq
      | true => simp [hcontains, hcontains'] at hlookup
    | true =>
      cases hcontains' : sim'.current.contains outer.accept with
      | false => simp [hcontains, hcontains'] at hlookup
      | true =>
        -- The group has been left where the match ends.
        rw [hcontains, hcontains', if_pos rfl, if_pos rfl] at hlookup
        rw [if_pos rfl, if_pos rfl, Option.some.inj hlookup,
          (h.corresponds.begun hcontains).leave_enclose]
        dsimp only
        rw [h.best_eq, all_beats_enclose]
        split
        · rfl
        · exact h.best_eq
  rw [harvest_eq inner pos sim, harvest_eq outer pos sim']
  exact ⟨⟨h.sound.nests, h.sound.current, h.sound.spare, h.sound.spare_empty⟩,
    ⟨h.sound'.nests, h.sound'.current, h.sound'.spare, h.sound'.spare_empty⟩, h.openVisits_eq,
    h.openVisits_eq', h.corresponds, hbest⟩

/-- Advancing both. -/
theorem advance (hadvance : sim.advance inner subject (pos + 1) b = some next)
    (hadvance' : sim'.advance outer subject (pos + 1) b = some next') :
    Beside outer inner (pos + 1) none next next' := by
  obtain ⟨hsound, hopen, hbest⟩ := h.sound.advance hadvance
  obtain ⟨hsound', hopen', hbest'⟩ := h.sound'.advance hadvance'
  refine ⟨hsound, hsound', hopen.trans h.openVisits_eq, hopen'.trans h.openVisits_eq', ?_, by
    rw [hbest, hbest', h.best_eq]⟩
  rw [advance_eq, h.openVisits_eq] at hadvance
  -- The first state and the accepting one can be left out.
  rw [advance_eq, h.openVisits_eq', h.best_eq,
    advanceThreads_filter (fun q => q != 0 && outer.beforeAccept q) (fun q _ hq => ?_),
    h.corresponds.filter_dense] at hadvance'
  · obtain ⟨⟨current, openVisits⟩, hfold, rfl⟩ := Option.map_eq_some_iff.1 hadvance
    obtain ⟨⟨current', openVisits'⟩, hfold', rfl⟩ := Option.map_eq_some_iff.1 hadvance'
    refine advanceThreads_corresponds hencl h.sound.current ?_ (fun q hq => ?_) hfold hfold'
    · exact ThreadSet.corresponds_of_empty h.sound.spare h.sound'.spare h.sound.spare_empty
        h.sound'.spare_empty (pos + 1)
    · have hcontains : sim.current.contains q = true :=
        h.sound.current.mem_dense_iff.1 (Array.mem_toList_iff.1 hq)
      exact ⟨h.corresponds.le_accept hencl hcontains, h.corresponds.begun hcontains,
        h.corresponds.record_succ hencl hcontains⟩
  · refine hencl.step?_eq_none ?_ b
    rcases Bool.and_eq_false_iff.1 hq with hq | hq
    · exact .inl (by simpa using hq)
    · exact .inr (by simpa [beforeAccept] using hq)

/-- Both have their outcome at the same position. A thread in the first state does not matter for
that: there is none when a match was known before, and there are others when one has been found. -/
theorem isSettled_eq (hfirst : sim.best.isSome → first = none) :
    (sim'.harvest outer pos).isSettled = (sim.harvest inner pos).isSettled := by
  have hharvest := h.harvest hencl
  rw [isSettled, isSettled, hharvest.best_eq, Option.isSome_map,
    hharvest.corresponds.isEmpty_eq hencl]
  cases hempty : (sim.harvest inner pos).current.isEmpty with
  | false => rfl
  | true =>
    -- Without threads there is no match to take.
    have hnot : sim.current.contains inner.accept = false := by
      rw [harvest_eq] at hempty
      exact h.sound.current.isEmpty_iff.1 hempty inner.accept
    have hsame : sim.harvest inner pos = sim := by
      rw [Simulation.harvest, hnot]
      rfl
    rw [hsame]
    cases hsome : sim.best.isSome with
    | false => exact Bool.and_false _
    | true => rw [hfirst hsome]; rfl

end Beside

/-- Simulations of an automaton and of that with a group around it end with the same match. -/
theorem Beside.run (hencl : outer.Encloses inner) {remaining : Nat} {best' : Option Slots}
    (h : Beside outer inner (subject.size - remaining) none sim sim')
    (hle : remaining ≤ subject.size) (hrun : Simulation.run inner subject remaining sim = some best)
    (hrun' : Simulation.run outer subject remaining sim' = some best') :
    best' = best.map Slots.enclose := by
  -- The induction is on the bytes that are left.
  induction remaining generalizing sim sim' with
  | zero =>
    rw [Simulation.run, Option.map_eq_some_iff] at hrun hrun'
    obtain ⟨next, hseed, rfl⟩ := hrun
    obtain ⟨next', hseed', rfl⟩ := hrun'
    obtain ⟨first, hnext, -⟩ := h.seed hencl rfl hseed hseed'
    exact (hnext.harvest hencl).best_eq
  | succ remaining ih =>
    rw [run_succ, Option.bind_eq_some_iff] at hrun hrun'
    obtain ⟨next, hseed, hproceed⟩ := hrun
    obtain ⟨next', hseed', hproceed'⟩ := hrun'
    obtain ⟨first, hnext, hfirst⟩ := h.seed hencl rfl hseed hseed'
    have hharvest := hnext.harvest hencl
    rw [proceed] at hproceed hproceed'
    rw [hnext.isSettled_eq hencl hfirst] at hproceed'
    split at hproceed
    · rename_i hsettled
      rw [if_pos hsettled] at hproceed'
      cases hproceed
      cases hproceed'
      exact hharvest.best_eq
    · rename_i hsettled
      rw [if_neg hsettled] at hproceed'
      obtain ⟨b, hb⟩ :=
        Subject.exists_byteAt? (show subject.size - (remaining + 1) < subject.size by omega)
      rw [hb] at hproceed hproceed'
      obtain ⟨last, hadvance, hrest⟩ := Option.bind_eq_some_iff.1 hproceed
      obtain ⟨last', hadvance', hrest'⟩ := Option.bind_eq_some_iff.1 hproceed'
      have hlast := hharvest.advance hencl hadvance hadvance'
      have hpos : subject.size - (remaining + 1) + 1 = subject.size - remaining := by omega
      rw [hpos] at hlast
      exact ih hlast (Nat.le_of_succ_le hle) hrest hrest'

end Simulation

/-- A search finds the same match with a group around the automaton. -/
theorem search_enclose (hencl : outer.Encloses inner) {start : Nat} {best' : Option Slots}
    (h : inner.search subject start = some best) (h' : outer.search subject start = some best') :
    best' = best.map Slots.enclose := by
  unfold search at h h'
  split at h
  · rename_i hlt
    rw [if_pos hlt] at h'
    cases h
    cases h'
    rfl
  · rename_i hlt
    rw [if_neg hlt] at h'
    exact (Simulation.beside_init hencl _).run hencl (Nat.sub_le _ _) h h'

end Automaton

namespace Match

/-- The groups of a match come one number later when there is a group around it. -/
theorem group?_enclose (haystack : Array UInt8) (v : Slots) (group : Nat) :
    (⟨haystack, v.enclose⟩ : Match).group? (group + 1) = (⟨haystack, v⟩ : Match).group? group := by
  simp only [group?, Slots.span?, Slots.mark_enclose_succ]

end Match

namespace Regex

variable {pattern : List UInt8} {t : Expr} {o : Options} {r : Regex}

/-- What a pattern without back-references is compiled to. -/
theorem eq_automaton_of_compile (hr : compile pattern o = .ok r) (ht : Expr.parse pattern = .ok t)
    (hback : t.hasBackref = false) : r = ⟨pattern, o, .automaton (.ofExpr o t)⟩ := by
  obtain ⟨t', engine, ht', hengine, rfl⟩ := compile_eq_ok_iff.1 hr
  cases ht.symm.trans ht'
  cases engine with
  | automaton a =>
    obtain ⟨-, -, rfl⟩ := Automaton.engine_ofExpr_eq_automaton_iff.1 hengine
    rfl
  | enumeration u =>
    obtain ⟨hback', -⟩ := Automaton.engine_ofExpr_eq_enumeration_iff.1 hengine
    exact absurd (hback.symm.trans hback') Bool.false_ne_true

/-- Parentheses around a whole `pattern` change nothing else. When a pattern without
back-references, whose groups are nested at most 249 deep, is compiled to `r` and there is room for
two more states, it can be compiled in parentheses, too, to `r'`. Both searches come to their end,
in every text, and find a match or none alike. The match `m'` of the pattern in parentheses has one
group more than the match `m`: its groups 0 and 1 are both what group 0 of `m` is, and each further
group is the one before it in `m`, or both are unset. -/
theorem matchFrom_parenthesized (ht : Expr.parse pattern = .ok t) (hback : t.hasBackref = false)
    (hnesting : t.nesting ≤ 249) (hr : compile pattern o = .ok r)
    (hroom : ∀ a, r.automaton? = some a → a.states.size + 2 ≤ o.stateLimit) :
    ∃ r', compile ('('.toUInt8 :: (pattern ++ [')'.toUInt8])) o = .ok r' ∧
      ∀ haystack start flags, ∃ found found', r.matchFrom haystack start flags = .ok found ∧
        r'.matchFrom haystack start flags = .ok found' ∧ (found' = none ↔ found = none) ∧
        ∀ m ∈ found, ∀ m' ∈ found', m'.size = m.size + 1 ∧ m'.group? 0 = m.group? 0 ∧
          ∀ i, m'.group? (i + 1) = m.group? i := by
  obtain rfl := eq_automaton_of_compile hr ht hback
  have ht' := Expr.parse_parenthesized ht hback hnesting
  have hback' : (Expr.group 1 (t.raise 1)).hasBackref = false :=
    (Expr.hasBackref_raise 1 t).trans hback
  have hlt : (Expr.group 1 (t.raise 1)).stateCount < o.stateLimit := by
    have hsize := hroom _ rfl
    rw [Automaton.size_ofExpr] at hsize
    rw [Automaton.stateCount_group_raise]
    omega
  refine ⟨_, compile_eq_automaton ht' hback' hlt, fun haystack start flags => ?_⟩
  -- The search of the enclosing automaton finds the same record, with one mark more.
  have hencl := Automaton.encloses_ofExpr o hback (Expr.wellFormed_of_parse ht)
  obtain ⟨best, hsearch, -⟩ := Automaton.search_settles
    (Automaton.scoped_ofExpr o (Expr.orderly_of_parse ht)) ⟨haystack, o, flags⟩ start
  obtain ⟨best', hsearch', -⟩ := Automaton.search_settles
    (Automaton.scoped_ofExpr o (Expr.orderly_of_parse ht')) ⟨haystack, o, flags⟩ start
  obtain rfl := Automaton.search_enclose hencl hsearch hsearch'
  refine ⟨best.map (Match.mk haystack), (best.map Slots.enclose).map (Match.mk haystack),
    by simp only [matchFrom, search, hsearch]; rfl, by simp only [matchFrom, search, hsearch']; rfl,
    by simp, fun m hm m' hm' => ?_⟩
  cases best with
  | none => cases hm
  | some v =>
    cases hm
    cases hm'
    exact ⟨rfl, rfl, Match.group?_enclose haystack v⟩

/-- In `xab` the match of `a(b)?` is `ab`, with `b` for the group. In parentheses that is
group 2. -/
theorem matchFrom_parenthesized_optional :
    let t : Expr := .concat [.literal 97, .loop (.group 1 (.literal 98)) 0 (some 1)]
    let r : Regex := ⟨[97, 40, 98, 41, 63], {}, .automaton (.ofExpr {} t)⟩
    Expr.parse [97, 40, 98, 41, 63] = .ok t ∧ t.hasBackref = false ∧ t.nesting ≤ 249 ∧
      compile [97, 40, 98, 41, 63] {} = .ok r ∧
      r.matchFrom #[120, 97, 98] 0 {} =
        .ok (some ⟨#[120, 97, 98], [⟨some 1, some 3⟩, ⟨some 2, some 3⟩]⟩) ∧
      ∃ r' m', compile [40, 97, 40, 98, 41, 63, 41] {} = .ok r' ∧
        r'.matchFrom #[120, 97, 98] 0 {} = .ok (some m') ∧ m'.size = 3 ∧
        m'.group? 1 = some ⟨#[120, 97, 98], 1, 3⟩ ∧ m'.group? 2 = some ⟨#[120, 97, 98], 2, 3⟩ := by
  intro t r
  have hparse : Expr.parse [97, 40, 98, 41, 63] = .ok t := rfl
  have hback : t.hasBackref = false := rfl
  have hnesting : t.nesting ≤ 249 := by decide
  have hcompile : compile [97, 40, 98, 41, 63] {} = .ok r :=
    compile_eq_automaton hparse hback (by decide)
  have hroom : ∀ a, r.automaton? = some a → a.states.size + 2 ≤ ({} : Options).stateLimit := by
    intro a ha
    cases ha
    rw [Automaton.size_ofExpr]
    decide
  have hmatch : r.matchFrom #[120, 97, 98] 0 {} =
      .ok (some ⟨#[120, 97, 98], [⟨some 1, some 3⟩, ⟨some 2, some 3⟩]⟩) := by decide +kernel
  obtain ⟨r', hcompile', hagree⟩ :=
    matchFrom_parenthesized hparse hback hnesting hcompile hroom
  obtain ⟨found, found', hfound, hfound', hnone, hgroups⟩ := hagree #[120, 97, 98] 0 {}
  cases hmatch.symm.trans hfound
  cases found' with
  | none => cases hnone.1 rfl
  | some m' =>
    obtain ⟨hsize, -, hsucc⟩ := hgroups _ rfl m' rfl
    exact ⟨hparse, hback, hnesting, hcompile, hmatch, r', m', hcompile', hfound', hsize, hsucc 0,
      hsucc 1⟩

end Regex

end PosixRegex
