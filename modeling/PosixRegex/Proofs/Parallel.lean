import PosixRegex.Proofs.Lockstep
import PosixRegex.Proofs.View

/-!
# Simulations side by side

Two simulations of one automaton, over a window and over the text around it, go through the same
threads. They need not be the same sets: a thread from which no match can come may occur in one of
them and not in the other. Such a thread is out of view, and so are all threads that come from it,
so it neither keeps a thread in view from arriving nor changes the order of those that do.

- `Closes`: a choice of the states in view that nothing leads back to.
- `IsWindow`: windows of a text for an automaton.
- `Simulation.Alike`: simulations that look alike.
- `Simulation.run_alike`: they end alike, unless the longer one goes on behind the window.
-/

namespace PosixRegex

/-- Before the end of a text there is a byte. -/
theorem Subject.exists_byteAt? {subject : Subject} {pos : Nat} (h : pos < subject.size) :
    ∃ b, subject.byteAt? pos = some b :=
  ⟨_, Array.getElem?_eq_getElem h⟩

namespace Automaton

/-- A choice of the states in view at each position of a window that stands at `d`: no state out of
view leads to one in view, and the accepting state is always in view. -/
structure Closes (a : Automaton) (subject : Subject) (d : Nat) (live : Nat → Nat → Bool) :
    Prop where
  /-- Matches are in view. -/
  accept : ∀ pos, live pos a.accept = true
  /-- No state out of view moves to one in view. -/
  shut : ∀ pos, a.Shut subject (pos + d) (live pos)
  /-- No state out of view reads a byte that leads to one in view. -/
  reads : ∀ (pos q : Nat) (b : UInt8) (target : Nat), subject.byteAt? (pos + d) = some b →
    a.states[q]?.bind (State.step? b) = some target → live pos q = false →
      live (pos + 1) target = false

/-- A text that stands in another one from the position `d` on, as far as an automaton can tell. -/
structure IsWindow (a : Automaton) (near far : Subject) (d : Nat) : Prop where
  /-- The window ends where the other text ends, or before. -/
  size_le : near.size + d ≤ far.size
  /-- An anchor holds in the window where it holds in the other text. -/
  holds_eq : ∀ pos ≤ near.size, ∀ kind, far.holds (pos + d) kind = near.holds pos kind
  /-- A state reads what it reads in the other text, and nothing at the end of the window. -/
  step?_eq : ∀ pos ≤ near.size, ∀ q : Nat,
    ((far.byteAt? (pos + d)).bind fun b => a.states[q]?.bind (State.step? b)) =
      (near.byteAt? pos).bind fun b => a.states[q]?.bind (State.step? b)

variable {a : Automaton} {subject near far : Subject} {pos d : Nat} {live : Nat → Nat → Bool}
  {b b' : UInt8} {best best' : Option Slots} {t t' u u' : ThreadSet}
  {openVisits openVisits' openVisits'' : Array Nat}

/-! ### Advancing -/

section Advance

variable {current current' : ThreadSet} {id : Nat} {ids ids' : List Nat}

/-- A thread is as late as it is further on. -/
theorem isLate_shift (d : Nat) (best : Option Slots) (v : Slots) :
    isLate (best.map (·.shift d)) (v.shift d) = isLate best v := by
  have hfirst : (best.map (·.shift d)).bind Slots.start? =
      (best.bind Slots.start?).map (· + d) := by
    cases best <;> simp
  unfold isLate
  rw [hfirst, Slots.start?_shift]
  cases best.bind Slots.start? <;> cases v.start? <;> simp

/-- A state that reads a byte has a record with a mark for each group. -/
theorem length_record_of_step? (h : current.Wellformed a.states.size a.groupCount) {target : Nat}
    (htarget : a.states[id]?.bind (State.step? b) = some target) :
    (current.record id).length = a.groupCount + 1 := by
  obtain ⟨st, hst, -⟩ := Option.bind_eq_some_iff.1 htarget
  exact h.length_record (Array.getElem?_eq_some_iff.1 hst).1

variable (ha : a.Nests) (hcurrent : current.Wellformed a.states.size a.groupCount)

include ha hcurrent

/-- Advancing a thread leaves no visit open, and the set of threads well-formed. -/
theorem advanceThread_wellformed
    (h : advanceThread a subject pos b best current (t, openVisits) id = some (t', openVisits'))
    (hwf : t.Wellformed a.states.size a.groupCount) :
    openVisits' = openVisits ∧ t'.Wellformed a.states.size a.groupCount := by
  unfold advanceThread at h
  split at h
  · cases h
    exact ⟨rfl, hwf⟩
  · rename_i target htarget
    split at h
    · cases h
      exact ⟨rfl, hwf⟩
    · -- Whatever is in view.
      obtain ⟨hopen, hwf', -⟩ := addThread_view ha h hwf
        (length_record_of_step? hcurrent htarget) (a.shut_nothing subject pos)
      exact ⟨hopen, hwf'⟩

/-- Advancing a thread that is out of view cannot be seen. -/
theorem advanceThread_visible_of_dead (hlive : a.Closes subject d live)
    (hb : subject.byteAt? (pos + d) = some b) (hdead : live pos id = false)
    (h : advanceThread a subject (pos + d + 1) b best current (t, openVisits) id =
      some (t', openVisits')) (hwf : t.Wellformed a.states.size a.groupCount) :
    t'.visible (live (pos + 1)) = t.visible (live (pos + 1)) := by
  unfold advanceThread at h
  split at h
  · cases h
    rfl
  · rename_i target htarget
    split at h
    · cases h
      rfl
    · have hshut := hlive.shut (pos + 1)
      rw [Nat.add_right_comm] at hshut
      exact addThread_visible_of_dead ha h hwf (length_record_of_step? hcurrent htarget) hshut
        (hlive.reads pos id b target hb htarget hdead)

/-- Advancing a thread in sets that look alike. -/
theorem advanceThread_visible (hwindow : a.IsWindow near far d) (hnear : a.Closes near 0 live)
    (hfar : a.Closes far d live) (hpos : pos < near.size) (hb : near.byteAt? pos = some b)
    (hb' : far.byteAt? (pos + d) = some b')
    (hrecord : current'.record id = (current.record id).shift d)
    (h : advanceThread a near (pos + 1) b best current (t, openVisits) id = some (t', openVisits'))
    (h' : advanceThread a far (pos + d + 1) b' (best.map (·.shift d)) current' (u, openVisits) id =
      some (u', openVisits''))
    (hwf : t.Wellformed a.states.size a.groupCount) (hwf' : u.Wellformed a.states.size a.groupCount)
    (hvisible : u.visible (live (pos + 1)) = ThreadSet.shiftAll d (t.visible (live (pos + 1)))) :
    u'.visible (live (pos + 1)) = ThreadSet.shiftAll d (t'.visible (live (pos + 1))) := by
  have hstep : a.states[id]?.bind (State.step? b') = a.states[id]?.bind (State.step? b) := by
    have := hwindow.step?_eq pos (Nat.le_of_lt hpos) id
    rwa [hb, hb'] at this
  have hright : pos + d + 1 = pos + 1 + d := Nat.add_right_comm pos d 1
  unfold advanceThread at h h'
  rw [hstep, hrecord, isLate_shift] at h'
  -- Both threads do not read the byte, or both are late, or both go on.
  split at h
  · rename_i hnone
    rw [hnone] at h'
    cases h
    cases h'
    exact hvisible
  · rename_i target htarget
    rw [htarget] at h'
    dsimp only at h'
    split at h
    · rename_i hlate
      rw [if_pos hlate] at h'
      cases h
      cases h'
      exact hvisible
    · rename_i hlate
      rw [if_neg hlate, hright] at h'
      exact addThread_visible ha (hwindow.holds_eq (pos + 1) hpos) h h' hwf hwf'
        (length_record_of_step? hcurrent htarget)
        (hnear.shut (pos + 1)) (hfar.shut (pos + 1)) hvisible

/-- Advancing several threads leaves no visit open, and the set of threads well-formed. -/
theorem advanceThreads_wellformed (h : ids.foldlM (advanceThread a subject pos b best current)
      (t, openVisits) = some (t', openVisits')) (hwf : t.Wellformed a.states.size a.groupCount) :
    openVisits' = openVisits ∧ t'.Wellformed a.states.size a.groupCount := by
  induction ids generalizing t openVisits with
  | nil =>
    cases h
    exact ⟨rfl, hwf⟩
  | cons id ids ih =>
    rw [List.foldlM_cons] at h
    obtain ⟨⟨t₁, openVisits₁⟩, hhead, hrest⟩ := Option.bind_eq_some_iff.1 h
    obtain ⟨rfl, hwf₁⟩ := advanceThread_wellformed ha hcurrent hhead hwf
    exact ih hrest hwf₁

/-- Advancing threads that are all out of view cannot be seen. -/
theorem advanceThreads_visible_of_dead (hlive : a.Closes subject d live)
    (hb : subject.byteAt? (pos + d) = some b) (hdead : ∀ id ∈ ids, live pos id = false)
    (h : ids.foldlM (advanceThread a subject (pos + d + 1) b best current) (t, openVisits) =
      some (t', openVisits')) (hwf : t.Wellformed a.states.size a.groupCount) :
    t'.visible (live (pos + 1)) = t.visible (live (pos + 1)) := by
  induction ids generalizing t openVisits with
  | nil =>
    cases h
    rfl
  | cons id ids ih =>
    rw [List.foldlM_cons] at h
    obtain ⟨⟨t₁, openVisits₁⟩, hhead, hrest⟩ := Option.bind_eq_some_iff.1 h
    obtain ⟨-, hwf₁⟩ := advanceThread_wellformed ha hcurrent hhead hwf
    rw [ih (fun q hq => hdead q (List.mem_cons_of_mem id hq)) hrest hwf₁]
    exact advanceThread_visible_of_dead ha hcurrent hlive hb (hdead id List.mem_cons_self) hhead hwf

/-- Advancing threads that look alike, one after the other in the same order, with any number of
threads out of view between them. -/
theorem advanceThreads_visible (hcurrent' : current'.Wellformed a.states.size a.groupCount)
    (hwindow : a.IsWindow near far d)
    (hnear : a.Closes near 0 live) (hfar : a.Closes far d live) (hpos : pos < near.size)
    (hb : near.byteAt? pos = some b) (hb' : far.byteAt? (pos + d) = some b')
    (hids : ids'.filter (live pos) = ids.filter (live pos))
    (hrecord : ∀ id ∈ ids.filter (live pos), current'.record id = (current.record id).shift d)
    (h : ids.foldlM (advanceThread a near (pos + 1) b best current) (t, openVisits) =
      some (t', openVisits'))
    (h' : ids'.foldlM (advanceThread a far (pos + d + 1) b' (best.map (·.shift d)) current')
      (u, openVisits) = some (u', openVisits''))
    (hwf : t.Wellformed a.states.size a.groupCount) (hwf' : u.Wellformed a.states.size a.groupCount)
    (hvisible : u.visible (live (pos + 1)) = ThreadSet.shiftAll d (t.visible (live (pos + 1)))) :
    u'.visible (live (pos + 1)) = ThreadSet.shiftAll d (t'.visible (live (pos + 1))) := by
  -- The induction is on the threads in view, which both have in common.
  generalize hcommon : ids.filter (live pos) = common at hids hrecord
  induction common generalizing ids ids' t u with
  | nil =>
    have hdead {ids : List Nat} (h : ids.filter (live pos) = []) :
        ∀ id ∈ ids, live pos id = false :=
      fun id hid => Bool.eq_false_iff.2 (List.filter_eq_nil_iff.1 h id hid)
    rw [advanceThreads_visible_of_dead ha hcurrent' hfar hb' (hdead hids) h' hwf',
      advanceThreads_visible_of_dead ha hcurrent hnear hb (hdead hcommon) h hwf, hvisible]
  | cons id common ih =>
    obtain ⟨before, after, rfl, hbefore, -, hafter⟩ := List.filter_eq_cons_iff.1 hcommon
    obtain ⟨before', after', rfl, hbefore', -, hafter'⟩ := List.filter_eq_cons_iff.1 hids
    have hdead {ids : List Nat} (h : ∀ id ∈ ids, ¬live pos id = true) :
        ∀ id ∈ ids, live pos id = false := fun id hid => Bool.eq_false_iff.2 (h id hid)
    simp only [List.foldlM_append, List.foldlM_cons, Option.bind_eq_bind,
      Option.bind_eq_some_iff] at h h'
    obtain ⟨⟨t₁, o₁⟩, h₁, ⟨t₂, o₂⟩, h₂, h⟩ := h
    obtain ⟨⟨u₁, o₁'⟩, h₁', ⟨u₂, o₂'⟩, h₂', h'⟩ := h'
    obtain ⟨rfl, hwf₁⟩ := advanceThreads_wellformed ha hcurrent h₁ hwf
    obtain ⟨rfl, hwf₂⟩ := advanceThread_wellformed ha hcurrent h₂ hwf₁
    obtain ⟨rfl, hwf₁'⟩ := advanceThreads_wellformed ha hcurrent' h₁' hwf'
    obtain ⟨rfl, hwf₂'⟩ := advanceThread_wellformed ha hcurrent' h₂' hwf₁'
    have hvisible₁ : u₁.visible (live (pos + 1)) =
        ThreadSet.shiftAll d (t₁.visible (live (pos + 1))) := by
      rw [advanceThreads_visible_of_dead ha hcurrent' hfar hb' (hdead hbefore') h₁' hwf',
        advanceThreads_visible_of_dead ha hcurrent hnear hb (hdead hbefore) h₁ hwf, hvisible]
    have hvisible₂ := advanceThread_visible ha hcurrent hwindow hnear hfar hpos hb hb'
      (hrecord id List.mem_cons_self) h₂ h₂' hwf₁ hwf₁' hvisible₁
    exact ih h h' hwf₂ hwf₂' hvisible₂ hafter hafter'
      fun q hq => hrecord q (List.mem_cons_of_mem id hq)

end Advance

/-! ### Simulations -/

namespace Simulation

variable {sim sim' next next' : Simulation}

/-- A simulation between two bytes: there is room for the threads of the next position, and none of
them yet. -/
structure Sound (a : Automaton) (sim : Simulation) : Prop where
  /-- A group that is entered is among those that are forgotten then. -/
  nests : a.Nests
  /-- The threads of this position. -/
  current : sim.current.Wellformed a.states.size a.groupCount
  /-- The room for those of the next one. -/
  spare : sim.spare.Wellformed a.states.size a.groupCount
  /-- There is nothing in that room. -/
  spare_empty : sim.spare.dense = #[]

theorem sound_init (ha : a.Nests) : (init a).Sound a :=
  ⟨ha, ThreadSet.wellformed_empty _ _, ThreadSet.wellformed_empty _ _, rfl⟩

theorem Sound.visible_spare (h : sim.Sound a) (live : Nat → Bool) :
    sim.spare.visible live = [] := by
  rw [ThreadSet.visible, h.spare_empty]
  rfl

/-- No thread begins once a match is known. -/
theorem seed_of_isSome (h : sim.best.isSome) : sim.seed a subject pos = some sim := by
  obtain ⟨current, spare, openVisits, best⟩ := sim
  cases best with
  | none => cases h
  | some v => rfl

theorem seed_of_none (h : sim.best = none) : sim.seed a subject pos =
    (addThread a subject pos sim.current sim.openVisits a.start (.initial a.groupCount pos)).map
      fun next => ⟨next.1, sim.spare, next.2, none⟩ := by
  obtain ⟨current, spare, openVisits, best⟩ := sim
  cases h
  unfold seed
  dsimp only
  cases addThread a subject pos current openVisits a.start (.initial a.groupCount pos) <;> rfl

theorem advance_eq (a : Automaton) (subject : Subject) (pos : Nat) (b : UInt8) (sim : Simulation) :
    sim.advance a subject pos b =
      (sim.current.dense.toList.foldlM (advanceThread a subject pos b sim.best sim.current)
        (sim.spare, sim.openVisits)).map
          fun next => ⟨next.1, sim.current.clear, next.2, sim.best⟩ := by
  obtain ⟨current, spare, openVisits, best⟩ := sim
  unfold advance
  rw [Array.foldlM_toList]
  dsimp only
  cases current.dense.foldlM (advanceThread a subject pos b best current) (spare, openVisits) <;>
    rfl

/-- Beginning a thread keeps a simulation sound. -/
theorem Sound.seed (h : sim.Sound a) (hseed : sim.seed a subject pos = some next) :
    next.Sound a ∧ next.openVisits = sim.openVisits ∧ next.best = sim.best := by
  cases hbest : sim.best with
  | some v =>
    rw [seed_of_isSome (by rw [hbest]; rfl)] at hseed
    cases hseed
    exact ⟨h, rfl, hbest⟩
  | none =>
    rw [seed_of_none hbest] at hseed
    obtain ⟨⟨current, openVisits⟩, hadd, rfl⟩ := Option.map_eq_some_iff.1 hseed
    obtain ⟨hopen, hwf, -⟩ := addThread_view h.nests hadd h.current (Slots.length_initial _ _)
      (a.shut_nothing subject pos)
    exact ⟨⟨h.nests, hwf, h.spare, h.spare_empty⟩, hopen, rfl⟩

/-- Taking a match changes no thread. -/
theorem harvest_eq (a : Automaton) (pos : Nat) (sim : Simulation) :
    sim.harvest a pos = { sim with best := (sim.harvest a pos).best } := by
  unfold harvest
  split
  · dsimp only
    split <;> rfl
  · rfl

theorem Sound.harvest (h : sim.Sound a) (pos : Nat) : (sim.harvest a pos).Sound a := by
  rw [harvest_eq]
  exact ⟨h.nests, h.current, h.spare, h.spare_empty⟩

/-- Neither beginning a thread nor taking a match leaves a visit open. -/
theorem Sound.openVisits_harvest (h : sim.Sound a) (hseed : sim.seed a subject pos = some next)
    (stop : Nat) : (next.harvest a stop).openVisits = sim.openVisits := by
  rw [harvest_eq]
  exact (h.seed hseed).2.1

/-- Advancing keeps a simulation sound. -/
theorem Sound.advance (h : sim.Sound a) (hadvance : sim.advance a subject pos b = some next) :
    next.Sound a ∧ next.openVisits = sim.openVisits ∧ next.best = sim.best := by
  rw [advance_eq] at hadvance
  obtain ⟨⟨current, openVisits⟩, hfold, rfl⟩ := Option.map_eq_some_iff.1 hadvance
  obtain ⟨hopen, hwf⟩ := advanceThreads_wellformed h.nests h.current hfold h.spare
  exact ⟨⟨h.nests, hwf, h.current.clear, rfl⟩, hopen, rfl⟩

/-! ### Simulations with nothing in view -/

/-- Advancing threads none of which is in view leaves nothing in view. -/
theorem advance_visible_of_nil (hlive : a.Closes subject d live) (h : sim.Sound a)
    (hb : subject.byteAt? (pos + d) = some b) (hnil : sim.current.visible (live pos) = [])
    (hadvance : sim.advance a subject (pos + d + 1) b = some next) :
    next.current.visible (live (pos + 1)) = [] := by
  rw [advance_eq] at hadvance
  obtain ⟨⟨current, openVisits⟩, hfold, rfl⟩ := Option.map_eq_some_iff.1 hadvance
  have hdead : ∀ id ∈ sim.current.dense.toList, live pos id = false := by
    rw [ThreadSet.visible, List.map_eq_nil_iff, List.filter_eq_nil_iff] at hnil
    exact fun id hid => Bool.eq_false_iff.2 (hnil id hid)
  rw [advanceThreads_visible_of_dead h.nests h.current hlive hb hdead hfold h.spare,
    h.visible_spare]

/-- Without threads in view there is no match to take. -/
theorem harvest_of_nil (hlive : a.Closes subject d live) (h : sim.Sound a)
    (hnil : sim.current.visible (live pos) = []) (stop : Nat) : sim.harvest a stop = sim := by
  have hlookup := h.current.lookup_visible (hlive.accept pos)
  rw [hnil] at hlookup
  unfold harvest
  split
  · rename_i hcontains
    rw [if_pos hcontains] at hlookup
    cases hlookup
  · rfl

/-- What a simulation does after a match has been taken, when `remaining + 1` bytes are left. -/
def proceed (a : Automaton) (subject : Subject) (remaining : Nat) (sim : Simulation) :
    Option (Option Slots) :=
  if sim.isSettled then some sim.best
  else
    match subject.byteAt? (subject.size - (remaining + 1)) with
    | none => some sim.best
    | some b =>
      (sim.advance a subject (subject.size - (remaining + 1) + 1) b).bind (run a subject remaining)

theorem run_succ (a : Automaton) (subject : Subject) (remaining : Nat) (sim : Simulation) :
    run a subject (remaining + 1) sim =
      (sim.seed a subject (subject.size - (remaining + 1))).bind fun next =>
        (next.harvest a (subject.size - (remaining + 1))).proceed a subject remaining := by
  rw [run, Option.bind_eq_bind]
  refine Option.bind_congr fun next _ => ?_
  unfold proceed
  dsimp only
  cases subject.byteAt? (subject.size - (remaining + 1)) <;>
    cases (next.harvest a (subject.size - (remaining + 1))).isSettled <;> rfl

/-- When a match is known and nothing is in view, the match is the outcome. -/
theorem run_of_nil (hlive : a.Closes subject d live) {remaining : Nat}
    (hle : remaining ≤ subject.size) (hpos : pos + d = subject.size - remaining) (h : sim.Sound a)
    (hnil : sim.current.visible (live pos) = []) (hsome : sim.best.isSome)
    (hrun : run a subject remaining sim = some best) : best = sim.best := by
  -- A match is known, so no thread is begun, and nothing comes into view again.
  induction remaining generalizing sim pos with
  | zero =>
    rw [run, seed_of_isSome hsome, Option.map_some, harvest_of_nil hlive h hnil] at hrun
    exact (Option.some.inj hrun).symm
  | succ remaining ih =>
    rw [run_succ, seed_of_isSome hsome, Option.bind_some, harvest_of_nil hlive h hnil,
      proceed] at hrun
    split at hrun
    · exact (Option.some.inj hrun).symm
    · split at hrun
      · exact (Option.some.inj hrun).symm
      · rename_i b hb
        rw [← hpos] at hb hrun
        obtain ⟨next, hadvance, hrest⟩ := Option.bind_eq_some_iff.1 hrun
        obtain ⟨hsound, -, hbest⟩ := h.advance hadvance
        rw [← hbest]
        have hnext : pos + 1 + d = subject.size - remaining := by omega
        exact ih (by omega) hnext hsound
          (advance_visible_of_nil hlive h hb hnil hadvance) (by rwa [hbest]) hrest

/-! ### Simulations that look alike -/

/-- Two simulations that look alike, one of them further on. -/
structure Alike (a : Automaton) (d : Nat) (live : Nat → Bool) (sim sim' : Simulation) : Prop where
  /-- The first simulation is sound. -/
  sound : sim.Sound a
  /-- The other simulation is sound. -/
  sound' : sim'.Sound a
  /-- They have the same threads in view, in the same order. -/
  visible_eq : sim'.current.visible live = ThreadSet.shiftAll d (sim.current.visible live)
  /-- They have the same visits that are not over. -/
  openVisits_eq : sim'.openVisits = sim.openVisits
  /-- They have found the same match. -/
  best_eq : sim'.best = sim.best.map (·.shift d)

/-- Beginning threads in simulations that look alike. -/
theorem Alike.seed (h : Alike a d (live pos) sim sim') (hwindow : a.IsWindow near far d)
    (hnear : a.Closes near 0 live) (hfar : a.Closes far d live) (hpos : pos ≤ near.size)
    (hseed : sim.seed a near pos = some next) (hseed' : sim'.seed a far (pos + d) = some next') :
    Alike a d (live pos) next next' := by
  obtain ⟨hsound, hopen, hbest⟩ := h.sound.seed hseed
  obtain ⟨hsound', hopen', hbest'⟩ := h.sound'.seed hseed'
  refine ⟨hsound, hsound', ?_, by rw [hopen, hopen', h.openVisits_eq], by
    rw [hbest, hbest', h.best_eq]⟩
  -- Both know a match and begin nothing, or both begin a thread.
  cases hknown : sim.best with
  | some v =>
    rw [seed_of_isSome (by rw [hknown]; rfl)] at hseed
    rw [seed_of_isSome (by rw [h.best_eq, hknown]; rfl)] at hseed'
    cases hseed
    cases hseed'
    exact h.visible_eq
  | none =>
    rw [seed_of_none hknown] at hseed
    rw [seed_of_none (by rw [h.best_eq, hknown]; rfl), ← Slots.shift_initial,
      h.openVisits_eq] at hseed'
    obtain ⟨⟨current, openVisits⟩, hadd, rfl⟩ := Option.map_eq_some_iff.1 hseed
    obtain ⟨⟨current', openVisits'⟩, hadd', rfl⟩ := Option.map_eq_some_iff.1 hseed'
    exact addThread_visible h.sound.nests (hwindow.holds_eq pos hpos) hadd hadd' h.sound.current
      h.sound'.current (Slots.length_initial _ _) (hnear.shut pos) (hfar.shut pos) h.visible_eq

/-- Taking matches in simulations that look alike. -/
theorem Alike.harvest (h : Alike a d (live pos) sim sim') (haccept : live pos a.accept = true) :
    Alike a d (live pos) (sim.harvest a pos) (sim'.harvest a (pos + d)) := by
  have hlookup := h.sound.current.lookup_visible haccept
  have hlookup' := h.sound'.current.lookup_visible haccept
  rw [h.visible_eq, ThreadSet.lookup_shiftAll, hlookup] at hlookup'
  have hbest : (sim'.harvest a (pos + d)).best = (sim.harvest a pos).best.map (·.shift d) := by
    unfold Simulation.harvest
    -- As the accepting state is in view, both have come to it or neither has.
    cases hcontains : sim.current.contains a.accept with
    | false =>
      cases hcontains' : sim'.current.contains a.accept with
      | false => exact h.best_eq
      | true => simp [hcontains, hcontains'] at hlookup'
    | true =>
      cases hcontains' : sim'.current.contains a.accept with
      | false => simp [hcontains, hcontains'] at hlookup'
      | true =>
        simp only [hcontains, hcontains', if_true, Option.map_some, Option.some.injEq] at hlookup'
        simp only [if_true, ← hlookup', ← Slots.shift_leave, h.best_eq, Slots.all_beats_shift]
        split
        · rfl
        · exact h.best_eq
  refine ⟨h.sound.harvest pos, h.sound'.harvest (pos + d), ?_, ?_, hbest⟩
  · rw [harvest_eq a pos sim, harvest_eq a (pos + d) sim']
    exact h.visible_eq
  · rw [harvest_eq a pos sim, harvest_eq a (pos + d) sim']
    exact h.openVisits_eq

/-- Advancing simulations that look alike. -/
theorem Alike.advance (h : Alike a d (live pos) sim sim') (hwindow : a.IsWindow near far d)
    (hnear : a.Closes near 0 live) (hfar : a.Closes far d live) (hpos : pos < near.size)
    (hb : near.byteAt? pos = some b) (hb' : far.byteAt? (pos + d) = some b')
    (hadvance : sim.advance a near (pos + 1) b = some next)
    (hadvance' : sim'.advance a far (pos + d + 1) b' = some next') :
    Alike a d (live (pos + 1)) next next' := by
  obtain ⟨hsound, hopen, hbest⟩ := h.sound.advance hadvance
  obtain ⟨hsound', hopen', hbest'⟩ := h.sound'.advance hadvance'
  refine ⟨hsound, hsound', ?_, by rw [hopen, hopen', h.openVisits_eq], by
    rw [hbest, hbest', h.best_eq]⟩
  rw [advance_eq] at hadvance hadvance'
  rw [h.best_eq, h.openVisits_eq] at hadvance'
  obtain ⟨⟨current, openVisits⟩, hfold, rfl⟩ := Option.map_eq_some_iff.1 hadvance
  obtain ⟨⟨current', openVisits'⟩, hfold', rfl⟩ := Option.map_eq_some_iff.1 hadvance'
  -- The threads in view are in the same states, with the same records.
  have hvisible := h.visible_eq
  have hids : sim'.current.dense.toList.filter (live pos) =
      sim.current.dense.toList.filter (live pos) := by
    have := congrArg (List.map Prod.fst) hvisible
    simpa [ThreadSet.visible, ThreadSet.shiftAll, Function.comp_def] using this
  have hrecord : ∀ id ∈ sim.current.dense.toList.filter (live pos),
      sim'.current.record id = (sim.current.record id).shift d := by
    rw [ThreadSet.visible, ThreadSet.visible, hids, ThreadSet.shiftAll, List.map_map] at hvisible
    intro id hid
    exact (Prod.mk.inj (List.map_inj_left.1 hvisible id hid)).2
  refine advanceThreads_visible h.sound.nests h.sound.current h.sound'.current hwindow hnear hfar
    hpos hb hb' hids hrecord hfold hfold' h.sound.spare h.sound'.spare ?_
  rw [h.sound.visible_spare, h.sound'.visible_spare]
  rfl

/-! ### Running side by side -/

/-- A simulation in which a match is known and nothing is in view has its outcome. -/
theorem proceed_of_nil (hlive : a.Closes subject d live) {remaining : Nat}
    (hle : remaining + 1 ≤ subject.size) (hpos : pos + d = subject.size - (remaining + 1))
    (h : sim.Sound a) (hnil : sim.current.visible (live pos) = []) (hsome : sim.best.isSome)
    (hrun : sim.proceed a subject remaining = some best) : best = sim.best := by
  refine run_of_nil hlive hle hpos h hnil hsome ?_
  rwa [run_succ, seed_of_isSome hsome, Option.bind_some, harvest_of_nil hlive h hnil]

/-- A simulation that is not settled goes on over the next byte. -/
theorem exists_advance_of_proceed {remaining : Nat} (hsettled : sim.isSettled = false)
    (hb : subject.byteAt? (subject.size - (remaining + 1)) = some b)
    (hrun : sim.proceed a subject remaining = some best) :
    ∃ next, sim.advance a subject (subject.size - (remaining + 1) + 1) b = some next ∧
      run a subject remaining next = some best := by
  rw [proceed, hsettled, if_neg Bool.false_ne_true, hb] at hrun
  exact Option.bind_eq_some_iff.1 hrun

/-- A simulation is settled only when a match is known and there are no threads. -/
theorem isSettled_eq_false {live : Nat → Bool}
    (h : ¬(sim.current.visible live = [] ∧ sim.best.isSome)) : sim.isSettled = false := by
  rw [isSettled, Bool.and_eq_false_iff]
  by_contra hsettled
  rw [not_or, Bool.not_eq_false, Bool.not_eq_false, ThreadSet.isEmpty,
    Array.isEmpty_iff] at hsettled
  refine h ⟨?_, hsettled.2⟩
  rw [ThreadSet.visible, hsettled.1]
  rfl

/-- When no state reads a byte, all threads end there. -/
theorem advance_of_unread (hnone : ∀ q : Nat, a.states[q]?.bind (State.step? b) = none) :
    sim.advance a subject pos b =
      some ⟨sim.spare, sim.current.clear, sim.openVisits, sim.best⟩ := by
  have hfold (ids : List Nat) (next : ThreadSet × Array Nat) :
      ids.foldlM (advanceThread a subject pos b sim.best sim.current) next = some next := by
    induction ids with
    | nil => rfl
    | cons id ids ih =>
      have hhead : advanceThread a subject pos b sim.best sim.current next id = some next := by
        rw [advanceThread, hnone]
      rw [List.foldlM_cons, hhead]
      exact ih
  rw [advance_eq, hfold]
  rfl

/-- Behind the window a simulation begins anew, unless it has found a match. -/
theorem Alike.proceed_end (h : Alike a d (live near.size) sim sim')
    (hwindow : a.IsWindow near far d) (hfar : a.Closes far d live) {k : Nat}
    (hsize : near.size + d + (k + 1) = far.size) (hopen : sim.openVisits = (init a).openVisits)
    (hrun : sim'.proceed a far k = some best') :
    sim.best.isSome ∧ best' = sim.best.map (·.shift d) ∨
      sim.best = none ∧ ∃ next, Alike a 0 (live (near.size + 1)) (init a) next ∧
        run a far k next = some best' := by
  have hpos : far.size - (k + 1) = near.size + d := by omega
  by_cases hidle : sim'.current.visible (live near.size) = [] ∧ sim'.best.isSome
  -- A match is known and no thread in view is left, so the rest does not matter.
  · refine .inl ⟨?_, ?_⟩
    · simpa [h.best_eq] using hidle.2
    · rw [← h.best_eq]
      exact proceed_of_nil hfar (by omega) hpos.symm h.sound' hidle.1 hidle.2 hrun
  · -- There is a byte behind the window, which no state reads.
    obtain ⟨b, hb⟩ := Subject.exists_byteAt? (show near.size + d < far.size by omega)
    have hnear : near.byteAt? near.size = none := Array.getElem?_eq_none (Nat.le_refl _)
    have hnone (q : Nat) : a.states[q]?.bind (State.step? b) = none := by
      have := hwindow.step?_eq near.size (Nat.le_refl _) q
      rwa [hb, hnear] at this
    obtain ⟨next, hadvance, hrest⟩ :=
      exists_advance_of_proceed (isSettled_eq_false hidle) (hpos ▸ hb) hrun
    obtain ⟨hsound, hopen', hbest⟩ := h.sound'.advance hadvance
    rw [advance_of_unread hnone] at hadvance
    have hnil : next.current.visible (live (near.size + 1)) = [] := by
      cases hadvance
      exact h.sound'.visible_spare _
    rw [h.best_eq] at hbest
    cases hknown : sim.best with
    | some v =>
      rw [hknown] at hbest
      refine .inl ⟨rfl, ?_⟩
      rw [← hbest]
      have hnext : near.size + 1 + d = far.size - k := by omega
      exact run_of_nil hfar (by omega) hnext hsound hnil (by rw [hbest]; rfl) hrest
    | none =>
      rw [hknown] at hbest
      refine .inr ⟨rfl, next, ⟨sound_init h.sound.nests, hsound, ?_, ?_, hbest⟩, hrest⟩
      · rw [hnil]
        rfl
      · rw [hopen', h.openVisits_eq, hopen]

/-- Within the window two simulations that look alike both have their outcome, or both go on over
the next byte. -/
theorem Alike.proceed {remaining extra : Nat}
    (h : Alike a d (live (near.size - (remaining + 1))) sim sim') (hwindow : a.IsWindow near far d)
    (hnear : a.Closes near 0 live) (hfar : a.Closes far d live) (hle : remaining + 1 ≤ near.size)
    (hsize : near.size + d + extra = far.size)
    (hrun : sim.proceed a near remaining = some best)
    (hrun' : sim'.proceed a far (remaining + extra) = some best') :
    best.isSome ∧ best' = best.map (·.shift d) ∨
      ∃ next next', Alike a d (live (near.size - remaining)) next next' ∧
        next.openVisits = sim.openVisits ∧ run a near remaining next = some best ∧
        run a far (remaining + extra) next' = some best' := by
  have hnext : near.size - (remaining + 1) + 1 = near.size - remaining := by omega
  have hpos' : far.size - (remaining + extra + 1) = near.size - (remaining + 1) + d := by omega
  by_cases hidle : sim.current.visible (live (near.size - (remaining + 1))) = [] ∧ sim.best.isSome
  · -- The match is known to both, and neither can find a better one.
    have hnil' : sim'.current.visible (live (near.size - (remaining + 1))) = [] := by
      rw [h.visible_eq, hidle.1]
      rfl
    have hsome' : sim'.best.isSome := by
      rw [h.best_eq, Option.isSome_map]
      exact hidle.2
    rw [proceed_of_nil hnear hle rfl h.sound hidle.1 hidle.2 hrun,
      proceed_of_nil hfar (by omega) hpos'.symm h.sound' hnil' hsome' hrun']
    exact .inl ⟨hidle.2, h.best_eq⟩
  · have hidle' : ¬(sim'.current.visible (live (near.size - (remaining + 1))) = [] ∧
        sim'.best.isSome) := by
      rintro ⟨hnil, hsome⟩
      refine hidle ⟨?_, ?_⟩
      · simpa [h.visible_eq, ThreadSet.shiftAll] using hnil
      · simpa [h.best_eq] using hsome
    obtain ⟨b, hb⟩ :=
      Subject.exists_byteAt? (show near.size - (remaining + 1) < near.size by omega)
    obtain ⟨b', hb'⟩ :=
      Subject.exists_byteAt? (show near.size - (remaining + 1) + d < far.size by omega)
    obtain ⟨next, hadvance, hrest⟩ :=
      exists_advance_of_proceed (isSettled_eq_false hidle) hb hrun
    obtain ⟨next', hadvance', hrest'⟩ :=
      exists_advance_of_proceed (isSettled_eq_false hidle') (hpos' ▸ hb') hrun'
    rw [hpos'] at hadvance'
    have hadvanced := h.advance hwindow hnear hfar (by omega) hb hb' hadvance hadvance'
    rw [hnext] at hadvanced
    exact .inr ⟨next, next', hadvanced, (h.sound.advance hadvance).2.1, hrest, hrest'⟩

/-- Two simulations that look alike end with the same match. When they find none in the window, the
one over the longer text begins anew behind it. -/
theorem run_alike (hwindow : a.IsWindow near far d) (hnear : a.Closes near 0 live)
    (hfar : a.Closes far d live) {remaining extra : Nat} (hle : remaining ≤ near.size)
    (hsize : near.size + d + extra = far.size)
    (h : Alike a d (live (near.size - remaining)) sim sim')
    (hopen : sim.openVisits = (init a).openVisits) (hrun : run a near remaining sim = some best)
    (hrun' : run a far (remaining + extra) sim' = some best') :
    (best.isSome ∨ extra = 0) ∧ best' = best.map (·.shift d) ∨
      best = none ∧ ∃ k next, extra = k + 1 ∧ Alike a 0 (live (near.size + 1)) (init a) next ∧
        run a far k next = some best' := by
  -- The induction is on the bytes of the window that are left.
  induction remaining generalizing sim sim' with
  | zero =>
    rw [run, Option.map_eq_some_iff] at hrun
    obtain ⟨next, hseed, rfl⟩ := hrun
    rw [Nat.zero_add] at hrun'
    cases extra with
    | zero =>
      rw [run, Option.map_eq_some_iff, ← hsize] at hrun'
      obtain ⟨next', hseed', rfl⟩ := hrun'
      have hnext := h.seed hwindow hnear hfar (Nat.le_refl _) hseed hseed'
      exact .inl ⟨.inr rfl, (hnext.harvest (hnear.accept _)).best_eq⟩
    | succ k =>
      have hpos : far.size - (k + 1) = near.size + d := by omega
      rw [run_succ, Option.bind_eq_some_iff, hpos] at hrun'
      obtain ⟨next', hseed', hproceed⟩ := hrun'
      have hnext := (h.seed hwindow hnear hfar (Nat.le_refl _) hseed hseed').harvest
        (hnear.accept _)
      have hopen' := (h.sound.openVisits_harvest hseed near.size).trans hopen
      rcases hnext.proceed_end hwindow hfar hsize hopen' hproceed with
        ⟨hsome, heq⟩ | ⟨hnone, last, hlast, hrest⟩
      · exact .inl ⟨.inl hsome, heq⟩
      · exact .inr ⟨hnone, k, last, rfl, hlast, hrest⟩
  | succ remaining ih =>
    have hpos' : far.size - (remaining + extra + 1) = near.size - (remaining + 1) + d := by omega
    rw [run_succ, Option.bind_eq_some_iff] at hrun
    rw [Nat.add_right_comm, run_succ, Option.bind_eq_some_iff, hpos'] at hrun'
    obtain ⟨next, hseed, hproceed⟩ := hrun
    obtain ⟨next', hseed', hproceed'⟩ := hrun'
    have hnext := (h.seed hwindow hnear hfar (Nat.sub_le _ _) hseed hseed').harvest
      (hnear.accept _)
    have hopen' := (h.sound.openVisits_harvest hseed (near.size - (remaining + 1))).trans hopen
    rcases hnext.proceed hwindow hnear hfar hle hsize hproceed hproceed' with
      ⟨hsome, heq⟩ | ⟨last, last', hlast, hsame, hrest, hrest'⟩
    · exact .inl ⟨.inl hsome, heq⟩
    · exact ih (Nat.le_of_succ_le hle) hlast (hsame.trans hopen') hrest hrest'

end Simulation

end Automaton

end PosixRegex
