import Mathlib.Logic.Function.Iterate
import PosixRegex.Proofs.Lockstep

/-!
# Every exploration of a search ends

A search begins one exploration after the other: one for each thread that it starts, and one for
each thread that reads a byte. All of them come to the point where no task is left, although a state
may be visited again and again, and although loops with empty bodies lead back to where they began.

What an exploration begins with is told by the search so far, so first it is said which simulations
a search comes to, and which explorations it begins with them.

- `Exploration.next`: one piece of work, as a step that can be repeated.
- `Exploration.run_eq_some_iff`: a run repeats that step until no task is left.
- `Occurs`, `Begins`: what a search comes to, and the explorations that it begins.
- `Begins.exists_run`: each of them ends.
- `search_explorations_end`: so it is for the automaton of every pattern.
-/

namespace PosixRegex.Automaton

variable {a : Automaton} {spans : Nat → Nat → Prop} {scopes : List Scope} {subject : Subject}
  {start pos : Nat} {b : UInt8}

/-! ### Steps -/

namespace Exploration

variable {e e' : Exploration} {fuel : Nat}

/-- Does the next piece of work, if any remains. -/
def next (a : Automaton) (subject : Subject) (pos : Nat) (e : Exploration) : Exploration :=
  match e.tasks with
  | [] => e
  | task :: tasks => ({ e with tasks } : Exploration).perform a subject pos task

theorem next_of_nil (h : e.tasks = []) : e.next a subject pos = e := by
  rw [next, h]

theorem next_of_cons {task : Task} {tasks : List Task} (h : e.tasks = task :: tasks) :
    e.next a subject pos = ({ e with tasks } : Exploration).perform a subject pos task := by
  rw [next, h]

/-- When no task is left nothing changes any more. -/
theorem iterate_next_of_nil (h : e.tasks = []) (n : Nat) :
    (next a subject pos)^[n] e = e :=
  Function.iterate_fixed (next_of_nil h) n

/-- A run has an outcome just when its tasks are done within the fuel, and it is what the steps lead
to. -/
theorem run_eq_some_iff : e.run a subject pos fuel = some e' ↔
    (next a subject pos)^[fuel] e = e' ∧ e'.tasks = [] := by
  induction fuel generalizing e with
  | zero =>
    simp only [run, Function.iterate_zero_apply, List.isEmpty_iff]
    split
    · rename_i hnil
      rw [Option.some.injEq]
      exact ⟨fun h => ⟨h, h ▸ hnil⟩, And.left⟩
    · rename_i hne
      simp only [reduceCtorEq, false_iff]
      rintro ⟨rfl, hnil⟩
      exact hne hnil
  | succ fuel ih =>
    rw [run, Function.iterate_succ_apply]
    split
    · rename_i hnil
      rw [next_of_nil hnil, iterate_next_of_nil hnil, Option.some.injEq]
      exact ⟨fun h => ⟨h, h ▸ hnil⟩, And.left⟩
    · rename_i hcons
      rw [ih, next_of_cons hcons]

end Exploration

/-! ### What a search comes to -/

/-- A simulation is ready to read a byte at a position: a thread has begun there if need be, a match
that ends there has been taken, and there is something left to do. -/
structure Reads (a : Automaton) (subject : Subject) (pos : Nat) (b : UInt8)
    (sim ready : Simulation) : Prop where
  /-- The thread has begun, and the match has been taken. -/
  harvested : ∃ seeded, sim.seed a subject pos = some seeded ∧ ready = seeded.harvest a pos
  /-- What is still to come can change the outcome. -/
  unsettled : ready.isSettled = false
  /-- The byte. -/
  byte : subject.byteAt? pos = some b

/-- The simulations that a search comes to, with their positions. -/
inductive Occurs (a : Automaton) (subject : Subject) (start : Nat) : Nat → Simulation → Prop
  /-- The search begins. -/
  | init (h : start ≤ subject.size) : Occurs a subject start start (.init a)
  /-- All threads have read a byte. -/
  | read {pos : Nat} {sim ready next : Simulation} {b : UInt8} (h : Occurs a subject start pos sim)
      (hreads : Reads a subject pos b sim ready)
      (hadvance : ready.advance a subject (pos + 1) b = some next) :
      Occurs a subject start (pos + 1) next

/-- The explorations that a search begins, with their positions. -/
inductive Begins (a : Automaton) (subject : Subject) (start : Nat) : Nat → Exploration → Prop
  /-- A thread begins, since no match is known. -/
  | seed {pos : Nat} {sim : Simulation} (h : Occurs a subject start pos sim)
      (hnone : sim.best = none) :
      Begins a subject start pos
        ⟨sim.current, .initial a.groupCount pos, sim.openVisits, [.visit a.start]⟩
  /-- A thread has read a byte, after those before it. -/
  | read {pos : Nat} {sim ready : Simulation} {b : UInt8} {before after : List Nat}
      {id target : Nat} {threads : ThreadSet} {openVisits : Array Nat}
      (h : Occurs a subject start pos sim)
      (hreads : Reads a subject pos b sim ready)
      (hids : ready.current.dense.toList = before ++ id :: after)
      (hbefore : before.foldlM (advanceThread a subject (pos + 1) b ready.best ready.current)
        (ready.spare, ready.openVisits) = some (threads, openVisits))
      (htarget : a.states[id]?.bind (State.step? b) = some target)
      (hlate : isLate ready.best (ready.current.record id) = false) :
      Begins a subject start (pos + 1)
        ⟨threads, ready.current.record id, openVisits, [.visit target]⟩

/-! ### Invariants -/

variable {sim ready : Simulation}

/-- What a simulation knows when it is ready to read a byte. -/
theorem Reads.tracks (ha : a.Scoped spans scopes) (h : Reads a subject pos b sim ready)
    (hle : start ≤ pos) (htracks : sim.Tracks a subject start pos pos)
    (hsettles : Settles a subject start pos sim.best) :
    ready.Tracks a subject start pos (pos + 1) ∧
      Settles a subject start (pos + 1) ready.best := by
  obtain ⟨seeded, hseed, rfl⟩ := h.harvested
  obtain ⟨seeded', hseed', hbest, htracks'⟩ := Simulation.seed_tracks ha hle htracks hsettles
  cases hseed.symm.trans hseed'
  rw [← hbest] at hsettles
  exact (Simulation.harvest_settles ha htracks' hsettles).symm

/-- What is known of all simulations that a search comes to. -/
theorem Occurs.tracks (ha : a.Scoped spans scopes) (h : Occurs a subject start pos sim) :
    start ≤ pos ∧ sim.Tracks a subject start pos pos ∧ Settles a subject start pos sim.best := by
  induction h with
  | init h => exact ⟨Nat.le_refl _, Simulation.tracks_init a subject start,
      settles_none a subject (Nat.le_refl _)⟩
  | @read pos sim ready next b _ hreads hadvance ih =>
    obtain ⟨hle, htracks, hsettles⟩ := ih
    obtain ⟨htracks', hsettles'⟩ := hreads.tracks ha hle htracks hsettles
    obtain ⟨next', hadvance', hbest, hnext⟩ := Simulation.advance_tracks ha htracks' hreads.byte
    cases hadvance.symm.trans hadvance'
    exact ⟨Nat.le_succ_of_le hle, hnext, by rwa [hbest]⟩

/-- Every exploration that a search begins comes to its end. -/
theorem Begins.exists_run {e : Exploration} (ha : a.Scoped spans scopes)
    (h : Begins a subject start pos e) :
    ∃ e', e.run a subject pos (Exploration.fuel a) = some e' := by
  cases h with
  | @seed _ sim h hnone =>
    obtain ⟨hle, htracks, -⟩ := h.tracks ha
    -- In the record of a new thread no group but the whole match has been entered.
    have hpast (g p : Nat) (hg : 0 < g)
        (hp : ((Slots.initial a.groupCount pos).mark g).start? = some p) : p < pos := by
      rw [Slots.mark_initial_of_pos _ _ hg] at hp
      cases hp
    obtain ⟨threads', openVisits', hadd, -⟩ := htracks.follows.addThread ha sim.openVisits
      (ha.lt_of_within ha.start) (arrives_start hle) hpast
    obtain ⟨e', hrun, -⟩ := addThread_eq_some hadd
    exact ⟨e', hrun⟩
  | @read pos sim ready b before after id target threads openVisits h hreads hids hbefore htarget
      hlate =>
    obtain ⟨hle, htracks, hsettles⟩ := h.tracks ha
    obtain ⟨hready, -⟩ := hreads.tracks ha hle htracks hsettles
    have hcontains {q : Nat} (hq : q ∈ before ++ id :: after) :
        ready.current.contains q = true := by
      rw [← hready.follows.wellformed.mem_dense_iff, ← Array.mem_toList_iff, hids]
      exact hq
    -- The threads before it have left what the exploration begins with.
    obtain ⟨threads₁, openVisits₁, hfold, hfollows, -⟩ := advanceThreads_follows ha ready.best
      hready.follows hreads.byte (fun q hq => hcontains (List.mem_append_left _ hq))
      (ThreadSet.follows_of_empty hready.spare_wellformed hready.spare_empty) ready.openVisits
    cases hbefore.symm.trans hfold
    obtain ⟨threads', openVisits', hadvance, -⟩ := advanceThread_follows ha ready.best
      hready.follows hreads.byte (hcontains (List.mem_append_right _ List.mem_cons_self)) hfollows
      openVisits
    -- The thread is not late, so it is added where it leads to.
    rw [advanceThread, htarget] at hadvance
    simp only [hlate, Bool.false_eq_true, if_false] at hadvance
    obtain ⟨e', hrun, -⟩ := addThread_eq_some hadvance
    exact ⟨e', hrun⟩

/-- Every exploration ends. For every pattern that is run as an automaton `a`, and for every text,
every options and every position to `start` from, `a.search` comes to its end, and each exploration
`e` that it `Begins` on the way, at whatever `pos` and with whatever threads and record, is done
after finitely many pieces of work; their number is at most `Exploration.fuel a`, which depends on
the automaton alone. -/
theorem search_explorations_end {pattern : List UInt8} {t : Expr}
    (ht : Expr.parse pattern = .ok t) {o : Options} {a : Automaton}
    (ha : Engine.ofExpr o t = .ok (.automaton a)) (haystack : Array UInt8) (flags : SearchFlags)
    (start : Nat) :
    let subject : Subject := ⟨haystack, o, flags⟩
    (∃ found, a.search subject start = some found) ∧
      ∀ pos e, Begins a subject start pos e → ∃ n ≤ Exploration.fuel a,
        ((Exploration.next a subject pos)^[n] e).tasks = [] := by
  intro subject
  have hord := Expr.orderly_of_parse ht
  obtain ⟨-, -, rfl⟩ := engine_ofExpr_eq_automaton_iff.1 ha
  have hscoped := scoped_ofExpr o hord
  refine ⟨?_, fun pos e hbegins => ?_⟩
  · obtain ⟨found, hsearch, -⟩ := search_settles hscoped subject start
    exact ⟨found, hsearch⟩
  · obtain ⟨e', hrun⟩ := hbegins.exists_run hscoped
    obtain ⟨rfl, hnil⟩ := Exploration.run_eq_some_iff.1 hrun
    exact ⟨_, Nat.le_refl _, hnil⟩

/-- The first exploration for `((a*)*)*` ends, although its loops can be gone round without reading
anything. -/
theorem search_explorations_end_nested :
    let t : Expr := .loop (.group 1 (.loop (.group 2 (.loop (.literal 97) 0 none)) 0 none)) 0 none
    let a := ofExpr {} t
    let subject : Subject := ⟨#[97], {}, {}⟩
    let sim := Simulation.init a
    let e : Exploration :=
      ⟨sim.current, .initial a.groupCount 0, sim.openVisits, [.visit a.start]⟩
    Expr.parse [40, 40, 97, 42, 41, 42, 41, 42] = .ok t ∧
      Engine.ofExpr {} t = .ok (.automaton a) ∧ Begins a subject 0 0 e ∧
      ∃ n ≤ Exploration.fuel a, ((Exploration.next a subject 0)^[n] e).tasks = [] := by
  intro t a subject sim e
  have hparse : Expr.parse [40, 40, 97, 42, 41, 42, 41, 42] = .ok t := by decide +kernel
  have hengine : Engine.ofExpr {} t = .ok (.automaton a) :=
    engine_ofExpr_eq_automaton_iff.2 ⟨rfl, by decide, rfl⟩
  have hbegins : Begins a subject 0 0 e := .seed (.init (Nat.zero_le _)) rfl
  obtain ⟨-, hends⟩ := search_explorations_end hparse hengine #[97] {} 0
  exact ⟨hparse, hengine, hbegins, hends 0 e hbegins⟩

end PosixRegex.Automaton
