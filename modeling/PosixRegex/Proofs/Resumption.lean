import PosixRegex.Proofs.WindowSearch

/-!
# Searching from further on

A search finds the same match from any position up to the start of that match, group by group, and
finds none from any later position when it finds none. So a scan may resume anywhere before the next
match.

For a search in lockstep the two searches do not run alike: the one that starts earlier carries
threads from the positions before the match. None of them can come to a match, and states that
cannot come to a match are shut: they lead to such states only. So these threads are out of view all
along.

- `Automaton.Productive`, `Automaton.closes_productive`: states that can come to a match.
- `Automaton.search_succ`, `Expr.search_succ`: searching from the next position.
- `Regex.matchFrom_resume`: searching from any position up to the match.
-/

namespace PosixRegex

namespace Automaton

variable {a : Automaton} {spans : Nat → Nat → Prop} {scopes : List Scope} {subject : Subject}
  {pos q start : Nat} {x y : Thread} {best : Option Slots}

/-- A step can be taken with any record. -/
theorem Step.exists_of_slots (h : Step a subject x y) (v : Slots) :
    ∃ w, Step a subject ⟨x.state, ⟨x.place.stop, v⟩⟩ ⟨y.state, ⟨y.place.stop, w⟩⟩ := by
  obtain ⟨st, hst⟩ := h.exists_state
  obtain ⟨q, pos, u⟩ := x
  rcases (step_iff hst y).1 h with ⟨r, w, hmem, rfl⟩ | ⟨b, next, hb, hstep, rfl⟩
  · exact ⟨_, step_of_mem_moves hst ((State.mem_moves hmem).2 v)⟩
  · exact ⟨v, (step_iff hst _).2 (.inr ⟨b, next, hb, hstep, rfl⟩)⟩

/-- A path can be taken with any record. -/
theorem Path.exists_of_slots (h : a.Path subject x y) (v : Slots) :
    ∃ w, a.Path subject ⟨x.state, ⟨x.place.stop, v⟩⟩ ⟨y.state, ⟨y.place.stop, w⟩⟩ := by
  obtain ⟨n, hn⟩ := h
  obtain ⟨w, hw⟩ := hn.lift (fun x v => (⟨x.state, ⟨x.place.stop, v⟩⟩ : Thread))
    (fun _ _ hstep v => hstep.exists_of_slots v) v
  exact ⟨w, n, hw⟩

/-- From a state at a position a match can be reached. -/
def Productive (a : Automaton) (subject : Subject) (pos q : Nat) : Prop :=
  ∃ v e w, a.Path subject ⟨q, ⟨pos, v⟩⟩ ⟨a.accept, ⟨e, w⟩⟩

/-- What a step leads to is no more productive than what it starts from. -/
theorem Productive.of_step {pos' r : Nat} {v w : Slots} (h : a.Productive subject pos' r)
    (hstep : Step a subject ⟨q, ⟨pos, v⟩⟩ ⟨r, ⟨pos', w⟩⟩) : a.Productive subject pos q := by
  obtain ⟨u, e, u', hpath⟩ := h
  obtain ⟨w', hpath'⟩ := hpath.exists_of_slots w
  exact ⟨v, e, w', hpath'.head hstep⟩

open Classical in
/-- States that cannot come to a match lead to such states only. -/
theorem closes_productive (a : Automaton) (subject : Subject) :
    a.Closes subject 0 fun pos q => a.Productive subject pos q where
  accept pos := decide_eq_true ⟨[], pos, [], Path.refl a subject _⟩
  shut pos q st hst hdead v p hp := by
    rw [decide_eq_false_iff_not] at hdead ⊢
    exact fun h => hdead (h.of_step (step_of_mem_moves hst hp))
  reads pos q b target hb htarget hdead := by
    rw [decide_eq_false_iff_not] at hdead ⊢
    obtain ⟨st, hst, hstep⟩ := Option.bind_eq_some_iff.1 htarget
    exact fun h =>
      hdead (h.of_step (v := []) ((step_iff hst _).2 (.inr ⟨b, target, hb, hstep, rfl⟩)))

/-- When the start state is out of view, a simulation looks at the next position as if it had not
begun. -/
theorem Simulation.alike_init_of_dead (ha : a.Nests) {live : Nat → Nat → Bool}
    (hlive : a.Closes subject 0 live)
    {remaining : Nat} (hle : remaining + 1 ≤ subject.size)
    (hdead : live (subject.size - (remaining + 1)) a.start = false)
    (hrun : run a subject (remaining + 1) (init a) = some best) :
    ∃ next, Alike a 0 (live (subject.size - (remaining + 1) + 1)) (init a) next ∧
      run a subject remaining next = some best := by
  generalize hpos : subject.size - (remaining + 1) = pos at hdead ⊢
  rw [run_succ, hpos, Option.bind_eq_some_iff] at hrun
  obtain ⟨seeded, hseed, hproceed⟩ := hrun
  obtain ⟨hsound, hopen, hbest⟩ := (sound_init ha).seed hseed
  -- The thread that is begun here is out of view, so this position can be passed over.
  have hnil : seeded.current.visible (live pos) = [] := by
    rw [seed_of_none rfl, Option.map_eq_some_iff] at hseed
    obtain ⟨⟨current, openVisits⟩, hadd, rfl⟩ := hseed
    exact addThread_visible_of_dead ha hadd (sound_init ha).current (Slots.length_initial _ _)
      (hlive.shut pos) hdead
  rw [harvest_of_nil hlive hsound hnil] at hproceed
  have hsettled : seeded.isSettled = false := by
    rw [isSettled, hbest]
    exact Bool.and_false _
  obtain ⟨b, hb⟩ := Subject.exists_byteAt? (show pos < subject.size by omega)
  obtain ⟨next, hadvance, hrest⟩ := exists_advance_of_proceed hsettled (hpos.symm ▸ hb) hproceed
  rw [hpos] at hadvance
  obtain ⟨hsound', hopen', hbest'⟩ := hsound.advance hadvance
  refine ⟨next, ⟨sound_init ha, hsound', ?_, hopen'.trans hopen, hbest'.trans hbest⟩, hrest⟩
  rw [advance_visible_of_nil hlive hsound hb hnil hadvance]
  rfl

/-- A search from a position where no match starts finds what a search from the next one finds. -/
theorem search_succ_of_not_accepts (ha : a.Scoped spans scopes) (hstart : start < subject.size)
    (hnone : ∀ e, ¬a.Accepts subject start e) :
    a.search subject (start + 1) = a.search subject start := by
  classical
  obtain ⟨best, hsearch, -⟩ := search_settles ha subject start
  obtain ⟨best', hsearch', -⟩ := search_settles ha subject (start + 1)
  obtain ⟨remaining, hremaining⟩ := Nat.exists_eq_add_of_lt hstart
  have hpos : subject.size - (remaining + 1) = start := by omega
  have hnext : subject.size - remaining = start + 1 := by omega
  have hlive := closes_productive a subject
  -- The threads that start here never accept, so the start state is out of view.
  have hdead : decide (a.Productive subject start a.start) = false := by
    rw [decide_eq_false_iff_not]
    rintro ⟨v, e, w, hpath⟩
    obtain ⟨w', hpath'⟩ := hpath.exists_of_slots (.initial a.groupCount start)
    exact hnone e ⟨w', hpath'⟩
  rw [hsearch, hsearch']
  rw [search, if_neg (by omega), show subject.size - start = remaining + 1 by omega] at hsearch
  rw [search, if_neg (by omega), show subject.size - (start + 1) = remaining by omega] at hsearch'
  obtain ⟨next, hnextAlike, hrun⟩ := Simulation.alike_init_of_dead ha.nests hlive (by omega)
    (by rwa [hpos]) hsearch
  rw [hpos, ← hnext] at hnextAlike
  rcases Simulation.run_alike (isWindow_refl a subject) hlive hlive (by omega) (Nat.add_zero _)
    hnextAlike rfl hsearch' hrun with ⟨-, rfl⟩ | ⟨-, k, -, hk, -⟩
  · cases best' <;> simp
  · cases hk

/-- A path does not leave the text. -/
theorem Path.stop_le {x y : Thread} (h : a.Path subject x y) (hx : x.place.stop ≤ subject.size) :
    y.place.stop ≤ subject.size := by
  refine h.preserves (P := fun x => x.place.stop ≤ subject.size) (fun x y hx hstep => ?_) hx
  cases hstep with
  | byte _ hb | set _ hb _ => exact Subject.lt_size_of_byteAt? hb
  | branch | enterGroup | leaveGroup | assertion | skip => exact hx

/-- Before the match that it finds a search in lockstep may as well start from the next position. -/
theorem search_succ (ha : a.Scoped spans scopes) (h : a.search subject start = some best)
    (hbefore : ∀ v ∈ best, v.start? ≠ some start) :
    a.search subject (start + 1) = some best := by
  obtain ⟨best', hsearch, hknows⟩ := search_knows ha subject start
  cases hsearch.symm.trans h
  rcases Nat.lt_or_ge start subject.size with hlt | hge
  · rw [search_succ_of_not_accepts ha hlt, h]
    rintro e ⟨v, hpath⟩
    have he : e < subject.size + 1 := Nat.lt_succ_of_le (hpath.stop_le (Nat.le_of_lt hlt))
    cases best with
    | none =>
      exact absurd (hknows.none rfl start e (Nat.le_refl _) ⟨v, hpath⟩) (Nat.not_le_of_lt he)
    | some w =>
      -- The match that is found starts no later than any other.
      obtain ⟨s, e', u, hs, -, hpath', rfl, hleast⟩ := hknows.some w rfl
      obtain ⟨hle, -⟩ := hleast start e (Nat.le_refl _) he ⟨v, hpath⟩
      refine hbefore _ rfl ?_
      rw [hpath'.start?_leave ha, Nat.le_antisymm hle hs]
  · rw [search, if_pos (by omega)]
    cases best with
    | none => rfl
    | some w =>
      -- Only the position at the end of the text is left, so the match would start there.
      obtain ⟨s, e, u, hs, he, hpath, rfl, -⟩ := hknows.some w rfl
      have hle := hpath.start_le
      dsimp only at hle
      refine absurd ?_ (hbefore _ rfl)
      rw [hpath.start?_leave ha, show s = start by omega]

end Automaton

/-- Before the match that it finds a search by enumeration may as well start from the next
position. -/
theorem Expr.search_succ {t : Expr} (ht : t.Orderly 0) {subject : Subject} {start : Nat}
    {best : Option Slots} (h : t.search subject start = .ok best)
    (hbefore : ∀ v ∈ best, v.start? ≠ some start) :
    t.search subject (start + 1) = .ok best := by
  by_cases hle : start ≤ subject.size
  · rw [search_eq_matchAt t hle] at h
    cases hmatch : t.matchAt subject start with
    | error e =>
      rw [hmatch] at h
      cases h
    | ok found =>
      rw [hmatch] at h
      cases found with
      | none => exact h
      | some w =>
        -- A match at the position itself would be the one that is found.
        cases h
        obtain ⟨d, hd, rfl, -⟩ := (matchAt_spec ht hmatch).2 w rfl
        refine absurd ?_ (hbefore _ rfl)
        rw [Slots.start?, mark_zero_report ht hd]
  · rw [search, if_pos (by omega)] at h ⊢
    exact h

namespace Regex

variable {pattern : List UInt8} {o : Options} {r : Regex} {haystack : Array UInt8} {start : Nat}
  {flags : SearchFlags} {best : Option Slots}

/-- Before the match that it finds a search may as well start from the next position. -/
theorem search_succ (hr : compile pattern o = .ok r)
    (h : r.search haystack start flags = .ok best) (hbefore : ∀ v ∈ best, v.start? ≠ some start) :
    r.search haystack (start + 1) flags = .ok best := by
  obtain ⟨t, ht, -⟩ := search_outcome hr
  have hord := Expr.orderly_of_parse ht
  obtain ⟨hoptions, ⟨-, hengine⟩ | hengine⟩ := engine_of_compile hr ht
  · have hscoped := Automaton.scoped_ofExpr o hord
    obtain ⟨best', hbest', -⟩ := Automaton.search_settles hscoped ⟨haystack, o, flags⟩ start
    simp only [search, hengine, hoptions, hbest'] at h ⊢
    cases h
    rw [Automaton.search_succ hscoped hbest' hbefore]
  · simp only [search, hengine, hoptions] at h ⊢
    exact Expr.search_succ hord h hbefore

/-- A search from any position up to the start of the match that is found, or from any later
position when none is found, has the same outcome. -/
theorem search_resume (hr : compile pattern o = .ok r)
    (h : r.search haystack start flags = .ok best) {later : Nat} (hle : start ≤ later)
    (hbefore : ∀ v ∈ best, ∀ s, v.start? = some s → later ≤ s) :
    r.search haystack later flags = .ok best := by
  induction later, hle using Nat.le_induction with
  | base => exact h
  | succ pos hle ih =>
    refine search_succ hr (ih fun v hv s hs => Nat.le_of_succ_le (hbefore v hv s hs)) ?_
    intro v hv hs
    exact Nat.not_succ_le_self pos (hbefore v hv pos hs)

/-- Searching may be resumed. When a search from `start` finds a match `m`, a search from any
`later` position up to the start of the match finds `m` again, with the same span for every group.
When a search finds none, neither does a search from any `later` position. -/
theorem matchFrom_resume (hr : compile pattern o = .ok r) (haystack : Array UInt8) (start : Nat)
    (flags : SearchFlags) :
    (∀ m, r.matchFrom haystack start flags = .ok (some m) →
      ∃ span, m.whole? = some span ∧ ∀ later, start ≤ later → later ≤ span.start →
        r.matchFrom haystack later flags = .ok (some m)) ∧
      (r.matchFrom haystack start flags = .ok none → ∀ later, start ≤ later →
        r.matchFrom haystack later flags = .ok none) := by
  obtain ⟨t, ht, -, houtcome⟩ := search_outcome hr
  have hord := Expr.orderly_of_parse ht
  refine ⟨fun m hm => ?_, fun hm later hle => ?_⟩
  · obtain ⟨best, hsearch, hbest⟩ := exists_search_of_matchFrom hm
    obtain ⟨w, rfl, rfl⟩ := Option.map_eq_some_iff.1 hbest.symm
    obtain ⟨s, e, hspan, -⟩ :=
      Expr.exists_span_of_outcome hord (houtcome haystack start flags _ hsearch) rfl
    refine ⟨⟨haystack, s, e⟩, ?_, fun later hle hlater => ?_⟩
    · rw [Match.whole?, Match.group?, hspan]
      rfl
    · rw [matchFrom, search_resume hr hsearch hle]
      · rfl
      -- The match that was found does not start in front of `later`.
      · intro v hv s' hs'
        cases hv
        rw [Slots.start?, Slots.mark_of_span? hspan] at hs'
        cases hs'
        exact hlater
  · obtain ⟨best, hsearch, hbest⟩ := exists_search_of_matchFrom hm
    obtain rfl := Option.map_eq_none_iff.1 hbest.symm
    rw [matchFrom, search_resume hr hsearch hle fun v hv => by cases hv]
    rfl

/-- The first match of `(a*)b` in `caab` starts at 1, behind a byte where none starts. It is found
again from 1, where the threads from 0 are not there. In `caa` there is none, from wherever it is
searched for. -/
theorem matchFrom_resume_group :
    let t : Expr := .concat [.group 1 (.loop (.literal 97) 0 none), .literal 98]
    let r : Regex := ⟨[40, 97, 42, 41, 98], {}, .automaton (.ofExpr {} t)⟩
    let text : Array UInt8 := #[99, 97, 97, 98]
    let m : Match := ⟨text, [⟨some 1, some 4⟩, ⟨some 1, some 3⟩]⟩
    compile [40, 97, 42, 41, 98] {} = .ok r ∧ r.matchFrom text 0 {} = .ok (some m) ∧
      r.matchFrom text 1 {} = .ok (some m) ∧ r.matchFrom #[99, 97, 97] 0 {} = .ok none ∧
      ∀ later, r.matchFrom #[99, 97, 97] later {} = .ok none := by
  intro t r text m
  have hparse : Expr.parse [40, 97, 42, 41, 98] = .ok t := rfl
  have hcompile : compile [40, 97, 42, 41, 98] {} = .ok r :=
    compile_eq_automaton hparse rfl (by decide)
  have hmatch : r.matchFrom text 0 {} = .ok (some m) := by decide +kernel
  have hnone : r.matchFrom #[99, 97, 97] 0 {} = .ok none := by decide +kernel
  obtain ⟨span, hspan, hlater⟩ := (matchFrom_resume hcompile text 0 {}).1 m hmatch
  obtain rfl : ⟨text, 1, 4⟩ = span := Option.some.inj hspan
  exact ⟨hcompile, hmatch, hlater 1 (Nat.zero_le _) (Nat.le_refl _), hnone,
    fun later => (matchFrom_resume hcompile #[99, 97, 97] 0 {}).2 hnone later (Nat.zero_le _)⟩

end Regex

end PosixRegex
