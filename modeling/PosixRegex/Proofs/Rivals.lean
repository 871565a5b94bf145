import PosixRegex.Proofs.Admission
import PosixRegex.Proofs.Compilation

/-!
# Rivals

Of two threads in one state at one position a search keeps the one with the better record. Whatever
the thread that is given up could have done, the one that is kept can do as well, through the same
states, and its record comes out no worse: what a state does to a record depends on the position
only, and it does not turn the ranking of two records round. A record that is better may come out
level, when the group that told the two apart is entered again; one that is level stays level.

- `Automaton.Route`: a continuation of a thread, told by the states that it goes through.
- `Automaton.Step.spec`: what a step does, for every record that a thread can have.
- `Automaton.Route.transfer`: a continuation of a thread is one of each of its rivals.
- `Automaton.Route.order_ne_lt`: one that is not beaten is not beaten afterwards.
- `Automaton.rivals_keep_order`: so it is in the automaton of every pattern.
-/

namespace PosixRegex.Automaton

variable {a : Automaton} {spans : Nat → Nat → Prop} {scopes : List Scope} {subject : Subject}
  {states : List Nat} {x x' y z : Thread}

/-! ### One step -/

/-- The number of bytes that a state consumes. -/
def State.width : State → Nat
  | byte _ _ | set _ _ => 1
  | _ => 0

/-- What a step does depends on its state. With another record the same step can be made. -/
theorem Step.spec (h : Step a subject x y) : ∃ st, a.states[x.state]? = some st ∧
    y.place = ⟨x.place.stop + st.width, st.effect x.place.stop x.place.slots⟩ ∧
    ∀ w, Step a subject ⟨x.state, ⟨x.place.stop, w⟩⟩
      ⟨y.state, ⟨y.place.stop, st.effect x.place.stop w⟩⟩ := by
  cases h with
  | byte hst hb => exact ⟨_, hst, rfl, fun w => .byte hst hb⟩
  | set hst hb hs => exact ⟨_, hst, rfl, fun w => .set hst hb hs⟩
  | branch hst hmem => exact ⟨_, hst, rfl, fun w => .branch hst hmem⟩
  | enterGroup hst => exact ⟨_, hst, rfl, fun w => .enterGroup hst⟩
  | leaveGroup hst => exact ⟨_, hst, rfl, fun w => .leaveGroup hst⟩
  | assertion hst hholds => exact ⟨_, hst, rfl, fun w => .assertion hst hholds⟩
  | skip hst => exact ⟨_, hst, rfl, fun w => .skip hst⟩

/-! ### Continuations -/

/-- A thread can go on to another one through some states, the last of which is that of the other
one. -/
def Route (a : Automaton) (subject : Subject) : List Nat → Thread → Thread → Prop
  | [], x, y => x = y
  | q :: states, x, z => ∃ y, Step a subject x y ∧ y.state = q ∧ Route a subject states y z

/-- What a thread can go on to is what a path leads to. -/
theorem path_iff_exists_route :
    a.Path subject x y ↔ ∃ states, a.Route subject states x y := by
  constructor
  · rintro ⟨n, hn⟩
    induction n generalizing x with
    | zero => exact ⟨[], hn⟩
    | succ n ih =>
      obtain ⟨z, hstep, hn⟩ := hn
      obtain ⟨states, hroute⟩ := ih hn
      exact ⟨z.state :: states, z, hstep, rfl, hroute⟩
  · rintro ⟨states, hroute⟩
    induction states generalizing x with
    | nil => exact hroute ▸ Path.refl a subject x
    | cons q states ih =>
      obtain ⟨z, hstep, -, hroute⟩ := hroute
      exact (ih hroute).head hstep

/-- A continuation of a thread is one of every thread in the same state at the same position. -/
theorem Route.transfer (h : a.Route subject states x y) (w : Slots) :
    ∃ w', a.Route subject states ⟨x.state, ⟨x.place.stop, w⟩⟩
      ⟨y.state, ⟨y.place.stop, w'⟩⟩ := by
  induction states generalizing x w with
  | nil => exact ⟨w, h ▸ rfl⟩
  | cons q states ih =>
    -- The record that the rest starts with is what the first state makes of the other record.
    obtain ⟨x₁, hstep, hq, hroute⟩ := h
    obtain ⟨st, -, -, hsteps⟩ := hstep.spec
    obtain ⟨w', hroute'⟩ := ih hroute (st.effect x.place.stop w)
    exact ⟨w', _, hsteps w, hq, hroute'⟩

/-- The states tell what a thread comes to. -/
theorem Route.unique (hy : a.Route subject states x y) (hz : a.Route subject states x z) :
    y = z := by
  induction states generalizing x with
  | nil => exact hy.symm.trans hz
  | cons q states ih =>
    obtain ⟨y₁, hstep, hq, hy⟩ := hy
    obtain ⟨z₁, hstep', hq', hz⟩ := hz
    obtain ⟨st, hst, hplace, -⟩ := hstep.spec
    obtain ⟨st', hst', hplace', -⟩ := hstep'.spec
    cases hst.symm.trans hst'
    obtain ⟨_, _⟩ := y₁
    obtain ⟨_, _⟩ := z₁
    cases hq.trans hq'.symm
    cases hplace.trans hplace'.symm
    exact ih hy hz

/-- A thread that is not beaten by its rival is not beaten after a common continuation. -/
theorem Route.order_ne_lt (ha : a.Scoped spans scopes) (hy : a.Route subject states x y)
    (hz : a.Route subject states x' z) (hx : x.Admitted a spans scopes)
    (hx' : x'.Admitted a spans scopes) (hstate : x.state = x'.state)
    (hstop : x.place.stop = x'.place.stop) (h : x.place.slots.order x'.place.slots ≠ .lt) :
    y.place.slots.order z.place.slots ≠ .lt := by
  -- Along the states both threads stay admitted, in one state and at one position.
  induction states generalizing x x' with
  | nil =>
    obtain rfl : x = y := hy
    obtain rfl : x' = z := hz
    exact h
  | cons q states ih =>
    obtain ⟨x₁, hstep, hq, hy⟩ := hy
    obtain ⟨x₁', hstep', hq', hz⟩ := hz
    obtain ⟨st, hst, hplace, -⟩ := hstep.spec
    obtain ⟨st', hst', hplace', -⟩ := hstep'.spec
    rw [← hstate] at hst'
    cases hst.symm.trans hst'
    refine ih hy hz (hstep.admitted ha hx) (hstep'.admitted ha hx') (hq.trans hq'.symm) ?_ ?_
    · rw [hplace, hplace', hstop]
    · obtain ⟨_, pos, v⟩ := x
      obtain ⟨_, _, w⟩ := x'
      cases hstate
      cases hstop
      rw [hplace, hplace']
      exact order_effect_ne_lt ha hst hx hx' h

/-! ### Compiled patterns -/

/-- Keeping the better thread is safe. In the automaton `a` of every pattern, for every text and all
options, let two threads have come to one state `q` at one position `pos`, with records `v` and `w`
from beginnings that need not be the same. Each continuation of one, a `Route` through some
`states`, is a continuation of the other, with one outcome. If `v` is better than `w`, the record
that comes of it is better than the one that comes of `w`, or level with it, and if the two are
level they stay level. -/
theorem rivals_keep_order {pattern : List UInt8} {t : Expr} (ht : Expr.parse pattern = .ok t)
    {o : Options} {a : Automaton} (ha : Engine.ofExpr o t = .ok (.automaton a))
    (haystack : Array UInt8) (flags : SearchFlags) {start start' q pos : Nat} {v w : Slots} :
    let subject : Subject := ⟨haystack, o, flags⟩
    a.Path subject (a.origin start) ⟨q, ⟨pos, v⟩⟩ →
    a.Path subject (a.origin start') ⟨q, ⟨pos, w⟩⟩ →
    ∀ states x, a.Route subject states ⟨q, ⟨pos, v⟩⟩ x →
      ∃ w', a.Route subject states ⟨q, ⟨pos, w⟩⟩ ⟨x.state, ⟨x.place.stop, w'⟩⟩ ∧
        (∀ y, a.Route subject states ⟨q, ⟨pos, w⟩⟩ y → y = ⟨x.state, ⟨x.place.stop, w'⟩⟩) ∧
        (v.order w = .gt → x.place.slots.order w' = .gt ∨ x.place.slots.order w' = .eq) ∧
        (v.order w = .eq → x.place.slots.order w' = .eq) := by
  intro subject hv hw states x hx
  have hord := Expr.orderly_of_parse ht
  obtain ⟨-, -, rfl⟩ := engine_ofExpr_eq_automaton_iff.1 ha
  have hscoped := scoped_ofExpr o hord
  obtain ⟨w', hw'⟩ := hx.transfer w
  -- Both ways round: a tie is a comparison that neither of the two loses.
  have hforth (h : v.order w ≠ .lt) : x.place.slots.order w' ≠ .lt :=
    hx.order_ne_lt hscoped hw' (hv.admitted hscoped) (hw.admitted hscoped) rfl rfl h
  have hback (h : w.order v ≠ .lt) : w'.order x.place.slots ≠ .lt :=
    hw'.order_ne_lt hscoped hx (hw.admitted hscoped) (hv.admitted hscoped) rfl rfl h
  refine ⟨w', hw', fun y hy => hy.unique hw', fun h => ?_, fun h => ?_⟩
  · have hne := hforth (by rw [h]; decide)
    cases hcase : x.place.slots.order w' with
    | lt => exact absurd hcase hne
    | eq => exact .inr rfl
    | gt => exact .inl rfl
  · obtain ⟨hvw, hwv⟩ := Slots.order_eq_eq_iff.1 h
    exact Slots.order_eq_eq_iff.2 ⟨hforth hvw, hback hwv⟩

/-- In the automaton of `(a*)*` a thread that has read `a` in its first pass is better than one that
has made another, empty pass. When both enter the group again they are level. -/
theorem rivals_keep_order_loop :
    let t : Expr := .loop (.group 1 (.loop (.literal 97) 0 none)) 0 none
    let a := ofExpr {} t
    let subject : Subject := ⟨#[97], {}, {}⟩
    let v : Slots := [⟨some 0, none⟩, ⟨some 0, some 1⟩]
    let w : Slots := [⟨some 0, none⟩, ⟨some 1, some 1⟩]
    let again : Slots := [⟨some 0, none⟩, ⟨some 1, none⟩]
    Expr.parse [40, 97, 42, 41, 42] = .ok t ∧ Engine.ofExpr {} t = .ok (.automaton a) ∧
      a.Path subject (a.origin 0) ⟨1, ⟨1, v⟩⟩ ∧ a.Path subject (a.origin 0) ⟨1, ⟨1, w⟩⟩ ∧
      v.order w = .gt ∧ a.Route subject [2, 3] ⟨1, ⟨1, v⟩⟩ ⟨3, ⟨1, again⟩⟩ ∧
      ∃ w', a.Route subject [2, 3] ⟨1, ⟨1, w⟩⟩ ⟨3, ⟨1, w'⟩⟩ ∧
        (again.order w' = .gt ∨ again.order w' = .eq) := by
  intro t a subject v w again
  have hparse : Expr.parse [40, 97, 42, 41, 42] = .ok t := rfl
  have hengine : Engine.ofExpr {} t = .ok (.automaton a) :=
    engine_ofExpr_eq_automaton_iff.2 ⟨rfl, by decide, rfl⟩
  -- One pass that reads the byte, and behind it an empty one.
  have hpass : a.Route subject [1, 2, 3, 4, 5, 4, 6, 1] (a.origin 0) ⟨1, ⟨1, v⟩⟩ :=
    ⟨_, .skip rfl, rfl, _, .branch rfl (by decide), rfl, _, .enterGroup rfl, rfl, _, .skip rfl, rfl,
      _, .branch rfl (by decide), rfl, _, .byte rfl rfl, rfl, _, .branch rfl (by decide), rfl,
      _, .leaveGroup rfl, rfl, rfl⟩
  have hagain : a.Route subject [2, 3] ⟨1, ⟨1, v⟩⟩ ⟨3, ⟨1, again⟩⟩ :=
    ⟨_, .branch rfl (by decide), rfl, _, .enterGroup rfl, rfl, rfl⟩
  have hempty : a.Route subject [2, 3, 4, 6, 1] ⟨1, ⟨1, v⟩⟩ ⟨1, ⟨1, w⟩⟩ :=
    ⟨_, .branch rfl (by decide), rfl, _, .enterGroup rfl, rfl, _, .skip rfl, rfl,
      _, .branch rfl (by decide), rfl, _, .leaveGroup rfl, rfl, rfl⟩
  have hv := path_iff_exists_route.2 ⟨_, hpass⟩
  have hw := hv.trans (path_iff_exists_route.2 ⟨_, hempty⟩)
  obtain ⟨w', hroute, -, hbetter, -⟩ :=
    rivals_keep_order hparse hengine #[97] {} hv hw _ _ hagain
  exact ⟨hparse, hengine, hv, hw, rfl, hagain, w', hroute, hbetter rfl⟩

end PosixRegex.Automaton
