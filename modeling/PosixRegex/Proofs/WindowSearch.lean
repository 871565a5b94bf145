import PosixRegex.Proofs.Agreement
import PosixRegex.Proofs.Origin
import PosixRegex.Proofs.Parallel
import PosixRegex.Proofs.Transfer

/-!
# Searching in a window

A search from a position in a window ends as it does in the window alone, with the record moved on;
when there is no match in the window it goes on behind it, as if it had started there. That holds
for both ways of searching.

- `Automaton.isWindow_ofExpr`: what is a window for a tree is one for its automaton.
- `Automaton.search_window`: searching in lockstep.
- `Regex.search_window`: searching for a compiled pattern.
-/

namespace PosixRegex

/-! ### States that read -/

namespace Expr

/-- A state reads nothing, or it reads a set of bytes that a leaf of the tree reads. -/
def Reading (o : Options) (t : Expr) (st : Automaton.State) : Prop :=
  (∀ b, st.step? b = none) ∨
    ∃ s next, t.Reads o s ∧ ∀ b, st.step? b = if s.contains b then some next else none

variable {o : Options} {t u : Expr}

/-- Of the states of a part of a tree only that of a leaf reads, and it reads the set of the
leaf. -/
theorem IsPart.reading (hu : u.IsPart t) {st : Automaton.State} (h : u.Owns o st) :
    t.Reading o st := by
  cases h with
  | @byte _ s b next hs hb =>
    refine .inr ⟨s, next, ⟨u, hu, hs⟩, fun c => ?_⟩
    rw [← Automaton.State.step?_consume, Automaton.State.consume, hb]
  | @set _ s next hs hnone =>
    refine .inr ⟨s, next, ⟨u, hu, hs⟩, fun c => ?_⟩
    rw [← Automaton.State.step?_consume, Automaton.State.consume, hnone]
  | _ => exact .inl fun _ => rfl

/-- The states of an automaton read what the leaves of its tree read. -/
theorem reading_of_getElem? {q : Nat} {st : Automaton.State}
    (h : (Automaton.ofExpr o t).states[q]? = some st) : t.Reading o st := by
  rcases Automaton.exists_owns h with ⟨-, rfl⟩ | ⟨-, u, hu, howns⟩
  · exact .inl fun _ => rfl
  · exact hu.reading howns

end Expr

namespace Automaton

variable {a : Automaton} {spans : Nat → Nat → Prop} {scopes : List Scope} {near far : Subject}
  {d start : Nat} {t : Expr}

/-- What is a window for a tree is one for its automaton. -/
theorem isWindow_ofExpr (h : near.IsWindow far d t) :
    (ofExpr near.options t).IsWindow near far d where
  size_le := h.size_le
  holds_eq pos hpos kind := h.holds_eq kind pos hpos
  step?_eq pos hpos q := by
    cases hst : (ofExpr near.options t).states[q]? with
    | none => cases far.byteAt? (pos + d) <;> cases near.byteAt? pos <;> rfl
    | some st =>
      have hreading : t.Reading near.options st := Expr.reading_of_getElem? hst
      simp only [Option.bind_some]
      rcases hreading with hnone | ⟨s, next, hs, hread⟩
      · cases far.byteAt? (pos + d) <;> cases near.byteAt? pos <;> simp [hnone]
      · have hreads := h.reads_eq s hs pos hpos
        cases hfar : far.byteAt? (pos + d) <;> cases hnear : near.byteAt? pos <;>
          simp_all

/-- All states are in view. -/
theorem closes_all (a : Automaton) (subject : Subject) (d : Nat) :
    a.Closes subject d fun _ _ => true where
  accept _ := rfl
  shut _ _ _ _ h := nomatch h
  reads _ _ _ _ _ _ h := nomatch h

/-- A text is a window of itself. -/
theorem isWindow_refl (a : Automaton) (subject : Subject) : a.IsWindow subject subject 0 :=
  ⟨Nat.le_refl _, fun _ _ _ => rfl, fun _ _ _ => rfl⟩

/-- A simulation that looks as if it had not begun ends as if it had not. -/
theorem run_eq_search (ha : a.Scoped spans scopes) {subject : Subject} {sim : Simulation}
    (hsim : Simulation.Alike a 0 (fun _ => true) (Simulation.init a) sim) {start remaining : Nat}
    (hstart : start + remaining = subject.size) {best : Option Slots}
    (hrun : Simulation.run a subject remaining sim = some best) :
    a.search subject start = some best := by
  obtain ⟨best', hsearch, -⟩ := search_settles ha subject start
  have hinit := hsearch
  rw [search, if_neg (by omega), ← hstart, Nat.add_sub_cancel_left] at hinit
  have hall := closes_all a subject 0
  rcases Simulation.run_alike (isWindow_refl a subject) hall hall (by omega) (Nat.add_zero _)
    (show Simulation.Alike a 0 ((fun _ _ => true) (subject.size - remaining)) _ _ from hsim) rfl
    hinit hrun with ⟨-, heq⟩ | ⟨-, k, -, hk, -⟩
  · rw [hsearch, heq]
    cases best' <;> simp
  · cases hk

/-- A search in lockstep from a position in a window ends as it does in the window alone, and goes
on behind the window when there is no match in it. -/
theorem search_window (ha : a.Scoped spans scopes) (h : a.IsWindow near far d)
    (hstart : start ≤ near.size) :
    a.search far (start + d) = (do
      match ← a.search near start with
      | some found => return some (found.shift d)
      | none => a.search far (near.size + d + 1)) := by
  obtain ⟨best, hnear, -⟩ := search_settles ha near start
  obtain ⟨best', hfar, -⟩ := search_settles ha far (start + d)
  have hsize := h.size_le
  obtain ⟨extra, hextra⟩ := Nat.exists_eq_add_of_le hsize
  rw [hnear, hfar]
  rw [search, if_neg (Nat.not_lt.2 hstart)] at hnear
  rw [search, if_neg (by omega), show far.size - (start + d) = near.size - start + extra by omega]
    at hfar
  have hinit : Simulation.Alike a d (fun _ => true) (Simulation.init a) (Simulation.init a) :=
    ⟨Simulation.sound_init ha.nests, Simulation.sound_init ha.nests, rfl, rfl, rfl⟩
  rcases Simulation.run_alike h (closes_all a near 0) (closes_all a far d) (Nat.sub_le _ _)
    hextra.symm hinit rfl hnear hfar with ⟨hcase, rfl⟩ | ⟨rfl, k, next, rfl, hnext, hrun⟩
  · cases best with
    | some found => rfl
    | none =>
      -- The window ends where the text does, so there is nothing behind it.
      obtain rfl : extra = 0 := hcase.resolve_left Bool.false_ne_true
      have hend : a.search far (near.size + d + 1) = some none := if_pos (by omega)
      exact hend.symm
  · exact (run_eq_search ha hnext (by omega) hrun).symm

end Automaton

/-- A match in a text that stands in another one from a position on, as a match in the other one. -/
def Match.movedInto (haystack : Array UInt8) (d : Nat) (m : Match) : Match :=
  ⟨haystack, m.slots.shift d⟩

namespace Regex

variable {pattern : List UInt8} {o : Options} {r : Regex} {t : Expr} {haystack text : Array UInt8}
  {flags flags' : SearchFlags} {d start : Nat}

/-- What a compiled pattern runs is the automaton of its tree, or the tree itself. -/
theorem engine_of_compile (hr : compile pattern o = .ok r) (ht : Expr.parse pattern = .ok t) :
    r.options = o ∧ (t.hasBackref = false ∧ r.engine = .automaton (.ofExpr o t) ∨
      r.engine = .enumeration t) := by
  obtain ⟨t', engine, ht', hengine, rfl⟩ := compile_eq_ok_iff.1 hr
  cases ht.symm.trans ht'
  refine ⟨rfl, ?_⟩
  cases engine with
  | automaton a =>
    obtain ⟨hback, -, rfl⟩ := Automaton.engine_ofExpr_eq_automaton_iff.1 hengine
    exact .inl ⟨hback, rfl⟩
  | enumeration u =>
    obtain ⟨-, rfl⟩ := Automaton.engine_ofExpr_eq_enumeration_iff.1 hengine
    exact .inr rfl

/-- Behind the end of a text there is no match. -/
theorem search_of_size_lt (r : Regex) (h : haystack.size < start) (flags : SearchFlags) :
    r.search haystack start flags = .ok none := by
  have hlt : (⟨haystack, r.options, flags⟩ : Subject).size < start := h
  unfold search
  dsimp only
  cases r.engine with
  | automaton a => simp only [Automaton.search, if_pos hlt]
  | enumeration t => simp only [Expr.search, if_pos hlt]

/-- A search from a position in a window ends as it does in the window alone, and goes on behind the
window when there is no match in it. -/
theorem search_window (hr : compile pattern o = .ok r) (ht : Expr.parse pattern = .ok t)
    (h : (⟨text, o, flags⟩ : Subject).IsWindow ⟨haystack, o, flags'⟩ d t)
    (hstart : start ≤ text.size) :
    r.search haystack (start + d) flags' = (do
      match ← r.search text start flags with
      | some found => return some (found.shift d)
      | none => r.search haystack (text.size + d + 1) flags') := by
  have hord := Expr.orderly_of_parse ht
  obtain ⟨hoptions, ⟨-, hengine⟩ | hengine⟩ := engine_of_compile hr ht
  · have hscoped := Automaton.scoped_ofExpr o hord
    have hsearch := Automaton.search_window hscoped (Automaton.isWindow_ofExpr h) hstart
    -- No search in lockstep is cut short.
    obtain ⟨best, hbest, -⟩ := Automaton.search_settles hscoped ⟨text, o, flags⟩ start
    simp only [search, hengine, hoptions, hbest] at hsearch ⊢
    rw [hsearch]
    cases best <;> rfl
  · simp only [search, hengine, hoptions]
    exact Expr.search_window hord h hstart

/-- The match that is found from a position in a window is the one that is found in the window
alone, moved on to where the window stands; when there is none, the search goes on behind the
window. -/
theorem matchFrom_window (hr : compile pattern o = .ok r) (ht : Expr.parse pattern = .ok t)
    (h : (⟨text, o, flags⟩ : Subject).IsWindow ⟨haystack, o, flags'⟩ d t)
    (hstart : start ≤ text.size) :
    r.matchFrom haystack (start + d) flags' = (do
      match ← r.matchFrom text start flags with
      | some m => return some (m.movedInto haystack d)
      | none => r.matchFrom haystack (text.size + d + 1) flags') := by
  unfold matchFrom
  rw [search_window hr ht h hstart]
  cases r.search text start flags with
  | error e => rfl
  | ok best =>
    cases best with
    | none => rfl
    | some found => rfl

/-- When a window reaches to the end of the text, a search in it finds what a search in the window
alone finds. -/
theorem matchFrom_window_end (hr : compile pattern o = .ok r) (ht : Expr.parse pattern = .ok t)
    (h : (⟨text, o, flags⟩ : Subject).IsWindow ⟨haystack, o, flags'⟩ d t)
    (hend : haystack.size ≤ text.size + d) (hstart : start ≤ text.size) :
    r.matchFrom haystack (start + d) flags' =
      Option.map (·.movedInto haystack d) <$> r.matchFrom text start flags := by
  rw [matchFrom_window hr ht h hstart]
  cases r.matchFrom text start flags with
  | error e => rfl
  | ok found =>
    cases found with
    | some m => rfl
    | none =>
      show r.matchFrom haystack (text.size + d + 1) flags' = .ok none
      rw [matchFrom, search_of_size_lt r (Nat.lt_succ_of_le hend)]
      rfl

end Regex

end PosixRegex
