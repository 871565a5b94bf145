import PosixRegex.Proofs.Assembly
import PosixRegex.Proofs.ByteRuns
import PosixRegex.Proofs.Run
import PosixRegex.Proofs.WellFormed

/-!
# Automata run derivations

The automaton of a tree has a path from its start to its accepting state, between two places with
their records, just when the tree has a derivation between them.

A piece of an automaton is described by `Automaton.Conducts`: what enters it at one state can leave
it at another one, as far on as a relation on places allows, and whatever leaves it has gone that
way. Pieces are put together as the fragments of trees are: one after the other, side by side behind
a branching state, or around a loop.

- `Automaton.Conducts.trans`, `Automaton.Conducts.branch`, `Automaton.Conducts.star`: pieces made
  of pieces.
- `Expr.conducts_fragment`: the fragment of a tree conducts its derivations.
-/

namespace PosixRegex

/-- A list stands in a sequence from a number on. -/
def Laid {α : Type} (whole : Nat → Option α) (base : Nat) (part : List α) : Prop :=
  ∀ i x, part[i]? = some x → whole (base + i) = some x

namespace Laid

variable {α : Type} {whole : Nat → Option α} {base : Nat} {x : α} {part others : List α}

theorem head (h : Laid whole base (x :: part)) : whole base = some x := h 0 x rfl

theorem tail (h : Laid whole base (x :: part)) : Laid whole (base + 1) part := by
  intro i y hi
  rw [Nat.add_assoc, Nat.add_comm 1]
  exact h (i + 1) y hi

theorem left (h : Laid whole base (part ++ others)) : Laid whole base part := by
  intro i y hi
  obtain ⟨hlt, -⟩ := List.getElem?_eq_some_iff.1 hi
  exact h i y (by rw [List.getElem?_append_left hlt, hi])

theorem right (h : Laid whole base (part ++ others)) : Laid whole (base + part.length) others := by
  intro i y hi
  rw [Nat.add_assoc]
  refine h (part.length + i) y ?_
  rw [List.getElem?_append_right (Nat.le_add_right _ _), Nat.add_sub_cancel_left, hi]

end Laid

namespace Automaton

namespace State

/-- The state for a set makes no move in place. -/
theorem moves_consume (subject : Subject) (pos : Nat) (v : Slots) (s : ByteSet) (next : Nat) :
    (consume s next).moves subject pos v = [] := by
  rw [consume]
  split <;> rfl

/-- The state for a set reads the bytes of the set, also when it compares with a single byte. -/
theorem step?_consume (s : ByteSet) (next : Nat) (b : UInt8) :
    (consume s next).step? b = if s.contains b then some next else none := by
  rw [consume]
  split
  · rename_i b' hb'
    -- A set with one byte is compared with that byte.
    rw [step?, ByteSet.eq_single_of_single? hb', ByteSet.contains_single]
    simp only [beq_iff_eq]
  · rfl

end State

/-- The states of a list stand in an automaton from a number on. -/
abbrev LaidAt (a : Automaton) (base : Nat) (states : List State) : Prop :=
  Laid (fun q => a.states[q]?) base states

/-- Between two state numbers, what enters at one state can go on to another one wherever a relation
leads, and what comes out has gone that way. -/
structure Conducts (a : Automaton) (subject : Subject) (lo hi entry exit : Nat)
    (R : Candidate → Candidate → Prop) : Prop where
  /-- Where the relation leads there is a path. -/
  path : ∀ {c d}, R c d → a.Path subject ⟨entry, c⟩ ⟨exit, d⟩
  /-- A run to a state outside comes through the exit. It has no more steps left there than it had,
  which is what an induction around a loop needs. -/
  escape : ∀ {n c q e}, q < lo ∨ hi ≤ q → Iterates (Step a subject) n ⟨entry, c⟩ ⟨q, e⟩ →
    ∃ d m, m ≤ n ∧ R c d ∧ Iterates (Step a subject) m ⟨exit, d⟩ ⟨q, e⟩

namespace Conducts

variable {a : Automaton} {subject : Subject} {lo hi q x y z : Nat}
  {R S : Candidate → Candidate → Prop}

theorem congr (h : a.Conducts subject lo hi x y R) (hRS : ∀ c d, R c d ↔ S c d) :
    a.Conducts subject lo hi x y S where
  path hcd := h.path ((hRS _ _).2 hcd)
  escape hq hrun := by
    obtain ⟨d, m, hm, hd, hrest⟩ := h.escape hq hrun
    exact ⟨d, m, hm, (hRS _ _).1 hd, hrest⟩

/-- A piece is part of any larger one. -/
theorem widen (h : a.Conducts subject lo hi x y R) (lo' hi' : Nat) (hlo : lo' ≤ lo)
    (hhi : hi ≤ hi') : a.Conducts subject lo' hi' x y R where
  path := h.path
  escape hq hrun := h.escape (by omega) hrun

/-- Nothing happens between a state and itself. -/
theorem refl (a : Automaton) (subject : Subject) (lo hi x : Nat) :
    a.Conducts subject lo hi x x fun c d => d = c where
  path := by
    rintro c d rfl
    exact Path.refl a subject ⟨x, d⟩
  escape _ hrun := ⟨_, _, Nat.le_refl _, rfl, hrun⟩

/-- One piece after the other. -/
theorem trans (h : a.Conducts subject lo hi x y R) (h' : a.Conducts subject lo hi y z S) :
    a.Conducts subject lo hi x z fun c e => ∃ d, R c d ∧ S d e where
  path := by
    rintro c e ⟨d, hcd, hde⟩
    exact (h.path hcd).trans (h'.path hde)
  escape hq hrun := by
    obtain ⟨d, m, hm, hd, hrest⟩ := h.escape hq hrun
    obtain ⟨e, k, hk, he, hrest'⟩ := h'.escape hq hrest
    exact ⟨e, k, Nat.le_trans hk hm, ⟨d, hd, he⟩, hrest'⟩

/-- A single state that leads to one other state. -/
theorem single (hstep : ∀ c t, Step a subject ⟨q, c⟩ t ↔ ∃ d, R c d ∧ t = ⟨y, d⟩) :
    a.Conducts subject q (q + 1) q y R where
  path hcd := Path.head ((hstep _ _).2 ⟨_, hcd, rfl⟩) (Path.refl a subject _)
  escape {n c q' e} hq hrun := by
    cases n with
    | zero =>
      -- Without a step the run has not left the piece.
      cases hrun
      omega
    | succ n =>
      -- The first step is the only one inside.
      obtain ⟨t, hfirst, hrest⟩ := hrun
      obtain ⟨d, hd, rfl⟩ := (hstep c t).1 hfirst
      exact ⟨d, n, Nat.le_succ n, hd, hrest⟩

/-- A state that branches to pieces with one exit. -/
theorem branch {targets : List Nat} (hq : a.states[q]? = some (.branch targets)) (hlo : lo ≤ q)
    (hhi : q < hi)
    (hpath : ∀ c d, R c d → ∃ x ∈ targets, ∃ S, a.Conducts subject lo hi x z S ∧ S c d)
    (hescape : ∀ x ∈ targets, ∃ S, a.Conducts subject lo hi x z S ∧ ∀ c d, S c d → R c d) :
    a.Conducts subject lo hi q z R where
  path hcd := by
    obtain ⟨x, hx, S, hS, hcd⟩ := hpath _ _ hcd
    exact Path.head (.branch hq hx) (hS.path hcd)
  escape {n c q' e} hout hrun := by
    cases n with
    | zero =>
      cases hrun
      omega
    | succ n =>
      obtain ⟨t, hfirst, hrest⟩ := hrun
      rw [step_iff hq] at hfirst
      -- The first step goes to one of the targets, whose piece takes the run to the exit.
      rcases hfirst with ⟨x, w, hmem, rfl⟩ | ⟨_, _, -, hread, -⟩
      · obtain ⟨x, hx, heq⟩ := List.mem_map.1 hmem
        cases heq
        obtain ⟨S, hS, hSR⟩ := hescape x hx
        obtain ⟨d, m, hm, hd, hrest'⟩ := hS.escape hout hrest
        exact ⟨d, m, Nat.le_succ_of_le hm, hSR _ _ hd, hrest'⟩
      · cases hread

/-- A state that branches to a piece or past it. -/
theorem optional (hq : a.states[q]? = some (.branch [x, z])) (hlo : lo ≤ q) (hhi : q < hi)
    (h : a.Conducts subject lo hi x z R) :
    a.Conducts subject lo hi q z fun c d => R c d ∨ d = c := by
  refine branch hq hlo hhi (fun c d hcd => ?_) fun y hy => ?_
  · rcases hcd with hcd | hcd
    · exact ⟨x, by simp, R, h, hcd⟩
    · exact ⟨z, by simp, _, refl a subject lo hi z, hcd⟩
  · simp only [List.mem_cons, List.not_mem_nil, or_false] at hy
    rcases hy with rfl | rfl
    · exact ⟨R, h, fun c d => .inl⟩
    · exact ⟨_, refl a subject lo hi y, fun c d => .inr⟩

/-- A state that branches to a piece that comes back, or on. -/
theorem star (hq : a.states[q]? = some (.branch [x, y])) (hlo : lo ≤ q) (hhi : q < hi)
    (h : a.Conducts subject lo hi x q R) :
    a.Conducts subject lo hi q y fun c d => ∃ n, Iterates R n c d where
  path := by
    rintro c d ⟨n, hn⟩
    induction n generalizing c with
    | zero =>
      obtain rfl : c = d := hn
      exact Path.head (.branch hq (by simp)) (Path.refl a subject _)
    | succ n ih =>
      obtain ⟨e, hce, hed⟩ := hn
      exact Path.head (.branch hq (by simp)) ((h.path hce).trans (ih hed))
  escape {n c q' e} hout hrun := by
    -- The branching state itself takes a step, so the run gets shorter each time around.
    induction n using Nat.strongRecOn generalizing c with
    | ind n ih =>
      cases n with
      | zero =>
        cases hrun
        omega
      | succ n =>
        obtain ⟨t, hfirst, hrest⟩ := hrun
        rw [step_iff hq] at hfirst
        rcases hfirst with ⟨r, w, hmem, rfl⟩ | ⟨_, _, -, hread, -⟩
        · simp only [State.moves, List.map_cons, List.map_nil, List.mem_cons, Prod.mk.injEq,
            List.not_mem_nil, or_false] at hmem
          rcases hmem with ⟨rfl, rfl⟩ | ⟨rfl, rfl⟩
          · -- Through the piece and back again, with fewer steps left.
            obtain ⟨d, m, hm, hd, hback⟩ := h.escape hout hrest
            obtain ⟨d', k, hk, ⟨j, hj⟩, hrest'⟩ := ih m (Nat.lt_succ_of_le hm) hback
            exact ⟨d', k, by omega, ⟨j + 1, d, hd, hj⟩, hrest'⟩
          · -- On at once, without a pass.
            exact ⟨c, n, Nat.le_succ n, ⟨0, rfl⟩, hrest⟩
        · cases hread

/-- A state that reads no byte and has one move at most. -/
theorem move {st : State} (hq : a.states[q]? = some st) (hread : ∀ b, st.step? b = none)
    (hmoves : ∀ c r w, (r, w) ∈ st.moves subject c.stop c.slots ↔ r = y ∧ R c ⟨c.stop, w⟩)
    (hstop : ∀ c d, R c d → d.stop = c.stop) : a.Conducts subject q (q + 1) q y R := by
  refine single fun c t => ?_
  rw [step_iff hq]
  constructor
  · rintro (⟨r, w, hmem, rfl⟩ | ⟨b, next, -, hstep, -⟩)
    · obtain ⟨rfl, hR⟩ := (hmoves c r w).1 hmem
      exact ⟨_, hR, rfl⟩
    · rw [hread] at hstep
      cases hstep
  · rintro ⟨⟨stop, w⟩, hR, rfl⟩
    obtain rfl : stop = c.stop := hstop _ _ hR
    exact .inl ⟨y, w, (hmoves c y w).2 ⟨rfl, hR⟩, rfl⟩

/-- A state that leads on conducts nothing but what enters it. -/
theorem skip (subject : Subject) (hq : a.states[q]? = some (.skip y)) :
    a.Conducts subject q (q + 1) q y fun c d => d = c := by
  refine move hq (fun _ => rfl) (fun c r w => ?_) fun c d h => congrArg Candidate.stop h
  rw [State.moves, List.mem_singleton, Prod.mk.injEq, Candidate.mk.injEq, eq_self_iff_true,
    true_and]

/-- An assertion conducts what enters it where its anchor holds. -/
theorem assertion (subject : Subject) {anchor : Anchor}
    (hq : a.states[q]? = some (.assertion anchor y)) :
    a.Conducts subject q (q + 1) q y
      fun c d => subject.holds c.stop anchor = true ∧ d = c := by
  refine move hq (fun _ => rfl) (fun c r w => ?_) fun c d h => congrArg Candidate.stop h.2
  rw [State.moves]
  split
  · rename_i hholds
    rw [List.mem_singleton, Prod.mk.injEq, Candidate.mk.injEq]
    simp only [hholds, true_and]
  · rename_i hholds
    simp only [hholds, List.not_mem_nil, Bool.false_eq_true, false_and, and_false]

/-- The state that enters a group. -/
theorem enterGroup (subject : Subject) {group lastNested : Nat}
    (hq : a.states[q]? = some (.enterGroup group lastNested y)) :
    a.Conducts subject q (q + 1) q y
      fun c d => d = ⟨c.stop, c.slots.enter group lastNested c.stop⟩ := by
  refine move hq (fun _ => rfl) (fun c r w => ?_) fun c d h => by rw [h]
  rw [State.moves, List.mem_singleton, Prod.mk.injEq, Candidate.mk.injEq, eq_self_iff_true,
    true_and]

/-- The state that leaves a group. -/
theorem leaveGroup (subject : Subject) {group : Nat}
    (hq : a.states[q]? = some (.leaveGroup group y)) :
    a.Conducts subject q (q + 1) q y fun c d => d = ⟨c.stop, c.slots.leave group c.stop⟩ := by
  refine move hq (fun _ => rfl) (fun c r w => ?_) fun c d h => by rw [h]
  rw [State.moves, List.mem_singleton, Prod.mk.injEq, Candidate.mk.injEq, eq_self_iff_true,
    true_and]

/-- The state that consumes a byte of a set. -/
theorem consume (subject : Subject) {s : ByteSet} (hq : a.states[q]? = some (.consume s y)) :
    a.Conducts subject q (q + 1) q y
      fun c d => Expr.Consumes subject (some s) c.stop d.stop ∧ d.slots = c.slots := by
  refine single fun c t => ?_
  rw [step_iff hq, State.moves_consume]
  constructor
  · rintro (⟨_, _, hmem, -⟩ | ⟨b, next, hb, hstep, rfl⟩)
    · exact absurd hmem List.not_mem_nil
    · rw [State.step?_consume] at hstep
      split at hstep <;> cases hstep
      rename_i hs
      exact ⟨⟨c.stop + 1, c.slots⟩, ⟨⟨s, b, rfl, hb, hs, rfl⟩, rfl⟩, rfl⟩
  · rintro ⟨⟨stop, slots⟩, ⟨⟨_, b, hs, hb, hcontains, hstop⟩, hslots⟩, rfl⟩
    cases hs
    dsimp only at hstop hslots
    subst hstop hslots
    exact .inr ⟨b, y, hb, by rw [State.step?_consume, if_pos hcontains], rfl⟩

/-! ### Chains of copies -/

variable {fragment : Expr.Fragment} {size : Nat}

/-- A chain of copies conducts as many times what one copy conducts. -/
theorem copies (hlength : ∀ base next, (fragment base next).length = size)
    (hfragment : ∀ base next, a.LaidAt base (fragment base next) →
      a.Conducts subject base (base + size) base next R)
    {n base next : Nat} (hlaid : a.LaidAt base (Expr.Fragment.copies fragment size n base next)) :
    a.Conducts subject base (base + n * size) (Expr.Fragment.entry (n == 0) base next) next
      (Iterates R n) := by
  induction n generalizing base with
  | zero => exact (refl a subject _ _ next).congr fun c d => eq_comm
  | succ n ih =>
    -- The first copy leads to the chain of the others.
    have hfirst := hfragment _ _ hlaid.left
    have hright := hlaid.right
    rw [hlength] at hright
    have hrest := ih hright
    rw [Nat.succ_mul]
    exact (hfirst.widen _ _ (Nat.le_refl _) (by omega)).trans
      (hrest.widen _ _ (by omega) (by omega))

/-- A chain of copies that may be left before each of them conducts up to as many times what one
copy conducts. -/
theorem optionals (hlength : ∀ base next, (fragment base next).length = size)
    (hfragment : ∀ base next, a.LaidAt base (fragment base next) →
      a.Conducts subject base (base + size) base next R)
    {n base next : Nat}
    (hlaid : a.LaidAt base (Expr.Fragment.optionals fragment size n base next)) :
    a.Conducts subject base (base + n * (1 + size)) (Expr.Fragment.entry (n == 0) base next) next
      fun c d => ∃ k ≤ n, Iterates R k c d := by
  induction n generalizing base with
  | zero =>
    refine (refl a subject _ _ next).congr fun c d => ⟨fun h => ⟨0, Nat.le_refl 0, h.symm⟩, ?_⟩
    rintro ⟨k, hk, h⟩
    obtain rfl : k = 0 := Nat.le_zero.1 hk
    exact h.symm
  | succ n ih =>
    have hfirst := hfragment _ _ hlaid.tail.left
    have hright := hlaid.tail.right
    rw [hlength] at hright
    have hrest := ih hright
    rw [Nat.succ_mul]
    -- Behind the branching state stand one copy and then the rest of the chain.
    have hpass := (hfirst.widen base (base + (n * (1 + size) + (1 + size)))
      (by omega) (by omega)).trans (hrest.widen _ _ (by omega) (by omega))
    refine (optional hlaid.head (Nat.le_refl _) (by omega) hpass).congr fun c d => ?_
    -- A pass more than the rest of the chain takes, or none at all.
    constructor
    · rintro (⟨e, hce, k, hk, hed⟩ | rfl)
      · exact ⟨k + 1, Nat.succ_le_succ hk, e, hce, hed⟩
      · exact ⟨0, Nat.zero_le _, rfl⟩
    · rintro ⟨k, hk, h⟩
      cases k with
      | zero => exact .inr h.symm
      | succ k =>
        obtain ⟨e, hce, hed⟩ := h
        exact .inl ⟨e, hce, k, Nat.le_of_succ_le_succ hk, hed⟩

end Conducts

end Automaton

namespace Expr

open Automaton

variable {a : Automaton} {subject : Subject} {o : Options}

/-- A chain of copies that leads to the state behind it is entered where it begins, also when it is
empty. -/
theorem Fragment.entry_behind (n base size : Nat) :
    Fragment.entry (n == 0) base (base + n * size) = base := by
  cases n with
  | zero => rw [Nat.zero_mul, Nat.add_zero, Fragment.entry, ite_self]
  | succ n => rfl

section Loops

variable {body : Expr} {R : Candidate → Candidate → Prop} {min max base next : Nat}
  (hbody : ∀ base next, a.LaidAt base (body.fragment o base next) →
    a.Conducts subject base (base + body.stateCount) base next R)

include hbody

/-- A loop that may be passed by. -/
theorem conducts_star (hlaid : a.LaidAt base ((loop body 0 none).fragment o base next)) :
    a.Conducts subject base (base + (loop body 0 none).stateCount) base next
      fun c d => ∃ n, Iterates R n c d := by
  simp only [fragment, stateCount, if_true] at hlaid ⊢
  have hpass := (hbody _ _ hlaid.tail.tail).widen base (base + (2 + body.stateCount))
    (by omega) (by omega)
  have hloop := Conducts.star hlaid.tail.head (by omega) (by omega) hpass
  have hskip := (Conducts.skip subject hlaid.head).widen base (base + (2 + body.stateCount))
    (Nat.le_refl _) (by omega)
  refine (hskip.trans hloop).congr fun c d => ⟨?_, fun h => ⟨c, rfl, h⟩⟩
  rintro ⟨_, rfl, h⟩
  exact h

/-- A loop around the last of the copies that must be taken. -/
theorem conducts_plus (hlaid : a.LaidAt base ((loop body (min + 1) none).fragment o base next)) :
    a.Conducts subject base (base + (loop body (min + 1) none).stateCount) base next
      fun c d => ∃ n, min + 1 ≤ n ∧ Iterates R n c d := by
  have hlength := length_fragment o body
  simp only [fragment, stateCount, if_neg (Nat.succ_ne_zero min), Nat.add_sub_cancel] at hlaid ⊢
  have hsize : (min + 1) * body.stateCount = min * body.stateCount + body.stateCount :=
    Nat.succ_mul _ _
  -- The copies end where the body of the loop begins.
  have hcopies := Conducts.copies hlength hbody hlaid.tail.left.left
  rw [Fragment.entry_behind] at hcopies
  have hlast := hlaid.tail.left.right
  rw [Fragment.length_copies hlength] at hlast
  -- The branching state stands after the last copy and leads back to it.
  have hbranch := hlaid.tail.right.head
  rw [List.length_append, Fragment.length_copies hlength, hlength, ← Nat.add_assoc] at hbranch
  have hskip := (Conducts.skip subject hlaid.head).widen base
    (base + (2 + (min + 1) * body.stateCount)) (Nat.le_refl _) (by omega)
  have hpass := (hbody _ _ hlast).widen base (base + (2 + (min + 1) * body.stateCount))
    (by omega) (by omega)
  have hloop := Conducts.star hbranch (by omega) (by omega) hpass
  refine ((hskip.trans (hcopies.widen _ _ (by omega) (by omega))).trans
    (hpass.trans hloop)).congr fun c d => ⟨?_, ?_⟩
  · rintro ⟨e, ⟨_, rfl, h⟩, e', h', n, h''⟩
    exact ⟨min + (n + 1), by omega, h.append ⟨e', h', h''⟩⟩
  · -- The copies take the first passes, the last copy the next one, and the loop the others.
    rintro ⟨n, hn, h⟩
    obtain ⟨n, rfl⟩ := Nat.exists_eq_add_of_le hn
    rw [Nat.add_assoc, Nat.add_comm 1] at h
    obtain ⟨e, h, e', h', h''⟩ := h.split
    exact ⟨e, ⟨c, rfl, h⟩, e', h', n, h''⟩

/-- Copies that must be taken, and then copies that may be taken. -/
theorem conducts_range (hlt : min < max)
    (hlaid : a.LaidAt base ((loop body min (some max)).fragment o base next)) :
    a.Conducts subject base (base + (loop body min (some max)).stateCount) base next
      fun c d => ∃ n, min ≤ n ∧ n ≤ max ∧ Iterates R n c d := by
  have hlength := length_fragment o body
  simp only [fragment, stateCount, if_pos hlt] at hlaid ⊢
  have hcopies := Conducts.copies hlength hbody hlaid.tail.left
  have hright := hlaid.tail.right
  rw [Fragment.length_copies hlength] at hright
  -- The optional copies stand behind the state that leaves the loop and lead back to it.
  have hpasses := Conducts.optionals hlength hbody hright.tail
  rw [Fragment.entry, if_neg (by simp only [beq_iff_eq]; omega)] at hpasses
  have hskip := (Conducts.skip subject hlaid.head).widen base
    (base + (2 + min * body.stateCount + (max - min) * (1 + body.stateCount)))
    (Nat.le_refl _) (by omega)
  have hexit := (Conducts.skip subject hright.head).widen base
    (base + (2 + min * body.stateCount + (max - min) * (1 + body.stateCount)))
    (by omega) (by omega)
  refine ((hskip.trans (hcopies.widen _ _ (by omega) (by omega))).trans
    ((hpasses.widen _ _ (by omega) (by omega)).trans hexit)).congr fun c d => ⟨?_, ?_⟩
  · rintro ⟨e, ⟨_, rfl, h⟩, _, ⟨n, hn, h'⟩, rfl⟩
    exact ⟨min + n, Nat.le_add_right _ _, by omega, h.append h'⟩
  · -- The first passes go through the copies that must be taken, the others through the rest.
    rintro ⟨n, hmin, hmax, h⟩
    obtain ⟨n, rfl⟩ := Nat.exists_eq_add_of_le hmin
    obtain ⟨e, h, h'⟩ := h.split
    exact ⟨e, ⟨c, rfl, h⟩, d, ⟨n, by omega, h'⟩, rfl⟩

/-- Copies that must be taken, and no more. -/
theorem conducts_exact
    (hlaid : a.LaidAt base ((loop body min (some min)).fragment o base next)) :
    a.Conducts subject base (base + (loop body min (some min)).stateCount) base next
      (Iterates R min) := by
  simp only [fragment, stateCount, if_neg (Nat.lt_irrefl min)] at hlaid ⊢
  have hcopies := Conducts.copies (length_fragment o body) hbody hlaid.tail
  have hskip := (Conducts.skip subject hlaid.head).widen base
    (base + (1 + min * body.stateCount)) (Nat.le_refl _) (by omega)
  refine (hskip.trans (hcopies.widen _ _ (by omega) (by omega))).congr
    fun c d => ⟨?_, fun h => ⟨c, rfl, h⟩⟩
  rintro ⟨_, rfl, h⟩
  exact h

/-- A loop conducts as many times as its bounds allow what its body conducts, whichever shape its
fragment has. -/
theorem conducts_loop {max : Option Nat} (hmax : ∀ m ∈ max, min ≤ m)
    (hlaid : a.LaidAt base ((loop body min max).fragment o base next)) :
    a.Conducts subject base (base + (loop body min max).stateCount) base next
      fun c d => ∃ n, min ≤ n ∧ (∀ m ∈ max, n ≤ m) ∧ Iterates R n c d := by
  -- The four shapes of the fragment follow its bounds.
  cases max with
  | none =>
    simp only [Option.not_mem_none, false_imp_iff, implies_true, true_and]
    cases min with
    | zero =>
      simp only [Nat.zero_le, true_and]
      exact conducts_star hbody hlaid
    | succ min => exact conducts_plus hbody hlaid
  | some max =>
    simp only [Option.mem_some_iff, forall_eq'] at hmax ⊢
    rcases Nat.lt_or_eq_of_le hmax with hlt | rfl
    · exact conducts_range hbody hlt hlaid
    · refine (conducts_exact hbody hlaid).congr fun c d => ⟨fun h => ?_, ?_⟩
      · exact ⟨min, Nat.le_refl _, Nat.le_refl _, h⟩
      · rintro ⟨n, hmin, hmax, h⟩
        exact Nat.le_antisymm hmax hmin ▸ h

end Loops

mutual

/-- The fragment of a tree conducts the derivations of the tree. -/
theorem conducts_fragment {t : Expr} {before base next : Nat} (hback : t.hasBackref = false)
    (hord : t.Orderly before) (hlaid : a.LaidAt base (t.fragment subject.options base next)) :
    a.Conducts subject base (base + t.stateCount) base next (t.Derives subject) := by
  cases t with
  | empty => exact Conducts.skip subject hlaid.head
  | literal | any | set | named => exact Conducts.consume subject hlaid.head
  | anchor kind => exact Conducts.assertion subject hlaid.head
  | backref index => exact absurd hback.symm Bool.false_ne_true
  | concat items =>
    cases items with
    | nil => exact Conducts.skip subject hlaid.head
    | cons t ts => exact conducts_sequence hback hord hlaid
  | alternation branches =>
    -- Every branch leads to the state after the branching one, which leads on.
    have hexit := (Conducts.skip subject hlaid.tail.head).widen base
      (base + (2 + stateCountAll branches)) (by omega) (by omega)
    obtain ⟨hpath, hescape⟩ := conducts_choices hback hord hlaid.tail.tail
    refine ((Conducts.branch (R := DerivesAny subject branches) hlaid.head (Nat.le_refl _)
      (by omega) (fun c d hcd => ?_) fun x hx => ?_).trans hexit).congr
        fun c d => ⟨?_, fun h => ⟨d, h, rfl⟩⟩
    · obtain ⟨t, ht, hcd⟩ := derivesAny_iff.1 hcd
      obtain ⟨x, hx, h⟩ := hpath t ht
      exact ⟨x, hx, _, h.widen _ _ (by omega) (by omega), hcd⟩
    · obtain ⟨t, ht, h⟩ := hescape x hx
      exact ⟨_, h.widen _ _ (by omega) (by omega), fun c d hcd => derivesAny_iff.2 ⟨t, ht, hcd⟩⟩
    · rintro ⟨_, h, rfl⟩
      exact h
  | loop body min max =>
    have hbody {base next : Nat} (h : a.LaidAt base (body.fragment subject.options base next)) :=
      conducts_fragment (t := body) hback hord.2.2 h
    exact conducts_loop (fun _ _ h => hbody h) hord.2.1 hlaid
  | group index body =>
    -- The body stands between the state that enters the group and the one that leaves it.
    have hbody := conducts_fragment (t := body) hback hord.2 hlaid.tail.left
    have hright := hlaid.tail.right
    rw [length_fragment] at hright
    have henter := (Conducts.enterGroup subject hlaid.head).widen base
      (base + (2 + body.stateCount)) (Nat.le_refl _) (by omega)
    have hleave := (Conducts.leaveGroup subject hright.head).widen base
      (base + (2 + body.stateCount)) (by omega) (by omega)
    refine (henter.trans ((hbody.widen _ _ (by omega) (by omega)).trans hleave)).congr
      fun c d => ⟨?_, fun ⟨e, he, hd⟩ => ⟨_, rfl, e, he, hd⟩⟩
    rintro ⟨_, rfl, e, he, hd⟩
    exact ⟨e, he, hd⟩
termination_by structural t

/-- A chain of fragments conducts the derivations of its trees, one after the other. -/
theorem conducts_sequence {ts : List Expr} {before base next : Nat}
    (hback : hasBackrefAny ts = false) (hord : OrderlyAll ts before)
    (hlaid : a.LaidAt base (sequence subject.options ts base next)) :
    a.Conducts subject base (base + stateCountAll ts) (Fragment.entry ts.isEmpty base next) next
      (DerivesAll subject ts) := by
  cases ts with
  | nil => exact Conducts.refl a subject _ _ next
  | cons t ts =>
    rw [hasBackrefAny, Bool.or_eq_false_iff] at hback
    have hright := hlaid.right
    rw [length_fragment] at hright
    have hfirst := conducts_fragment hback.1 hord.1 hlaid.left
    have hrest := conducts_sequence hback.2 hord.2 hright
    rw [stateCountAll]
    exact (hfirst.widen _ _ (Nat.le_refl _) (by omega)).trans
      (hrest.widen _ _ (by omega) (by omega))
termination_by structural ts

/-- The fragments of branches conduct the derivations of their trees, each from its first state. -/
theorem conducts_choices {ts : List Expr} {before base next : Nat}
    (hback : hasBackrefAny ts = false) (hord : OrderlyAll ts before)
    (hlaid : a.LaidAt base (choices subject.options ts base next)) :
    (∀ t ∈ ts, ∃ x ∈ branchStarts base ts,
        a.Conducts subject base (base + stateCountAll ts) x next (t.Derives subject)) ∧
      ∀ x ∈ branchStarts base ts, ∃ t ∈ ts,
        a.Conducts subject base (base + stateCountAll ts) x next (t.Derives subject) := by
  cases ts with
  | nil => exact ⟨nofun, nofun⟩
  | cons t ts =>
    rw [hasBackrefAny, Bool.or_eq_false_iff] at hback
    have hright := hlaid.right
    rw [length_fragment] at hright
    rw [stateCountAll, branchStarts]
    -- A path through one branch stays among the states of all of them.
    have hfirst := (conducts_fragment hback.1 hord.1 hlaid.left).widen base
      (base + (t.stateCount + stateCountAll ts)) (Nat.le_refl _) (by omega)
    obtain ⟨hpath, hescape⟩ := conducts_choices hback.2 hord.2 hright
    constructor
    · intro u hu
      rcases List.mem_cons.1 hu with rfl | hu
      · exact ⟨base, List.mem_cons_self, hfirst⟩
      · obtain ⟨x, hx, h⟩ := hpath u hu
        exact ⟨x, List.mem_cons_of_mem base hx, h.widen _ _ (by omega) (by omega)⟩
    · intro x hx
      rcases List.mem_cons.1 hx with rfl | hx
      · exact ⟨t, List.mem_cons_self, hfirst⟩
      · obtain ⟨u, hu, h⟩ := hescape x hx
        exact ⟨u, List.mem_cons_of_mem t hu, h.widen _ _ (by omega) (by omega)⟩
termination_by structural ts

end

end Expr

/-! ### Whole automata -/

namespace Automaton

/-- An expression is run as an automaton just when it has no back-references and few enough states,
and then it is its own automaton. -/
theorem engine_ofExpr_eq_automaton_iff {o : Options} {t : Expr} {a : Automaton} :
    Engine.ofExpr o t = .ok (.automaton a) ↔
      t.hasBackref = false ∧ t.stateCount < o.stateLimit ∧ a = ofExpr o t := by
  rw [Engine.ofExpr_eq]
  by_cases hback : t.hasBackref = true
  · simp [hback]
  · by_cases hlt : t.stateCount < o.stateLimit
    · simp [hback, hlt, eq_comm]
    · simp [hback, hlt]

/-- A tree is run as it stands when it has back-references. -/
theorem engine_ofExpr_eq_enumeration_iff {o : Options} {t u : Expr} :
    Engine.ofExpr o t = .ok (.enumeration u) ↔ t.hasBackref = true ∧ u = t := by
  rw [Engine.ofExpr_eq]
  by_cases hback : t.hasBackref = true
  · simp [hback, eq_comm]
  · by_cases hlt : t.stateCount < o.stateLimit
    · simp [hback, hlt]
    · simp [hback, hlt]

/-- The fragment of a tree stands at the start of its automaton. -/
theorem laidAt_ofExpr (o : Options) (t : Expr) :
    (ofExpr o t).LaidAt 0 (t.fragment o 0 t.stateCount) := by
  intro i st hi
  obtain ⟨hlt, -⟩ := List.getElem?_eq_some_iff.1 hi
  show (ofExpr o t).states[0 + i]? = some st
  rw [ofExpr, Nat.zero_add, List.getElem?_toArray, List.getElem?_append_left hlt, hi]

/-- The accepting state comes after the fragment. -/
theorem states_accept_ofExpr (o : Options) (t : Expr) :
    (ofExpr o t).states[(ofExpr o t).accept]? = some .accept := by
  have hlength := Expr.length_fragment o t 0 t.stateCount
  rw [ofExpr, List.getElem?_toArray, List.getElem?_append_right (Nat.le_of_eq hlength), hlength,
    Nat.sub_self]
  rfl

/-- The automaton of an orderly tree has a path from its start to its accepting state just where the
tree has a derivation. -/
theorem path_ofExpr_iff (subject : Subject) {t : Expr} (hback : t.hasBackref = false)
    (hord : t.Orderly 0) (c d : Candidate) :
    (ofExpr subject.options t).Path subject ⟨(ofExpr subject.options t).start, c⟩
        ⟨(ofExpr subject.options t).accept, d⟩ ↔ t.Derives subject c d := by
  have hconducts := Expr.conducts_fragment hback hord (laidAt_ofExpr subject.options t)
  rw [Nat.zero_add] at hconducts
  constructor
  · rintro ⟨n, hrun⟩
    -- The accepting state lies outside the fragment, and no step leads on from it.
    obtain ⟨e, m, -, he, hrest⟩ := hconducts.escape (.inr (Nat.le_refl _)) hrun
    cases m with
    | zero =>
      cases hrest
      exact he
    | succ m =>
      obtain ⟨y, hstep, -⟩ := hrest
      exact absurd hstep (not_step_of_accept (states_accept_ofExpr subject.options t) e y)
  · exact hconducts.path

/-- Compilation keeps derivations. Between any two candidates `c` and `d`, whatever their positions
and records, the automaton `a` of a pattern has a `Path` from `a.start` to `a.accept` just when the
tree `t` of the pattern `Derives` one from the other. The groups that are forgotten on entry to the
group `index`, which are given by a range of numbers, are just those inside its `body`. -/
theorem path_iff_derives {pattern : List UInt8} {t : Expr} (ht : Expr.parse pattern = .ok t)
    {o : Options} {a : Automaton} (ha : Engine.ofExpr o t = .ok (.automaton a))
    (haystack : Array UInt8) (flags : SearchFlags) :
    (∀ c d : Candidate, a.Path ⟨haystack, o, flags⟩ ⟨a.start, c⟩ ⟨a.accept, d⟩ ↔
        t.Derives ⟨haystack, o, flags⟩ c d) ∧
      ∀ index body, (Expr.group index body).IsPart t → ∀ g,
        (∃ inner, (Expr.group g inner).IsPart body) ↔ index < g ∧ g ≤ index + body.groupCount := by
  have hord := Expr.orderly_of_parse ht
  obtain ⟨hback, -, rfl⟩ := engine_ofExpr_eq_automaton_iff.1 ha
  refine ⟨fun c d => path_ofExpr_iff ⟨haystack, o, flags⟩ hback hord c d, ?_⟩
  intro index body hpart g
  obtain ⟨n, -, -, rfl, hbody⟩ := hpart.orderly hord
  exact hbody.exists_group_iff g

/-- The automaton of `(a)*` reads `aa` and keeps the span of the last pass. -/
theorem path_iff_derives_star :
    let t : Expr := .loop (.group 1 (.literal 97)) 0 none
    let a := ofExpr {} t
    Expr.parse [40, 97, 41, 42] = .ok t ∧ Engine.ofExpr {} t = .ok (.automaton a) ∧
      a.Path ⟨#[97, 97], {}, {}⟩ ⟨a.start, ⟨0, [⟨some 0, none⟩, ⟨none, none⟩]⟩⟩
        ⟨a.accept, ⟨2, [⟨some 0, none⟩, ⟨some 1, some 2⟩]⟩⟩ := by
  intro t a
  have hparse : Expr.parse [40, 97, 41, 42] = .ok t := rfl
  have hengine : Engine.ofExpr {} t = .ok (.automaton a) := rfl
  refine ⟨hparse, hengine, ((path_iff_derives hparse hengine #[97, 97] {}).1 _ _).2 ?_⟩
  have hpass (i : Nat) (hi : (#[97, 97] : Array UInt8)[i]? = some 97) (m : Mark) :
      (Expr.group 1 (.literal 97)).Derives ⟨#[97, 97], {}, {}⟩ ⟨i, [⟨some 0, none⟩, m]⟩
        ⟨i + 1, [⟨some 0, none⟩, ⟨some i, some (i + 1)⟩]⟩ :=
    ⟨⟨i + 1, [⟨some 0, none⟩, ⟨some i, none⟩]⟩, ⟨⟨_, 97, rfl, hi, rfl, rfl⟩, rfl⟩, rfl⟩
  exact ⟨2, Nat.zero_le 2, nofun, _, hpass 0 rfl _, _, hpass 1 rfl _, rfl⟩

end Automaton

end PosixRegex
