import Mathlib.Data.List.Induction
import Mathlib.Data.List.Nodup
import Mathlib.Order.Bounds.Defs
import PosixRegex.Proofs.Derivation
import PosixRegex.Proofs.Ranking
import PosixRegex.Proofs.WellFormed

/-!
# Enumeration lists the derivations

The candidates of a tree, as long as the allowance lasts, are the ends of its derivations, each
once, and the search by enumeration finds the leftmost-longest of them.

The one place where the two differ in shape is a loop. Beyond the minimum a pass that consumes
nothing can end the loop, but the loop does not go on from there, and the number of passes is
limited. `Candidate.exists_front_of_iterates` puts any derivation of a loop into that shape: a pass
that consumes nothing is left out when another pass follows it (`Expr.Derives.absorb`).

- `Candidate.mem_ends_iff_iterates`: the rounds of a loop reach what any number of passes reaches.
- `Expr.candidates_yields`: the candidates of a tree are the ends of its derivations, each once.
- `Expr.bestOf_ascends`: the records of all candidates lead to the one that is kept.
- `Expr.searchFrom_spec`: the search finds one of the longest derivations from the first position
  where one starts.
-/

namespace PosixRegex

/-- Whatever a computation yields before the allowance is used up has a property. -/
def Rationed.Yields {α : Type} (x : Rationed α) (Q : α → Prop) : Prop :=
  ∀ allowance a left, x allowance = .ok (a, left) → Q a

namespace Rationed.Yields

variable {α β : Type} {x : Rationed α} {Q R : α → Prop}

theorem pure {a : α} (h : Q a) : Yields (Pure.pure a : Rationed α) Q := by
  intro allowance b left hb
  obtain ⟨rfl, -⟩ : a = b ∧ allowance = left := Prod.mk.inj (Except.ok.inj hb)
  exact h

theorem bind {f : α → Rationed β} {S : β → Prop} (hx : x.Yields Q)
    (hf : ∀ a, Q a → (f a).Yields S) : (x >>= f).Yields S := by
  intro allowance b left hb
  simp only [Bind.bind, StateT.bind, Except.bind] at hb
  split at hb
  · cases hb
  · rename_i p hp
    exact hf p.1 (hx allowance p.1 p.2 hp) p.2 b left hb

theorem mono (hx : x.Yields Q) (h : ∀ a, Q a → R a) : x.Yields R :=
  fun allowance a left ha => h a (hx allowance a left ha)

/-- Charging candidates does not change them. -/
theorem ration (cs : List Candidate) : (Candidate.ration cs).Yields (· = cs) := by
  intro allowance ds left h
  unfold Candidate.ration at h
  split at h <;> cases h
  rfl

end Rationed.Yields

namespace Candidate

open Rationed

variable {R : Candidate → Candidate → Prop} {step : Candidate → Rationed (List Candidate)}
  {c d e : Candidate} {min k n : Nat}

/-- A step lists the candidates in a relation to the given one, each once. -/
def Lists (step : Candidate → Rationed (List Candidate)) (R : Candidate → Candidate → Prop) :
    Prop :=
  ∀ c, (step c).Yields fun found => found.Nodup ∧ ∀ d, d ∈ found ↔ R c d

/-- Extending candidates lists all that extend one of them, with the one that they extend. -/
theorem extend_yields (h : Lists step R) (front : List Candidate) :
    (extend step front).Yields fun found => ∀ c d, (c, d) ∈ found ↔ c ∈ front ∧ R c d := by
  have hmapM : ((front.mapM fun c => return (← step c).map fun d => (c, d)) :
      Rationed (List (List (Candidate × Candidate)))).Yields
        fun found => ∀ c d, (c, d) ∈ found.flatten ↔ c ∈ front ∧ R c d := by
    induction front with
    | nil =>
      rw [List.mapM_nil]
      exact Yields.pure fun c d => by simp
    | cons c front ih =>
      rw [List.mapM_cons]
      -- The first list extends the first candidate, the others extend the rest.
      refine Yields.bind (Q := fun found => ∀ a d, (a, d) ∈ found ↔ a = c ∧ R c d) ?_ ?_
      · refine (h c).bind fun found hfound => Yields.pure fun a d => ?_
        simp only [List.mem_map, Prod.mk.injEq, hfound.2]
        constructor
        · rintro ⟨d', hd', rfl, rfl⟩
          exact ⟨rfl, hd'⟩
        · rintro ⟨rfl, hd⟩
          exact ⟨d, hd, rfl, rfl⟩
      · intro first hfirst
        refine ih.bind fun others hothers => Yields.pure fun a d => ?_
        rw [List.flatten_cons, List.mem_append, hfirst, hothers, List.mem_cons]
        constructor
        · rintro (⟨rfl, hd⟩ | ⟨ha, hd⟩)
          · exact ⟨.inl rfl, hd⟩
          · exact ⟨.inr ha, hd⟩
        · rintro ⟨rfl | ha, hd⟩
          · exact .inl ⟨rfl, hd⟩
          · exact .inr ⟨ha, hd⟩
  exact hmapM.bind fun found hfound => Yields.pure hfound

/-! ### Loops -/

/-- What a loop goes on from after a number of passes: beyond the minimum each pass consumes
something. -/
def Front (R : Candidate → Candidate → Prop) (min : Nat) : Nat → Candidate → Candidate → Prop
  | 0, c, d => d = c
  | k + 1, c, d => ∃ e, Front R min k c e ∧ R e d ∧ (k < min ∨ d.stop ≠ e.stop)

/-- What can end a loop after one more than a number of passes: what the loop goes on from, and what
a pass beyond the minimum reaches without consuming anything. -/
def Ends (R : Candidate → Candidate → Prop) (min k : Nat) (c d : Candidate) : Prop :=
  (min ≤ k ∧ ∃ e, Front R min k c e ∧ R e d ∧ d.stop = e.stop) ∨
    (min ≤ k + 1 ∧ Front R min (k + 1) c d)

/-- The rounds of a loop gather the ends of one pass after the other. -/
theorem rounds_yields (h : Lists step R) (min passes k : Nat) (front : List Candidate)
    (ends : List (List Candidate)) (hfront : ∀ d, d ∈ front ↔ Front R min k c d) :
    (rounds step min passes k front ends).Yields fun found =>
      ∀ d, d ∈ found.flatten ↔
        d ∈ ends.flatten ∨ ∃ i, k ≤ i ∧ i < k + passes ∧ Ends R min i c d := by
  induction passes generalizing k front ends with
  | zero =>
    refine Yields.pure fun d => ⟨.inl, ?_⟩
    rintro (hd | ⟨i, hle, hlt, -⟩)
    · exact hd
    · omega
  | succ passes ih =>
    unfold rounds
    dsimp only
    split
    · -- Nothing is left to go on from, in this pass or a later one.
      rename_i hempty
      have hnone (i : Nat) (hi : k ≤ i) (d : Candidate) : ¬Front R min i c d := by
        obtain ⟨j, rfl⟩ := Nat.exists_eq_add_of_le hi
        induction j generalizing d with
        | zero =>
          intro hd
          rw [List.isEmpty_iff.1 hempty] at hfront
          exact List.not_mem_nil ((hfront d).2 hd)
        | succ j ihj =>
          rintro ⟨e, he, -, -⟩
          exact ihj e (Nat.le_add_right k j) he
      refine Yields.pure fun d => ⟨.inl, ?_⟩
      rintro (hd | ⟨i, hle, -, ⟨-, e, he, -, -⟩ | ⟨-, hd⟩⟩)
      · exact hd
      · exact absurd he (hnone i hle e)
      · exact absurd hd (hnone (i + 1) (by omega) d)
    · -- One more pass: what consumes something goes on, what does not can only end the loop.
      refine (extend_yields h front).bind fun pairs hpairs => ?_
      rw [List.partition_eq_filter_filter]
      dsimp only
      have hnext (d : Candidate) : d ∈ distinct ((pairs.filter
          (not ∘ fun p => min ≤ k && p.2.stop == p.1.stop)).map (·.2)) ↔
            Front R min (k + 1) c d := by
        simp only [mem_distinct, List.mem_map, List.mem_filter, Prod.exists, hpairs, hfront]
        constructor
        · rintro ⟨e, d', ⟨⟨he, hd⟩, hmoves⟩, rfl⟩
          refine ⟨e, he, hd, ?_⟩
          simpa [Nat.not_le, imp_iff_not_or] using hmoves
        · rintro ⟨e, he, hd, hmoves⟩
          refine ⟨e, d, ⟨⟨he, hd⟩, ?_⟩, rfl⟩
          simpa [Nat.not_le, imp_iff_not_or] using hmoves
      have hstalled (d : Candidate) : d ∈ (pairs.filter
          fun p => min ≤ k && p.2.stop == p.1.stop).map (·.2) ↔
            min ≤ k ∧ ∃ e, Front R min k c e ∧ R e d ∧ d.stop = e.stop := by
        simp only [List.mem_map, List.mem_filter, Prod.exists, hpairs, hfront, Bool.and_eq_true,
          decide_eq_true_eq, beq_iff_eq]
        constructor
        · rintro ⟨e, d', ⟨⟨he, hd⟩, hle, hstop⟩, rfl⟩
          exact ⟨hle, e, he, hd, hstop⟩
        · rintro ⟨hle, e, he, hd, hstop⟩
          exact ⟨e, d, ⟨⟨he, hd⟩, hle, hstop⟩, rfl⟩
      -- The later rounds gather the later ends, and those of this pass are set aside for them.
      refine (ih (k + 1) _ _ hnext).mono fun found hfound d => ?_
      have hended : d ∈ (pairs.filter fun p => min ≤ k && p.2.stop == p.1.stop).map (·.2) ++
          (if min ≤ k + 1 then distinct ((pairs.filter
            (not ∘ fun p => min ≤ k && p.2.stop == p.1.stop)).map (·.2)) else []) ↔
              Ends R min k c d := by
        rw [List.mem_append, hstalled, Ends]
        by_cases hle : min ≤ k + 1
        · rw [if_pos hle, hnext, and_iff_right hle]
        · simp only [hle, if_false, List.not_mem_nil, false_and]
      rw [hfound, List.flatten_cons, List.mem_append, hended]
      constructor
      · rintro ((hd | hd) | ⟨i, hle, hlt, hd⟩)
        · exact .inr ⟨k, Nat.le_refl k, by omega, hd⟩
        · exact .inl hd
        · exact .inr ⟨i, by omega, by omega, hd⟩
      · rintro (hd | ⟨i, hle, hlt, hd⟩)
        · exact .inl (.inr hd)
        · rcases Nat.eq_or_lt_of_le hle with rfl | hlt'
          · exact .inl (.inl hd)
          · exact .inr ⟨i, hlt', by omega, hd⟩

/-- A loop lists the ends of its passes, and its start when it need not begin. -/
theorem loop_yields (h : Lists step R) (min passes : Nat) (c : Candidate) :
    (loop step min passes c).Yields fun found =>
      found.Nodup ∧ ∀ d, d ∈ found ↔ (∃ i < passes, Ends R min i c d) ∨ min = 0 ∧ d = c := by
  have hfront (d : Candidate) : d ∈ [c] ↔ Front R min 0 c d := List.mem_singleton
  refine (rounds_yields h min passes 0 [c] [] hfront).bind fun ends hends => ?_
  refine Yields.pure ⟨nodup_distinct _, fun d => ?_⟩
  have hreverse : d ∈ ends.reverse.flatten ↔ d ∈ ends.flatten := by
    simp only [List.mem_flatten, List.mem_reverse]
  have hnone : d ∈ (if min = 0 then [c] else []) ↔ min = 0 ∧ d = c := by
    by_cases hmin : min = 0
    · simp only [hmin, if_true, List.mem_singleton, true_and]
    · simp only [hmin, if_false, List.not_mem_nil, false_and]
  rw [mem_distinct, List.mem_append, hreverse, hends, hnone]
  simp only [List.flatten_nil, List.not_mem_nil, false_or, Nat.zero_le, true_and, Nat.zero_add]

/-- What a loop goes on from is reached by as many passes. -/
theorem Front.iterates (h : Front R min k c d) : Iterates R k c d := by
  induction k generalizing d with
  | zero => exact Eq.symm h
  | succ k ih =>
    obtain ⟨e, he, hd, -⟩ := h
    exact Iterates.succ_iff.2 ⟨e, ih he, hd⟩

/-- Up to the minimum a loop goes on from all that the passes reach. -/
theorem front_of_iterates (hk : k ≤ min) (h : Iterates R k c d) : Front R min k c d := by
  induction k generalizing d with
  | zero => exact Eq.symm h
  | succ k ih =>
    obtain ⟨e, he, hd⟩ := Iterates.succ_iff.1 h
    exact ⟨e, ih (Nat.le_of_succ_le hk) he, hd, .inl hk⟩

section Passes

variable {subject : Subject} (hext : ∀ c d, R c d → c.Extends subject d)

include hext

/-- Beyond the minimum every pass that a loop goes on from consumes a byte of the text. -/
theorem Front.passes_le (h : Front R min (min + k) c d) :
    k ≤ d.stop - c.stop ∧ c.Extends subject d := by
  induction k generalizing d with
  | zero =>
    refine ⟨Nat.zero_le _, ?_⟩
    exact h.iterates.preserves (fun a b ha hab => ha.trans (hext a b hab)) (.refl subject c)
  | succ k ih =>
    obtain ⟨e, he, hd, hmoves⟩ := h
    obtain ⟨hk, hce⟩ := ih he
    have hed := hext e d hd
    refine ⟨?_, hce.trans hed⟩
    -- Beyond the minimum only a pass that consumes something is gone on from.
    have hne : d.stop ≠ e.stop := hmoves.resolve_left (Nat.not_lt.2 (Nat.le_add_right min k))
    have := hed.stop_le
    have := hce.stop_le
    omega

/-- The passes that a text allows are enough for a loop without a maximum. -/
theorem Front.le_size (h : Front R min (min + k) c d) : k ≤ subject.size - c.stop := by
  obtain ⟨hk, hcd⟩ := Front.passes_le hext h
  rcases hcd.within with heq | hle
  · omega
  · omega

omit hext in
/-- Any number of passes from a place that a loop goes on from can be put into the shape of a loop:
a pass that consumes nothing is left out unless it is the last. -/
theorem exists_front_of_iterates (habsorb : ∀ c d e, R c d → d.stop = c.stop → R d e → R c e)
    (hc : Front R min (min + k) c e) (h : Iterates R n e d) :
    (∃ i ≤ n, Front R min (min + k + i) c d) ∨
      ∃ i < n, ∃ x, Front R min (min + k + i) c x ∧ R x d ∧ d.stop = x.stop := by
  induction n generalizing k e with
  | zero =>
    -- No pass is left, so the end is what the loop goes on from.
    obtain rfl : e = d := h
    exact .inl ⟨0, Nat.le_refl 0, hc⟩
  | succ n ih =>
    obtain ⟨x, hex, hxd⟩ := h
    -- The induction is on the number of passes; the first of them consumes something or not.
    by_cases hstop : x.stop = e.stop
    · cases n with
      | zero =>
        -- It is the last pass, so it can end the loop.
        obtain rfl : x = d := hxd
        exact .inr ⟨0, Nat.zero_lt_one, e, hc, hex, hstop⟩
      | succ n =>
        -- Another pass follows, which absorbs it.
        obtain ⟨y, hxy, hyd⟩ := hxd
        rcases ih hc ⟨y, habsorb e x y hex hstop hxy, hyd⟩ with ⟨i, hi, hd⟩ | ⟨i, hi, hd⟩
        · exact .inl ⟨i, by omega, hd⟩
        · exact .inr ⟨i, by omega, hd⟩
    · have hx : Front R min (min + (k + 1)) c x := ⟨e, hc, hex, .inr hstop⟩
      have hadd (i : Nat) : min + (k + 1) + i = min + k + (i + 1) := by omega
      rcases ih hx hxd with ⟨i, hi, hd⟩ | ⟨i, hi, hd⟩
      · exact .inl ⟨i + 1, Nat.succ_le_succ hi, hadd i ▸ hd⟩
      · exact .inr ⟨i + 1, Nat.succ_lt_succ hi, hadd i ▸ hd⟩

/-- The rounds of a loop reach just what some number of passes within its bounds reaches. -/
theorem mem_ends_iff_iterates (habsorb : ∀ c d e, R c d → d.stop = c.stop → R d e → R c e)
    (max : Option Nat) :
    ((∃ i < Expr.passes subject min max c.stop, Ends R min i c d) ∨ min = 0 ∧ d = c) ↔
      ∃ n, min ≤ n ∧ (∀ m ∈ max, n ≤ m) ∧ Iterates R n c d := by
  constructor
  · rintro (⟨i, hi, hends⟩ | ⟨hmin, rfl⟩)
    · -- With a maximum there are no more rounds than that.
      have hmax : ∀ m ∈ max, i + 1 ≤ m := by
        rintro m rfl
        exact hi
      rcases hends with ⟨hle, e, he, hd, -⟩ | ⟨hle, hd⟩
      · exact ⟨i + 1, Nat.le_succ_of_le hle, hmax, Iterates.succ_iff.2 ⟨e, he.iterates, hd⟩⟩
      · exact ⟨i + 1, hle, hmax, hd.iterates⟩
    · exact ⟨0, Nat.le_of_eq hmin, fun m _ => Nat.zero_le m, rfl⟩
  · rintro ⟨n, hmin, hmax, h⟩
    -- The passes up to the minimum are taken as they are, and the others put into shape.
    obtain ⟨j, rfl⟩ := Nat.exists_eq_add_of_le hmin
    obtain ⟨e, hce, hed⟩ := h.split
    -- As many passes as the text allows are within the bounds of the loop.
    have hpasses {i : Nat} (hi : i ≤ min + (subject.size - c.stop)) (hij : i < min + j) :
        i < Expr.passes subject min max c.stop := by
      cases max with
      | none => exact Nat.lt_succ_of_le hi
      | some m => exact Nat.lt_of_lt_of_le hij (hmax m rfl)
    rcases exists_front_of_iterates (k := 0) habsorb (front_of_iterates (Nat.le_refl min) hce) hed
      with ⟨i, hi, hd⟩ | ⟨i, hi, x, hx, hd, hstop⟩
    · rw [Nat.add_zero] at hd
      have hsize := hd.le_size hext
      cases hcount : min + i with
      | zero =>
        rw [hcount] at hd
        exact .inr ⟨by omega, hd⟩
      | succ k =>
        rw [hcount] at hd
        exact .inl ⟨k, hpasses (by omega) (by omega), .inr ⟨by omega, hd⟩⟩
    · rw [Nat.add_zero] at hx
      have hsize := hx.le_size hext
      refine .inl ⟨min + i, hpasses (by omega) (by omega), .inl ?_⟩
      exact ⟨Nat.le_add_right min i, x, hx, hd, hstop⟩

end Passes

end Candidate

namespace Expr

open Rationed

variable {subject : Subject} {c d : Candidate}

/-- The candidate of a leaf is the end of its derivation. -/
theorem mem_leafCandidates (s : Option ByteSet) (c d : Candidate) :
    d ∈ leafCandidates subject s c ↔ Consumes subject s c.stop d.stop ∧ d.slots = c.slots := by
  unfold leafCandidates Consumes
  split
  · rename_i bytes b hb
    split
    · rename_i hcontains
      rw [List.mem_singleton]
      constructor
      · rintro rfl
        exact ⟨⟨bytes, b, rfl, hb, hcontains, rfl⟩, rfl⟩
      · rintro ⟨⟨bytes', b', -, -, -, hstop⟩, hslots⟩
        obtain ⟨stop, slots⟩ := d
        exact congr (congrArg Candidate.mk hstop) hslots
    · rename_i hcontains
      refine ⟨fun hmem => absurd hmem List.not_mem_nil, ?_⟩
      rintro ⟨⟨bytes', b', hs, hb', hcontains', -⟩, -⟩
      cases hs
      rw [hb] at hb'
      cases hb'
      exact absurd hcontains' hcontains
  · rename_i hnone
    refine ⟨fun hmem => absurd hmem List.not_mem_nil, ?_⟩
    rintro ⟨⟨bytes, b, hs, hb, -, -⟩, -⟩
    exact (hnone bytes b hs hb).elim

theorem nodup_leafCandidates (s : Option ByteSet) (c : Candidate) :
    (leafCandidates subject s c).Nodup := by
  unfold leafCandidates
  split
  · split
    · exact List.nodup_singleton _
    · exact List.nodup_nil
  · exact List.nodup_nil

/-- The candidate of a back-reference is the end of its derivation. -/
theorem mem_backrefCandidates (index : Nat) (c d : Candidate) :
    d ∈ backrefCandidates subject index c ↔ (backref index).Derives subject c d := by
  unfold backrefCandidates
  constructor
  · intro hmem
    split at hmem
    · rename_i start stop hspan
      split at hmem
      · rename_i hrepeats
        exact ⟨start, stop, hspan, (subject.repeats_eq_true_iff _ _ _).1 hrepeats,
          List.mem_singleton.1 hmem⟩
      · exact absurd hmem List.not_mem_nil
    · exact absurd hmem List.not_mem_nil
  · rintro ⟨start, stop, hspan, hecho, rfl⟩
    rw [hspan]
    dsimp only
    rw [if_pos ((subject.repeats_eq_true_iff _ _ _).2 hecho)]
    exact List.mem_singleton_self _

theorem nodup_backrefCandidates (index : Nat) (c : Candidate) :
    (backrefCandidates subject index c).Nodup := by
  unfold backrefCandidates
  split
  · split
    · exact List.nodup_singleton _
    · exact List.nodup_nil
  · exact List.nodup_nil

/-- Leaving a group tells the ways through its body apart: they agree on the mark that is changed,
which the body does not touch. -/
theorem nodup_map_leave {body : Expr} {before : Nat} (hbody : body.Orderly (before + 1))
    {found : List Candidate} (hnodup : found.Nodup)
    (hfound : ∀ d ∈ found, body.Derives subject c d) :
    (found.map fun d : Candidate =>
      (⟨d.stop, d.slots.leave (before + 1) d.stop⟩ : Candidate)).Nodup := by
  refine hnodup.map_on fun d hd e he heq => ?_
  obtain ⟨hstop, hslots⟩ := Candidate.mk.inj heq
  obtain ⟨stop, v⟩ := d
  obtain ⟨_, w⟩ := e
  obtain rfl : stop = _ := hstop
  congr 1
  -- The body does not touch the mark of the group, so leaving forgets nothing about it.
  have hmark {d : Candidate} (hd : d ∈ found) :
      d.slots.mark (before + 1) = c.slots.mark (before + 1) :=
    (hfound d hd).mark_eq hbody (.inl (Nat.le_refl _))
  refine Slots.ext_mark ?_ fun g => ?_
  · have hlen := congrArg List.length hslots
    rwa [Slots.length_leave, Slots.length_leave] at hlen
  · by_cases hg : g = before + 1
    · rw [hg, hmark hd, hmark he]
    · have hleave := congrArg (Slots.mark · g) hslots
      dsimp only at hleave
      rwa [Slots.mark_leave_of_ne hg, Slots.mark_leave_of_ne hg] at hleave

/-- Charging candidates that are known to be right. -/
theorem ration_yields {cs : List Candidate} {Q : List Candidate → Prop} (h : Q cs) :
    (Candidate.ration cs).Yields Q :=
  (Yields.ration cs).mono fun _ hds => hds ▸ h

mutual

/-- The candidates of a tree are the ends of its derivations, each once. -/
theorem candidates_yields {t : Expr} {before : Nat} (ht : t.Orderly before) :
    Candidate.Lists (t.candidates subject) (t.Derives subject) := by
  intro c
  cases t with
  | empty =>
    exact ration_yields ⟨List.nodup_singleton c, fun d => List.mem_singleton⟩
  | literal | any | set | named =>
    exact ration_yields ⟨nodup_leafCandidates _ c, mem_leafCandidates _ c⟩
  | anchor kind =>
    refine ration_yields ⟨?_, fun d => ?_⟩
    · split
      · exact List.nodup_singleton c
      · exact List.nodup_nil
    · rw [Derives]
      split
      · rename_i hholds
        rw [List.mem_singleton, and_iff_right hholds]
      · rename_i hholds
        exact ⟨fun hmem => absurd hmem List.not_mem_nil, fun h => absurd h.1 hholds⟩
  | backref index =>
    exact ration_yields ⟨nodup_backrefCandidates index c, mem_backrefCandidates index c⟩
  | concat items =>
    -- A sequence starts from the one given candidate.
    refine (sequenceCandidates_yields ht [c]).bind fun found hfound => ?_
    refine ration_yields ⟨hfound.1 (List.nodup_singleton c), fun d => ?_⟩
    rw [hfound.2]
    simp only [List.mem_singleton, exists_eq_left]
    rfl
  | alternation branches =>
    -- Two branches can have an end in common, which is listed once.
    refine (branchCandidates_yields ht c).bind fun found hfound => ?_
    refine ration_yields ⟨Candidate.nodup_distinct found, fun d => ?_⟩
    rw [Candidate.mem_distinct, hfound]
    rfl
  | group index body =>
    obtain ⟨rfl, hbody⟩ := ht
    refine (candidates_yields hbody _).bind fun found hfound => ?_
    refine ration_yields ⟨?_, fun d => ?_⟩
    · exact nodup_map_leave hbody hfound.1 fun d hd => (hfound.2 d).1 hd
    · simp only [List.mem_map, hfound.2, Derives, eq_comm (a := d)]
  | loop body min max =>
    obtain ⟨hatom, -, hbody⟩ := ht
    -- The body is an atom, so a pass that consumes nothing can be absorbed.
    refine (Candidate.loop_yields (candidates_yields hbody) min _ c).bind fun found hfound => ?_
    refine ration_yields ⟨hfound.1, fun d => ?_⟩
    rw [hfound.2, Candidate.mem_ends_iff_iterates (fun _ _ h => h.extends)
      (fun _ _ _ h hstop h' => h.absorb hatom hbody hstop h'), Derives]
termination_by structural t

/-- The candidates of trees one after the other are the ends of their derivations from the given
candidates. -/
theorem sequenceCandidates_yields {ts : List Expr} {before : Nat} (hts : OrderlyAll ts before)
    (front : List Candidate) :
    (sequenceCandidates subject ts front).Yields fun found =>
      (front.Nodup → found.Nodup) ∧
        ∀ d, d ∈ found ↔ ∃ c ∈ front, DerivesAll subject ts c d := by
  cases ts with
  | nil =>
    refine Yields.pure ⟨id, fun d => ?_⟩
    simp only [DerivesAll, exists_eq_right']
  | cons t ts =>
    refine (Candidate.extend_yields (candidates_yields hts.1) front).bind fun pairs hpairs => ?_
    split
    · -- No way leads through the first tree, so there is none through all.
      rename_i hempty
      refine Yields.pure ⟨fun _ => List.nodup_nil, fun d => ?_⟩
      refine ⟨fun hmem => absurd hmem List.not_mem_nil, ?_⟩
      rintro ⟨c, hc, e, he, -⟩
      have hmem := (hpairs c e).2 ⟨hc, he⟩
      rw [List.isEmpty_iff.1 hempty] at hmem
      exact absurd hmem List.not_mem_nil
    · refine (sequenceCandidates_yields hts.2 _).mono fun found hfound => ⟨fun _ => ?_, fun d => ?_⟩
      · exact hfound.1 (Candidate.nodup_distinct _)
      · simp only [hfound.2, Candidate.mem_distinct, List.mem_map, Prod.exists, hpairs, DerivesAll]
        constructor
        · rintro ⟨e, ⟨c, e', ⟨hc, he⟩, rfl⟩, hd⟩
          exact ⟨c, hc, e', he, hd⟩
        · rintro ⟨c, hc, e, he, hd⟩
          exact ⟨e, ⟨c, e, ⟨hc, he⟩, rfl⟩, hd⟩
termination_by structural ts

/-- The candidates of branches are the ends of their derivations. -/
theorem branchCandidates_yields {ts : List Expr} {before : Nat} (hts : OrderlyAll ts before)
    (c : Candidate) :
    (branchCandidates subject ts c).Yields fun found =>
      ∀ d, d ∈ found ↔ DerivesAny subject ts c d := by
  cases ts with
  | nil => exact Yields.pure fun d => ⟨fun hmem => absurd hmem List.not_mem_nil, False.elim⟩
  | cons t ts =>
    refine (candidates_yields hts.1 c).bind fun found hfound => ?_
    refine (branchCandidates_yields hts.2 c).bind fun others hothers => Yields.pure fun d => ?_
    rw [List.mem_append, hfound.2, hothers]
    rfl
termination_by structural ts

end

/-! ### The best candidate -/

/-- The start of a match at a position: nothing is consumed, and only group 0 is entered. -/
def origin (t : Expr) (pos : Nat) : Candidate := ⟨pos, .initial t.groupCount pos⟩

/-- What a search reports of a derivation: its record, with the end of the match. -/
def report (d : Candidate) : Slots := d.slots.leave 0 d.stop

/-- The whole match is open all along a derivation. -/
theorem mark_zero_of_derives {t : Expr} {pos : Nat} (ht : t.Orderly 0)
    (h : t.Derives subject (t.origin pos) d) :
    0 < d.slots.length ∧ d.slots.mark 0 = .opened pos := by
  refine ⟨?_, h.mark_eq ht (.inl (Nat.le_refl 0))⟩
  rw [h.extends.length_eq, origin, Slots.length_initial]
  exact Nat.succ_pos _

/-- A record tells the span of its derivation. -/
theorem mark_zero_report {t : Expr} {pos : Nat} (ht : t.Orderly 0)
    (h : t.Derives subject (t.origin pos) d) : (report d).mark 0 = ⟨some pos, some d.stop⟩ := by
  obtain ⟨hlen, hmark⟩ := mark_zero_of_derives ht h
  rw [report, Slots.mark_leave_self hlen, hmark]
  rfl

/-- The last candidate is compared with the best of those before it. -/
theorem bestOf_append_singleton (found : List Candidate) (d : Candidate) :
    bestOf (found ++ [d]) =
      if (bestOf found).all (report d).beats then some (report d) else bestOf found := by
  rw [bestOf, List.foldl_append]
  rfl

/-- There is a best match unless there are no matches. -/
theorem eq_nil_of_bestOf {found : List Candidate} (h : bestOf found = none) : found = [] := by
  induction found using List.reverseRecOn with
  | nil => rfl
  | append_singleton found x ih =>
    rw [bestOf_append_singleton] at h
    split at h
    · cases h
    · rename_i hbeats
      rw [h] at hbeats
      exact absurd rfl hbeats

/-- All of several matches lead to the best of them: each is beaten by it, or by a match that leads
to it, or is not better when it is compared. -/
theorem bestOf_ascends {P : Slots → Prop} {found : List Candidate} {w : Slots}
    (hfound : ∀ d ∈ found, P (report d)) (h : bestOf found = some w) :
    P w ∧ ∀ d ∈ found, Slots.Ascends P (report d) w := by
  induction found using List.reverseRecOn generalizing w with
  | nil => exact nomatch h
  | append_singleton found x ih =>
    have hx := hfound x (List.mem_append_right _ (List.mem_singleton_self x))
    have ih {w : Slots} := ih (w := w) fun d hd => hfound d (List.mem_append_left _ hd)
    rw [bestOf_append_singleton] at h
    split at h
    · -- What led to the best match so far leads on to the last one, which beats it.
      rename_i hbeats
      cases h
      refine ⟨hx, fun d hd => ?_⟩
      rcases List.mem_append.1 hd with hd | hd
      · cases hbest : bestOf found with
        | none =>
          rw [eq_nil_of_bestOf hbest] at hd
          exact absurd hd List.not_mem_nil
        | some best =>
          rw [hbest, Option.all_some, Slots.beats, beq_iff_eq] at hbeats
          refine ((ih hbest).2 d hd).tail hx ?_
          rw [hbeats]
          nofun
      · rw [List.mem_singleton.1 hd]
        exact .refl P _
    · rename_i hbeats
      obtain ⟨hw, hascends⟩ := ih h
      refine ⟨hw, fun d hd => ?_⟩
      rcases List.mem_append.1 hd with hd | hd
      · exact hascends d hd
      · rw [List.mem_singleton.1 hd]
        refine .single hw fun hlt => hbeats ?_
        rw [h, Option.all_some, Slots.beats, Slots.order_eq_gt_iff.2 hlt]
        rfl

/-- The best of several matches with one start is one of the longest. -/
theorem bestOf_spec {found : List Candidate} {pos : Nat}
    (hfound : ∀ d ∈ found, (report d).mark 0 = ⟨some pos, some d.stop⟩) {w : Slots}
    (h : bestOf found = some w) : ∃ d ∈ found, w = report d ∧ ∀ e ∈ found, e.stop ≤ d.stop := by
  have hclosed : ∀ v, (∃ d ∈ found, v = report d) → (v.mark 0).IsClosed := by
    rintro v ⟨d, hd, rfl⟩
    rw [hfound d hd]
    exact ⟨rfl, rfl⟩
  obtain ⟨⟨d, hd, rfl⟩, hascends⟩ :=
    bestOf_ascends (P := fun v => ∃ d ∈ found, v = report d) (fun d hd => ⟨d, hd, rfl⟩) h
  refine ⟨d, hd, rfl, fun e he => ?_⟩
  -- A match that leads to the best one is not preferred to it, so it is no longer.
  have hzero := (hascends e he).mark_zero hclosed (hclosed _ ⟨e, he, rfl⟩)
  rw [hfound d hd, hfound e he] at hzero
  simp only [Mark.Precedes, Mark.mk.injEq, Option.some.injEq, true_and] at hzero
  rcases hzero with heq | ⟨i, j, k, l, ⟨rfl, rfl⟩, ⟨rfl, rfl⟩, hlt⟩
  · exact Nat.le_of_eq heq.symm
  · omega

/-- The matches at a position are ranked once they are all listed. -/
theorem exists_found_of_matchAt {t : Expr} (ht : t.Orderly 0) {pos : Nat} {best : Option Slots}
    (h : t.matchAt subject pos = .ok best) :
    ∃ found, best = bestOf found ∧ ∀ d, d ∈ found ↔ t.Derives subject (t.origin pos) d := by
  simp only [matchAt, StateT.run', bind, Except.bind, Functor.map, Except.map, pure,
    Except.pure] at h
  split at h
  · cases h
  · rename_i found hrun
    split at hrun
    · cases hrun
    · rename_i p hp
      cases hrun
      cases h
      exact ⟨p.1, rfl, (candidates_yields ht (t.origin pos) _ _ _ hp).2⟩

/-- The best match at a position is the report of one of the longest derivations from there, and
there is one unless there are no derivations. -/
theorem matchAt_spec {t : Expr} (ht : t.Orderly 0) {pos : Nat} {best : Option Slots}
    (h : t.matchAt subject pos = .ok best) :
    (best = none → ∀ d, ¬t.Derives subject (t.origin pos) d) ∧
      ∀ w ∈ best, ∃ d, t.Derives subject (t.origin pos) d ∧ w = report d ∧
        ∀ e, t.Derives subject (t.origin pos) e → e.stop ≤ d.stop := by
  obtain ⟨found, rfl, hmem⟩ := exists_found_of_matchAt ht h
  refine ⟨fun hbest d hd => ?_, fun w hw => ?_⟩
  · have := (hmem d).2 hd
    rw [eq_nil_of_bestOf hbest] at this
    exact List.not_mem_nil this
  · obtain ⟨d, hd, hreport, hmax⟩ :=
      bestOf_spec (fun d hd => mark_zero_report ht ((hmem d).1 hd)) hw
    exact ⟨d, (hmem d).1 hd, hreport, fun e he => hmax e ((hmem e).2 he)⟩

/-- Where a match can start that is searched for from a position on. -/
def Starts (subject : Subject) (t : Expr) (start s : Nat) : Prop :=
  start ≤ s ∧ s ≤ subject.size ∧ ∃ d, t.Derives subject (t.origin s) d

/-- The search takes the positions in order, and its outcome is that at the first where a match
starts, or at the last one. -/
theorem exists_matchAt_of_searchFrom {t : Expr} {remaining : Nat} (hle : remaining ≤ subject.size)
    {best : Option Slots} (h : t.searchFrom subject remaining = .ok best) :
    ∃ pos, subject.size - remaining ≤ pos ∧ pos ≤ subject.size ∧
      t.matchAt subject pos = .ok best ∧ (best = none → pos = subject.size) ∧
      ∀ s, subject.size - remaining ≤ s → s < pos → t.matchAt subject s = .ok none := by
  induction remaining with
  | zero =>
    refine ⟨subject.size, Nat.sub_le _ _, Nat.le_refl _, h, fun _ => rfl, fun s hlo hhi => ?_⟩
    exact absurd hhi (Nat.not_lt_of_le hlo)
  | succ remaining ih =>
    have hpos : subject.size - (remaining + 1) + 1 = subject.size - remaining := by omega
    simp only [searchFrom, bind, Except.bind, pure, Except.pure] at h
    split at h
    · cases h
    · rename_i here hhere
      split at h
      · cases h
        refine ⟨_, Nat.le_refl _, Nat.sub_le _ _, hhere, nofun, fun s hlo hhi => ?_⟩
        exact absurd hhi (Nat.not_lt_of_le hlo)
      · -- No match starts here, so the search goes on.
        obtain ⟨pos, hlo, hhi, hmatch, hnone, hbefore⟩ := ih (Nat.le_of_succ_le hle) h
        refine ⟨pos, by omega, hhi, hmatch, hnone, fun s hs hlt => ?_⟩
        rcases Nat.eq_or_lt_of_le hs with rfl | hlt'
        · exact hhere
        · exact hbefore s (by omega) hlt

/-- The search takes the positions in order, and stops at the first where a match starts. -/
theorem searchFrom_spec {t : Expr} (ht : t.Orderly 0) {remaining : Nat}
    (hle : remaining ≤ subject.size) {best : Option Slots}
    (h : t.searchFrom subject remaining = .ok best) :
    (best = none → ∀ s, ¬t.Starts subject (subject.size - remaining) s) ∧
      ∀ w ∈ best, ∃ s d, IsLeast {s | t.Starts subject (subject.size - remaining) s} s ∧
        t.Derives subject (t.origin s) d ∧ w = report d ∧
        ∀ e, t.Derives subject (t.origin s) e → e.stop ≤ d.stop := by
  obtain ⟨pos, hlo, hhi, hmatch, hlast, hbefore⟩ := exists_matchAt_of_searchFrom hle h
  obtain ⟨hnone, hsome⟩ := matchAt_spec ht hmatch
  have hstarts {s : Nat} (hs : t.Starts subject (subject.size - remaining) s) : pos ≤ s := by
    obtain ⟨hs, -, d, hd⟩ := hs
    refine Nat.le_of_not_lt fun hlt => ?_
    exact (matchAt_spec ht (hbefore s hs hlt)).1 rfl d hd
  refine ⟨fun hbest s hs => ?_, fun w hw => ?_⟩
  · -- The last position is the end of the text, and no match starts there either.
    obtain rfl : s = pos := Nat.le_antisymm (hlast hbest ▸ hs.2.1) (hstarts hs)
    obtain ⟨-, -, d, hd⟩ := hs
    exact hnone hbest d hd
  · obtain ⟨d, hd, hreport, hmax⟩ := hsome w hw
    exact ⟨pos, d, ⟨⟨hlo, hhi, d, hd⟩, fun s hs => hstarts hs⟩, hd, hreport, hmax⟩

end Expr

/-- Searching by enumeration finds the derivations. When `t.search` finds no match, no derivation
`Starts` from `start` on. The record `w` that it finds is that of one single derivation, which ends
in `d`: it starts at the least position `s` where there is a derivation, and is one of the longest
from there. Below, each list of `candidates` that is completed, for any part `u` of the tree, from
any place and record `c`, holds the ends of the derivations from there, each once. -/
theorem Expr.search_exact {pattern : List UInt8} {t : Expr} (ht : Expr.parse pattern = .ok t)
    (subject : Subject) (start : Nat) :
    (t.search subject start = .ok none → ∀ s, ¬t.Starts subject start s) ∧
      (∀ w, t.search subject start = .ok (some w) →
        ∃ s d, IsLeast {s | t.Starts subject start s} s ∧
          IsGreatest {stop | ∃ v, t.Derives subject (t.origin s) ⟨stop, v⟩} d.stop ∧
          t.Derives subject (t.origin s) d ∧ w = d.slots.leave 0 d.stop ∧
          w.span? 0 = some (s, d.stop)) ∧
      ∀ u : Expr, u.IsPart t → ∀ c allowance found left,
        u.candidates subject c allowance = .ok (found, left) →
          found.Nodup ∧ ∀ d, d ∈ found ↔ u.Derives subject c d := by
  have hord := Expr.orderly_of_parse ht
  have hsearch (best : Option Slots) (h : t.search subject start = .ok best) :
      (best = none → ∀ s, ¬t.Starts subject start s) ∧
        ∀ w ∈ best, ∃ s d, IsLeast {s | t.Starts subject start s} s ∧
          t.Derives subject (t.origin s) d ∧ w = report d ∧
          ∀ e, t.Derives subject (t.origin s) e → e.stop ≤ d.stop := by
    unfold search at h
    split at h
    · -- Nothing starts beyond the end of the text.
      rename_i hlt
      cases h
      exact ⟨fun _ s hs => Nat.not_lt.2 (Nat.le_trans hs.1 hs.2.1) hlt, fun w hw => nomatch hw⟩
    · rename_i hlt
      have hspec := searchFrom_spec hord (Nat.sub_le _ _) h
      rwa [Nat.sub_sub_self (Nat.not_lt.1 hlt)] at hspec
  refine ⟨fun h => (hsearch none h).1 rfl, fun w h => ?_, fun u hu c allowance found left h => ?_⟩
  · obtain ⟨s, d, hleast, hd, rfl, hmax⟩ := (hsearch (some w) h).2 w rfl
    refine ⟨s, d, hleast, ⟨⟨d.slots, hd⟩, ?_⟩, hd, rfl, ?_⟩
    · rintro stop ⟨v, hv⟩
      exact hmax ⟨stop, v⟩ hv
    · obtain ⟨hlen, hmark⟩ := mark_zero_of_derives hord hd
      rw [Slots.span?, report, Slots.mark_leave_self hlen, hmark]
      rfl
  · obtain ⟨n, -, -, hn⟩ := hu.orderly hord
    exact candidates_yields hn c allowance found left h

/-- The leftmost-longest match of `(a*)b\1` in `xaabaaa`: the group takes one `a` less than it
could, so that it can be repeated. -/
theorem Expr.search_exact_echo :
    let t : Expr := .concat [.group 1 (.loop (.literal 97) 0 none), .literal 98, .backref 1]
    let subject : Subject := ⟨#[120, 97, 97, 98, 97, 97, 97], {}, {}⟩
    Expr.parse [40, 97, 42, 41, 98, 92, 49] = .ok t ∧
      t.search subject 0 = .ok (some [⟨some 1, some 6⟩, ⟨some 1, some 3⟩]) ∧
      ∃ d, t.Derives subject (t.origin 1) d ∧ d.stop = 6 ∧
        d.slots.leave 0 6 = [⟨some 1, some 6⟩, ⟨some 1, some 3⟩] := by
  intro t subject
  have hparse : Expr.parse [40, 97, 42, 41, 98, 92, 49] = .ok t := rfl
  have hsearch : t.search subject 0 = .ok (some [⟨some 1, some 6⟩, ⟨some 1, some 3⟩]) := by decide +kernel
  obtain ⟨s, d, -, -, hd, hw, hspan⟩ := (search_exact hparse subject 0).2.1 _ hsearch
  obtain ⟨rfl, hstop⟩ : 1 = s ∧ 6 = d.stop := Prod.mk.inj (Option.some.inj hspan)
  exact ⟨hparse, hsearch, d, hd, hstop.symm, by rw [hw, ← hstop]⟩

end PosixRegex
