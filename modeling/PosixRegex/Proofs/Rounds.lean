import PosixRegex.Proofs.Calls
import PosixRegex.Proofs.Transfer

/-!
# How often a loop goes round

A loop of the enumeration goes round as long as there is something to go on from and its maximum has
not been reached; nothing else tells it to stop. It ends all the same: beyond the minimum it goes on
from a pass only when the pass has consumed something, and no pass goes back, so that each round
takes up one of the rounds that are missing to the minimum, or a byte of the text for all that the
loop goes on from.

- `Candidate.Loops`: a loop without any other limit, with the number of its rounds.
- `Candidate.exists_loops`: the loop that runs is one that ends.
- `Candidate.Loops.le_of_lasts`, `Candidate.Loops.le_max`: the number of rounds.
- `Expr.Reached.loop_ends`: every loop that a search comes to ends.
-/

namespace PosixRegex

namespace Candidate

variable {step : Candidate → Rationed (List Candidate)} {R : Candidate → Candidate → Prop}
  {subject : Subject} {min count passes n k k' : Nat} {max : Option Nat} {front : List Candidate}
  {ends : List (List Candidate)} {outcome outcome' : Except Error (List (List Candidate) × Nat)}

/-- A loop with `count` passes behind it, from candidates and with an allowance, comes to an outcome
after `k` more rounds. Its number of rounds is limited by its maximum alone. A round in which the
allowance is used up is the last one. -/
inductive Loops (step : Candidate → Rationed (List Candidate)) (min : Nat) (max : Option Nat) :
    (count : Nat) → (front : List Candidate) → (ends : List (List Candidate)) → (allowance : Nat) →
      Except Error (List (List Candidate) × Nat) → (k : Nat) → Prop
  /-- There is nothing to go on from, or the maximum has been reached. -/
  | done {count : Nat} {front : List Candidate} {ends : List (List Candidate)} {n : Nat} :
      (front = [] ∨ ∃ m ∈ max, m ≤ count) → Loops step min max count front ends n (.ok (ends, n)) 0
  /-- The allowance is used up. -/
  | failed {count : Nat} {front : List Candidate} {ends : List (List Candidate)} {n : Nat}
      {e : Error} : front ≠ [] → (∀ m ∈ max, count < m) → extend step front n = .error e →
      Loops step min max count front ends n (.error e) 1
  /-- A round is completed. -/
  | next {count : Nat} {front : List Candidate} {ends : List (List Candidate)} {n left k : Nat}
      {found : List (Candidate × Candidate)}
      {outcome : Except Error (List (List Candidate) × Nat)} :
      front ≠ [] → (∀ m ∈ max, count < m) → extend step front n = .ok (found, left) →
      Loops step min max (count + 1) (nextFront min count found)
        (passEnds min count found :: ends) left outcome k →
      Loops step min max count front ends n outcome (k + 1)

/-- A loop does not stop where it goes on. -/
theorem not_stops (hne : front ≠ []) (hmax : ∀ m ∈ max, count < m) :
    ¬(front = [] ∨ ∃ m ∈ max, m ≤ count) := by
  rintro (hnil | ⟨m, hm, hle⟩)
  · exact hne hnil
  · exact Nat.not_lt.2 hle (hmax m hm)

/-- A loop comes to one outcome, after one number of rounds. -/
theorem Loops.unique (h : Loops step min max count front ends n outcome k)
    (h' : Loops step min max count front ends n outcome' k') : outcome = outcome' ∧ k = k' := by
  -- A loop stops, or goes on and fails, or goes on with what it has found: no two of these hold.
  induction h generalizing outcome' k' with
  | done hstops =>
    cases h' with
    | done _ => exact ⟨rfl, rfl⟩
    | failed hne hmax _ => exact absurd hstops (not_stops hne hmax)
    | next hne hmax _ _ => exact absurd hstops (not_stops hne hmax)
  | failed hne hmax herror =>
    cases h' with
    | done hstops => exact absurd hstops (not_stops hne hmax)
    | failed _ _ herror' =>
      cases herror.symm.trans herror'
      exact ⟨rfl, rfl⟩
    | next _ _ hfound _ => cases herror.symm.trans hfound
  | next hne hmax hfound _ ih =>
    cases h' with
    | done hstops => exact absurd hstops (not_stops hne hmax)
    | failed _ _ herror => cases hfound.symm.trans herror
    | next _ _ hfound' hloops =>
      cases hfound.symm.trans hfound'
      obtain ⟨houtcome, hk⟩ := ih hloops
      exact ⟨houtcome, congrArg (· + 1) hk⟩

/-- What a loop goes on from after a round needs a round less. -/
theorem Lasts.nextFront (hstep : Lists step R) (hext : ∀ c d, R c d → c.Extends subject d)
    (h : Lasts subject min count (passes + 1) front) {found : List (Candidate × Candidate)}
    {left : Nat} (hfound : extend step front n = .ok (found, left)) :
    Lasts subject min (count + 1) passes (nextFront min count found) := by
  rw [Candidate.nextFront, List.partition_eq_filter_filter]
  exact h.next hext (extend_yields hstep front n found left hfound)

/-- Where the allowance does not last, the loop that runs fails. -/
theorem rounds_of_error (hne : front ≠ []) {e : Error} (herror : extend step front n = .error e)
    (ends : List (List Candidate)) :
    rounds step min (passes + 1) count front ends n = .error e := by
  have hempty : front.isEmpty = false := List.isEmpty_eq_false_iff.2 hne
  rw [rounds]
  simp only [hempty, Bool.false_eq_true, if_false, bind, StateT.bind, herror, Except.bind]

/-- The loop that runs, which is given a number of passes, is one that ends: when there is a maximum
these are the passes that are left to it, and when there is none they are enough. -/
theorem exists_loops (hstep : Lists step R) (hext : ∀ c d, R c d → c.Extends subject d)
    (hmax : ∀ m ∈ max, m = count + passes)
    (hnone : max = none → Lasts subject min count passes front)
    (ends : List (List Candidate)) (n : Nat) :
    ∃ k, Loops step min max count front ends n (rounds step min passes count front ends n) k := by
  induction passes generalizing count front ends n with
  | zero =>
    refine ⟨0, .done ?_⟩
    cases max with
    | none => exact .inl (hnone rfl).eq_nil
    | some m => exact .inr ⟨m, rfl, Nat.le_of_eq (hmax m rfl)⟩
  | succ passes ih =>
    by_cases hne : front = []
    · subst hne
      exact ⟨0, .done (.inl rfl)⟩
    · have hgoes : ∀ m ∈ max, count < m := fun m hm => by
        rw [hmax m hm]
        omega
      -- The round is the last one when the allowance does not last for it.
      cases hextend : extend step front n with
      | error e =>
        rw [rounds_of_error hne hextend]
        exact ⟨1, .failed hne hgoes hextend⟩
      | ok p =>
        obtain ⟨found, left⟩ := p
        have hmax' : ∀ m ∈ max, m = count + 1 + passes := fun m hm => by
          rw [hmax m hm]
          omega
        have hnone' (h : max = none) := (hnone h).nextFront hstep hext hextend
        obtain ⟨k, hk⟩ := ih hmax' hnone' (passEnds min count found :: ends) left
        rw [rounds_of_extend hne hextend]
        exact ⟨k + 1, .next hne hgoes hextend hk⟩

/-- A loop runs no more rounds than are enough. -/
theorem Loops.le_of_lasts (hstep : Lists step R) (hext : ∀ c d, R c d → c.Extends subject d)
    (h : Loops step min max count front ends n outcome k)
    (hlasts : Lasts subject min count passes front) : k ≤ passes := by
  induction h generalizing passes with
  | done _ => exact Nat.zero_le passes
  | failed hne _ _ =>
    cases passes with
    | zero => exact absurd hlasts.eq_nil hne
    | succ passes => exact Nat.succ_le_succ (Nat.zero_le passes)
  | next hne _ hfound _ ih =>
    cases passes with
    | zero => exact absurd hlasts.eq_nil hne
    | succ passes => exact Nat.succ_le_succ (ih (hlasts.nextFront hstep hext hfound))

/-- A loop does not go round more often than its maximum says. -/
theorem Loops.le_max (h : Loops step min max count front ends n outcome k) {m : Nat} (hm : m ∈ max)
    (hle : count ≤ m) : count + k ≤ m := by
  induction h with
  | done _ => exact hle
  | failed _ hmax _ => exact hmax m hm
  | next _ hmax _ _ ih =>
    have hrest := ih (hmax m hm)
    omega

/-- Beyond the minimum all that a loop goes on from lies behind what it has been found from. -/
theorem exists_lt_of_mem_nextFront (hstep : Lists step R)
    (hext : ∀ c d, R c d → c.Extends subject d) {found : List (Candidate × Candidate)} {left : Nat}
    (hfound : extend step front n = .ok (found, left)) (hmin : min ≤ count) {d : Candidate}
    (hd : d ∈ nextFront min count found) : ∃ e ∈ front, (e, d) ∈ found ∧ e.stop < d.stop := by
  obtain ⟨e, hpair, hmoves⟩ := mem_nextFront.1 hd
  obtain ⟨he, hed⟩ := (extend_yields hstep front n found left hfound e d).1 hpair
  have hne : d.stop ≠ e.stop := hmoves.resolve_left (Nat.not_lt.2 hmin)
  exact ⟨e, he, hpair, Nat.lt_of_le_of_ne (hext e d hed).stop_le hne.symm⟩

end Candidate

namespace Expr

variable {subject : Subject} {t body : Expr} {c : Candidate} {min n : Nat} {max : Option Nat}

/-- Every loop that a search by enumeration comes to ends. Although the loop goes round as long as
there is something to go on from and `max` has not been reached, it comes to one `outcome`, which is
that of `Candidate.rounds`, the loop that runs, after one number `k` of rounds, whether or not the
allowance `n` lasts. The rounds are no more than `max`, and no more than `min`, the bytes behind the
place `c` of the call and one taken together. For when as many rounds as `min` lie behind, all that
the loop goes on from lies further on than what in `front` it has been found from. -/
theorem Reached.loop_ends {pattern : List UInt8} (ht : parse pattern = .ok t) {start : Nat}
    (h : Reached subject t start ⟨loop body min max, c, n⟩) :
    (∃ k ≤ min + (subject.size - c.stop) + 1, (∀ m ∈ max, k ≤ m) ∧
      ∀ outcome j, Candidate.Loops (body.candidates subject) min max 0 [c] [] n outcome j ↔
        outcome = Candidate.rounds (body.candidates subject) min
          (passes subject min max c.stop) 0 [c] [] n ∧ j = k) ∧
      ∀ count front left found left',
        Candidate.Round (body.candidates subject) min max c n count front left →
          Candidate.extend (body.candidates subject) front left = .ok (found, left') →
            min ≤ count → ∀ d ∈ Candidate.nextFront min count found,
              ∃ e ∈ front, (e, d) ∈ found ∧ e.stop < d.stop := by
  obtain ⟨-, before, levels, closed, hsuits⟩ := h.regular (wellFormed_of_parse ht)
  have hstep : Candidate.Lists (body.candidates subject) (body.Derives subject) :=
    candidates_yields hsuits.orderly.2.2
  have hext (c d : Candidate) (h : body.Derives subject c d) : c.Extends subject d := h.extends
  -- The passes that the loop that runs is given are enough, with a maximum or without.
  have hlasts := Candidate.Lasts.start subject min c
  have hmax : ∀ m ∈ max, m = 0 + passes subject min max c.stop := by
    rintro m ⟨⟩
    exact (Nat.zero_add m).symm
  have hnone (h : max = none) :
      Candidate.Lasts subject min 0 (passes subject min max c.stop) [c] := by
    subst h
    exact hlasts
  obtain ⟨k, hk⟩ := Candidate.exists_loops hstep hext hmax hnone [] n
  refine ⟨⟨k, hk.le_of_lasts hstep hext hlasts, fun m hm => ?_,
      fun outcome j => ⟨fun hj => ?_, ?_⟩⟩,
    fun count front left found left' _ hfound hmin d hd =>
      Candidate.exists_lt_of_mem_nextFront hstep hext hfound hmin hd⟩
  · have hle := hk.le_max hm (Nat.zero_le m)
    rwa [Nat.zero_add] at hle
  · exact hj.unique hk
  · rintro ⟨rfl, rfl⟩
    exact hk

/-- In `aa` the loop of `(a*)\1` goes round three times: once for each `a`, and once more to find
nothing. -/
theorem Reached.loop_ends_star :
    let t : Expr := .concat [.group 1 (.loop (.literal 97) 0 none), .backref 1]
    let subject : Subject := ⟨#[97, 97], {}, {}⟩
    let v : Slots := [⟨some 0, none⟩, ⟨some 0, none⟩]
    parse [40, 97, 42, 41, 92, 49] = .ok t ∧
      Reached subject t 0 ⟨loop (literal 97) 0 none, ⟨0, v⟩, 1000000⟩ ∧
      ∀ outcome j, Candidate.Loops ((literal 97).candidates subject) 0 none 0 [⟨0, v⟩] [] 1000000
        outcome j ↔ outcome = .ok ([[], [⟨2, v⟩], [⟨1, v⟩]], 999998) ∧ j = 3 := by
  intro t subject v
  have hparse : parse [40, 97, 42, 41, 92, 49] = .ok t := rfl
  have hroot : Reached subject t 0 ⟨t, t.origin 0, 1000000⟩ :=
    .root (Nat.le_refl 0) (Nat.zero_le _) fun p _ hp => absurd hp (Nat.not_lt_zero p)
  have hgroup : Calls subject ⟨t, t.origin 0, 1000000⟩
      ⟨group 1 (loop (literal 97) 0 none), t.origin 0, 1000000⟩ :=
    @Calls.item subject [] _ _ _ _ _ _ _ [] [] [] rfl rfl
  have hreached := (hroot.step hgroup).step .inside
  -- What is found in each of the three rounds, and what the loop goes on from after it.
  have hfirst : Candidate.extend ((literal 97).candidates subject) [⟨0, v⟩] 1000000 =
      .ok ([(⟨0, v⟩, ⟨1, v⟩)], 999999) := by decide +kernel
  have hfront : Candidate.nextFront 0 0 [(⟨0, v⟩, ⟨1, v⟩)] = [⟨1, v⟩] := by decide +kernel
  have hsecond : Candidate.extend ((literal 97).candidates subject) [⟨1, v⟩] 999999 =
      .ok ([(⟨1, v⟩, ⟨2, v⟩)], 999998) := by decide +kernel
  have hfront' : Candidate.nextFront 0 1 [(⟨1, v⟩, ⟨2, v⟩)] = [⟨2, v⟩] := by decide +kernel
  have hthird : Candidate.extend ((literal 97).candidates subject) [⟨2, v⟩] 999998 =
      .ok ([], 999998) := by decide +kernel
  have hends : [Candidate.passEnds 0 2 [], Candidate.passEnds 0 1 [(⟨1, v⟩, ⟨2, v⟩)],
      Candidate.passEnds 0 0 [(⟨0, v⟩, ⟨1, v⟩)]] = [[], [⟨2, v⟩], [⟨1, v⟩]] := by decide +kernel
  have hloops : Candidate.Loops ((literal 97).candidates subject) 0 none 0 [⟨0, v⟩] [] 1000000
      (.ok ([[], [⟨2, v⟩], [⟨1, v⟩]], 999998)) 3 := by
    have hunlimited (count : Nat) : ∀ m ∈ (none : Option Nat), count < m := by simp
    rw [← hends]
    refine .next (List.cons_ne_nil _ _) (hunlimited 0) hfirst ?_
    rw [hfront]
    refine .next (List.cons_ne_nil _ _) (hunlimited 1) hsecond ?_
    rw [hfront']
    exact .next (List.cons_ne_nil _ _) (hunlimited 2) hthird (.done (.inl (by decide +kernel)))
  obtain ⟨⟨k, -, -, hall⟩, -⟩ := hreached.loop_ends hparse
  obtain ⟨houtcome, rfl⟩ := (hall _ _).1 hloops
  exact ⟨hparse, hreached, fun outcome j => houtcome ▸ hall outcome j⟩

end Expr

end PosixRegex
