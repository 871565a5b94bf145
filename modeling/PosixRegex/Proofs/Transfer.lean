import PosixRegex.Proofs.Enumeration
import PosixRegex.Proofs.Window

/-!
# Enumeration in a window

Listing the candidates of a tree comes out alike in a window and in the text around it: the same
candidates in the same order, moved on to where the window stands, for the same part of the
allowance. So a search from a position in the window ends as it does in the window alone, and goes
on behind the window when there is no match in it.

The two may differ in how many passes a loop is given, since that depends on the bytes that are
left. `Candidate.rounds_of_lasts` says that passes beyond those that a text allows for make no
difference.

- `Expr.candidates_shift`: the candidates of a tree in a window.
- `Expr.matchAt_shift`: the best match at a position of a window.
- `Expr.search_window`: the search in a window, and behind it.
-/

namespace PosixRegex

/-- Computations that go on alike from whatever is yielded are alike. -/
theorem Rationed.Yields.bind_congr {α β : Type} {x : Rationed α} {Q : α → Prop}
    {f g : α → Rationed β} (hx : x.Yields Q) (h : ∀ a, Q a → f a = g a) : x >>= f = x >>= g := by
  funext allowance
  simp only [Bind.bind, StateT.bind, Except.bind]
  split
  · rfl
  · rename_i p hp
    rw [h p.1 (hx allowance p.1 p.2 hp)]

namespace Candidate

open Rationed

/-! ### Charging and dropping -/

/-- Candidates are charged by their number. -/
theorem ration_map (f : Candidate → Candidate) (cs : List Candidate) :
    ration (cs.map f) = List.map f <$> ration cs := by
  funext allowance
  simp only [ration, List.length_map, Functor.map, StateT.map, Bind.bind, Except.bind, Pure.pure,
    Except.pure]
  split <;> rfl

/-- A candidate is kept when its image is. -/
theorem distinct.snd_keepNew_map {f : Candidate → Candidate} (hf : Function.Injective f)
    {state state' : Std.TreeSet (List (Option Nat)) × List Candidate} (h : Tracks state)
    (h' : Tracks state') (hmap : state'.2 = state.2.map f) (c : Candidate) :
    (keepNew state' (f c)).2 = (keepNew state c).2.map f := by
  have hseen : state'.1.contains (f c).key = state.1.contains c.key := by
    rw [Bool.eq_iff_iff, h'.1, h.1, hmap, List.mem_map_of_injective hf]
  rw [keepNew_eq, keepNew_eq, hseen]
  split
  · exact hmap
  · exact congrArg (f c :: ·) hmap

/-- Repeated candidates are those with repeated images. -/
theorem distinct_map {f : Candidate → Candidate} (hf : Function.Injective f)
    (cs : List Candidate) : distinct (cs.map f) = (distinct cs).map f := by
  have hfoldl (state state' : Std.TreeSet (List (Option Nat)) × List Candidate)
      (h : distinct.Tracks state) (h' : distinct.Tracks state')
      (hmap : state'.2 = state.2.map f) :
      ((cs.map f).foldl distinct.keepNew state').2 =
        (cs.foldl distinct.keepNew state).2.map f := by
    induction cs generalizing state state' with
    | nil => exact hmap
    | cons c cs ih =>
      exact ih _ _ (distinct.tracks_keepNew h c) (distinct.tracks_keepNew h' (f c))
        (distinct.snd_keepNew_map hf h h' hmap c)
  rw [distinct, hfoldl _ _ distinct.tracks_nil distinct.tracks_nil rfl, ← List.map_reverse,
    distinct]

/-! ### Loops -/

section Passes

variable {step : Candidate → Rationed (List Candidate)} {R : Candidate → Candidate → Prop}
  {subject : Subject} {min k passes : Nat} {front : List Candidate}

/-- A number of passes is enough to go on from some candidates after `k` passes: it exceeds the
passes that are missing to the minimum and the bytes that are left. -/
def Lasts (subject : Subject) (min k passes : Nat) (front : List Candidate) : Prop :=
  ∀ c ∈ front, min - k + (subject.size - c.stop) < passes

/-- Where a loop begins: as many passes as the minimum and the bytes that are left, and one more. -/
theorem Lasts.start (subject : Subject) (min : Nat) (c : Candidate) :
    Lasts subject min 0 (min + (subject.size - c.stop) + 1) [c] := by
  intro d hd
  rw [List.mem_singleton.1 hd]
  exact Nat.lt_succ_self _

/-- No passes are enough only when there is nothing to go on from. -/
theorem Lasts.eq_nil (h : Lasts subject min k 0 front) : front = [] :=
  List.eq_nil_iff_forall_not_mem.2 fun c hc => Nat.not_lt_zero _ (h c hc)

/-- Each pass takes up one of those that are missing, or a byte. -/
theorem Lasts.next (hext : ∀ c d, R c d → c.Extends subject d)
    (h : Lasts subject min k (passes + 1) front)
    {pairs : List (Candidate × Candidate)} (hpairs : ∀ c d, (c, d) ∈ pairs ↔ c ∈ front ∧ R c d) :
    Lasts subject min (k + 1) passes (distinct ((pairs.filter
      (not ∘ fun p => min ≤ k && p.2.stop == p.1.stop)).map (·.2))) := by
  intro d hd
  simp only [mem_distinct, List.mem_map, List.mem_filter, Prod.exists, hpairs] at hd
  obtain ⟨c, d, ⟨⟨hc, hcd⟩, hmoves⟩, rfl⟩ := hd
  have hlasts := h c hc
  have hstop := (hext c d hcd).stop_le
  have hmoves : k < min ∨ d.stop ≠ c.stop := by
    simpa using hmoves
  have hwithin := (hext c d hcd).within
  omega

/-- Passes beyond those that are enough make no difference. -/
theorem rounds_of_lasts (hstep : Lists step R) (hext : ∀ c d, R c d → c.Extends subject d)
    (h : Lasts subject min k passes front) (extra : Nat) (ends : List (List Candidate)) :
    rounds step min (passes + extra) k front ends = rounds step min passes k front ends := by
  induction passes generalizing k front ends with
  | zero =>
    cases extra with
    | zero => rfl
    | succ extra => rw [h.eq_nil]; rfl
  | succ passes ih =>
    rw [Nat.add_right_comm]
    unfold rounds
    dsimp only
    split
    · rfl
    · refine (extend_yields hstep front).bind_congr fun pairs hpairs => ?_
      rw [List.partition_eq_filter_filter]
      exact ih (h.next hext hpairs) _

end Passes

section Shift

variable {step step' : Candidate → Rationed (List Candidate)} {R : Candidate → Candidate → Prop}
  {near : Subject} {d : Nat}

/-- One step lists what another one lists, further on. -/
def Agrees (near : Subject) (d : Nat) (step step' : Candidate → Rationed (List Candidate)) : Prop :=
  ∀ c, c.Within near → step' (c.shift d) = List.map (shift d) <$> step c

/-- Extending candidates further on. -/
theorem Agrees.extend_map (h : Agrees near d step step') {front : List Candidate}
    (hfront : ∀ c ∈ front, c.Within near) :
    extend step' (front.map (shift d)) =
      List.map (Prod.map (shift d) (shift d)) <$> extend step front := by
  have hmapM : ((front.map (shift d)).mapM fun c => return (← step' c).map fun e => (c, e)) =
      List.map (List.map (Prod.map (shift d) (shift d))) <$>
        front.mapM fun c => return (← step c).map fun e => (c, e) := by
    induction front with
    | nil => simp
    | cons c front ih =>
      have ih := ih fun e he => hfront e (List.mem_cons_of_mem c he)
      rw [List.map_cons, List.mapM_cons, List.mapM_cons, h c (hfront c List.mem_cons_self), ih]
      simp [Function.comp_def]
  unfold extend
  rw [hmapM]
  simp [List.map_flatten]

/-- The rounds of a loop further on. -/
theorem Agrees.rounds_map (h : Agrees near d step step') (hstep : Lists step R)
    (hwithin : ∀ c e, R c e → c.Within near → e.Within near) {front : List Candidate}
    (hfront : ∀ c ∈ front, c.Within near) (min passes k : Nat) (ends : List (List Candidate)) :
    rounds step' min passes k (front.map (shift d)) (ends.map (List.map (shift d))) =
      List.map (List.map (shift d)) <$> rounds step min passes k front ends := by
  induction passes generalizing k front ends with
  | zero => simp [rounds]
  | succ passes ih =>
    unfold rounds
    dsimp only
    rw [List.isEmpty_map]
    split
    · simp
    · rw [h.extend_map hfront, bind_map_left, map_bind]
      refine (extend_yields hstep front).bind_congr fun pairs hpairs => ?_
      -- Which passes consume something is decided alike, so the blocks are alike.
      have hstall : (fun p : Candidate × Candidate => min ≤ k && p.2.stop == p.1.stop) ∘
          Prod.map (shift d) (shift d) = fun p => min ≤ k && p.2.stop == p.1.stop := by
        funext p
        simp [shift_stop_beq]
      have hmap (p : Candidate × Candidate → Bool) :
          ((pairs.filter p).map (Prod.map (shift d) (shift d))).map (·.2) =
            ((pairs.filter p).map (·.2)).map (shift d) := by
        simp
      rw [List.partition_eq_filter_filter, List.partition_eq_filter_filter]
      dsimp only
      rw [List.filter_map, List.filter_map, Function.comp_assoc, hstall, hmap, hmap,
        distinct_map (shift_injective d)]
      have hended (stalled next : List Candidate) :
          (stalled.map (shift d) ++ if min ≤ k + 1 then next.map (shift d) else []) =
            (stalled ++ if min ≤ k + 1 then next else []).map (shift d) := by
        split <;> simp
      rw [hended, ← List.map_cons]
      refine ih (fun e he => ?_) (k + 1) _
      simp only [mem_distinct, List.mem_map, List.mem_filter, Prod.exists, hpairs] at he
      obtain ⟨c, e, ⟨⟨hc, hce⟩, -⟩, rfl⟩ := he
      exact hwithin c e hce (hfront c hc)

/-- A loop further on. -/
theorem Agrees.loop_map (h : Agrees near d step step') (hstep : Lists step R)
    (hwithin : ∀ c e, R c e → c.Within near → e.Within near) {c : Candidate}
    (hc : c.Within near) (min passes : Nat) :
    loop step' min passes (c.shift d) = List.map (shift d) <$> loop step min passes c := by
  have hfront : ∀ e ∈ [c], e.Within near := by simpa using hc
  have hrounds := h.rounds_map hstep hwithin hfront min passes 0 []
  unfold loop
  rw [List.map_singleton, List.map_nil] at hrounds
  rw [hrounds]
  have hends (ends : List (List Candidate)) :
      distinct ((ends.map (List.map (shift d))).reverse.flatten ++
          if min = 0 then [c.shift d] else []) =
        (distinct (ends.reverse.flatten ++ if min = 0 then [c] else [])).map (shift d) := by
    rw [← distinct_map (shift_injective d), List.map_append, List.map_flatten, List.map_reverse]
    congr 2
    split <;> rfl
  simp [hends]

end Shift

end Candidate

namespace Expr

variable {near far : Subject} {d before : Nat} {t body : Expr}

/-- A loop lists the same in a text with more bytes behind the place as it does with fewer: as long
as its body stays within the text, the passes that the fewer bytes allow for are enough. -/
theorem loop_passes (hbody : body.Orderly before) (h : near.IsWindow far d t) (c : Candidate)
    (min : Nat) (max : Option Nat) :
    Candidate.loop (body.candidates near) min (passes far min max (c.stop + d)) c =
      Candidate.loop (body.candidates near) min (passes near min max c.stop) c := by
  cases max with
  | some max => rfl
  | none =>
    have hlasts := Candidate.Lasts.start near min c
    obtain ⟨extra, hextra⟩ := Nat.exists_eq_add_of_le
      (show min + (near.size - c.stop) + 1 ≤ min + (far.size - (c.stop + d)) + 1 by
        have := h.size_le
        omega)
    rw [passes, Option.getD_none, passes, Option.getD_none, hextra, Candidate.loop, Candidate.loop,
      Candidate.rounds_of_lasts (candidates_yields hbody) (fun _ _ h => h.extends) hlasts]

mutual

/-- The candidates of a tree in a window, each moved on to where the window stands. -/
theorem candidates_shift {t : Expr} {before : Nat} (ht : t.Orderly before)
    (h : near.IsWindow far d t) :
    Candidate.Agrees near d (t.candidates near) (t.candidates far) := by
  intro c hc
  have hstop : (c.shift d).stop = c.stop + d := rfl
  cases t with
  | empty =>
    exact Candidate.ration_map (·.shift d) [c]
  | literal | any | set | named =>
    rw [candidates, candidates, h.leafCandidates_shift hc]
    exact Candidate.ration_map _ _
  | anchor kind =>
    rw [candidates, candidates, hstop, h.holds_eq kind c.stop hc.stop_le, ← Candidate.ration_map]
    split <;> rfl
  | backref index =>
    rw [candidates, candidates, h.backrefCandidates_shift hc]
    exact Candidate.ration_map _ _
  | concat items =>
    have hfront : ∀ e ∈ [c], e.Within near := by simpa using hc
    have hitems := sequenceCandidates_shift ht (fun u hu => h.item hu) hfront
    rw [candidates, candidates]
    rw [List.map_singleton] at hitems
    simp [hitems, Candidate.ration_map]
  | alternation branches =>
    have hbranches := branchCandidates_shift ht (fun u hu => h.branch hu) hc
    rw [candidates, candidates, hbranches]
    simp [Candidate.ration_map, Candidate.distinct_map (Candidate.shift_injective d)]
  | group index body =>
    have hbody := candidates_shift ht.2 h.inside _ (hc.enter index (index + body.groupCount))
    -- Leaving the group commutes with moving on, since both ends of a mark move alike.
    have hleave : (fun e : Candidate => (⟨e.stop, e.slots.leave index e.stop⟩ : Candidate)) ∘
        Candidate.shift d =
          Candidate.shift d ∘ fun e : Candidate => ⟨e.stop, e.slots.leave index e.stop⟩ := by
      funext e
      simp [Candidate.shift]
    simp only [Candidate.shift, Slots.shift_enter] at hbody
    rw [candidates, candidates]
    dsimp only [Candidate.shift]
    rw [hbody, bind_map_left, map_bind]
    congr 1
    funext found
    rw [← Candidate.ration_map, List.map_map, List.map_map]
    exact congrArg (fun f => Candidate.ration (found.map f)) hleave
  | loop body min max =>
    have hbody := candidates_shift ht.2.2 h.body
    have hloop := hbody.loop_map (candidates_yields ht.2.2) (fun _ _ => Derives.within) hc min
      (passes far min max (c.stop + d))
    rw [candidates, candidates, hstop, hloop, loop_passes ht.2.2 h]
    simp [Candidate.ration_map]
termination_by structural t

/-- The candidates of trees one after the other in a window. -/
theorem sequenceCandidates_shift {ts : List Expr} {before : Nat} (hts : OrderlyAll ts before)
    (h : ∀ t ∈ ts, near.IsWindow far d t) {front : List Candidate}
    (hfront : ∀ c ∈ front, c.Within near) :
    sequenceCandidates far ts (front.map (·.shift d)) =
      List.map (·.shift d) <$> sequenceCandidates near ts front := by
  cases ts with
  | nil => simp [sequenceCandidates]
  | cons t ts =>
    have ht := candidates_shift hts.1 (h t List.mem_cons_self)
    rw [sequenceCandidates, sequenceCandidates, ht.extend_map hfront, bind_map_left, map_bind]
    refine (Candidate.extend_yields (candidates_yields hts.1) front).bind_congr
      fun pairs hpairs => ?_
    rw [List.isEmpty_map]
    split
    · simp
    · have hmap : (pairs.map (Prod.map (Candidate.shift d) (Candidate.shift d))).map (·.2) =
          (pairs.map (·.2)).map (Candidate.shift d) := by
        simp
      rw [hmap, Candidate.distinct_map (Candidate.shift_injective d)]
      refine sequenceCandidates_shift hts.2 (fun u hu => h u (List.mem_cons_of_mem t hu)) ?_
      intro e he
      simp only [Candidate.mem_distinct, List.mem_map, Prod.exists, hpairs] at he
      obtain ⟨c, e, ⟨hc, hce⟩, rfl⟩ := he
      exact hce.within (hfront c hc)
termination_by structural ts

/-- The candidates of branches in a window. -/
theorem branchCandidates_shift {ts : List Expr} {before : Nat} (hts : OrderlyAll ts before)
    (h : ∀ t ∈ ts, near.IsWindow far d t) {c : Candidate} (hc : c.Within near) :
    branchCandidates far ts (c.shift d) =
      List.map (·.shift d) <$> branchCandidates near ts c := by
  cases ts with
  | nil => simp [branchCandidates]
  | cons t ts =>
    have ht := candidates_shift hts.1 (h t List.mem_cons_self) c hc
    have hothers := branchCandidates_shift hts.2 (fun u hu => h u (List.mem_cons_of_mem t hu)) hc
    rw [branchCandidates, branchCandidates, ht, hothers]
    simp
termination_by structural ts

end

/-! ### Searching -/

@[simp]
theorem report_shift (d : Nat) (c : Candidate) : report (c.shift d) = (report c).shift d := by
  simp [report, Candidate.shift]

/-- The best of several matches further on. -/
theorem bestOf_map_shift (d : Nat) (found : List Candidate) :
    bestOf (found.map (·.shift d)) = (bestOf found).map (·.shift d) := by
  induction found using List.reverseRecOn with
  | nil => rfl
  | append_singleton found c ih =>
    rw [List.map_append, List.map_singleton, bestOf_append_singleton, bestOf_append_singleton, ih,
      report_shift, Slots.all_beats_shift]
    split <;> rfl

/-- The best match at a position of a window. -/
theorem matchAt_shift (ht : t.Orderly 0) (h : near.IsWindow far d t) {pos : Nat}
    (hpos : pos ≤ near.size) :
    t.matchAt far (pos + d) = Option.map (·.shift d) <$> t.matchAt near pos := by
  have hcandidates := candidates_shift ht h (t.origin pos) (.origin hpos)
  have horigin : (t.origin pos).shift d = t.origin (pos + d) := by
    simp [origin, Candidate.shift]
  rw [horigin] at hcandidates
  have hmatchAt (subject : Subject) (pos : Nat) : t.matchAt subject pos =
      bestOf <$> (t.candidates subject (t.origin pos)).run' subject.options.candidateLimit :=
    (map_eq_pure_bind _ _).symm
  rw [hmatchAt, hmatchAt, hcandidates, h.options_eq, StateT.run'_eq, StateT.run'_eq, StateT.run_map]
  simp [bestOf_map_shift]

/-- A search from a position takes the best match there, and goes on from the next position when
there is none. -/
theorem search_eq_matchAt (t : Expr) {subject : Subject} {start : Nat} (h : start ≤ subject.size) :
    t.search subject start = (do
      match ← t.matchAt subject start with
      | some found => return some found
      | none => t.search subject (start + 1)) := by
  unfold search
  rw [if_neg (Nat.not_lt.2 h)]
  rcases Nat.eq_or_lt_of_le h with rfl | hlt
  · -- At the end of the text there is no next position.
    rw [Nat.sub_self, searchFrom, if_pos (Nat.lt_succ_self _)]
    cases t.matchAt subject subject.size with
    | error e => rfl
    | ok best => cases best <;> rfl
  · obtain ⟨remaining, hremaining⟩ := Nat.exists_eq_add_of_lt hlt
    obtain rfl : start = subject.size - (remaining + 1) := by omega
    have hhere : subject.size - (subject.size - (remaining + 1)) = remaining + 1 := by omega
    have hnext : subject.size - (subject.size - (remaining + 1) + 1) = remaining := by omega
    rw [hhere, if_neg (Nat.not_lt.2 hlt), hnext]
    rfl

/-- A search from a position in a window ends as it does in the window alone, and goes on behind the
window when there is no match in it. -/
theorem search_window (ht : t.Orderly 0) (h : near.IsWindow far d t) {start : Nat}
    (hstart : start ≤ near.size) :
    t.search far (start + d) = (do
      match ← t.search near start with
      | some found => return some (found.shift d)
      | none => t.search far (near.size + d + 1)) := by
  -- The induction is on the positions of the window that are left; there are none behind its end.
  obtain ⟨left, hleft⟩ := Nat.exists_eq_add_of_le (Nat.le_succ_of_le hstart)
  clear hstart
  induction left generalizing start with
  | zero =>
    obtain rfl : start = near.size + 1 := hleft.symm
    have hend : t.search near (near.size + 1) = .ok none := if_pos (Nat.lt_succ_self _)
    rw [hend, Nat.add_right_comm]
    rfl
  | succ left ih =>
    have hstart : start ≤ near.size := by omega
    have hfar : start + d ≤ far.size := by
      have := h.size_le
      omega
    rw [search_eq_matchAt t hfar, search_eq_matchAt t hstart, matchAt_shift ht h hstart,
      Nat.add_right_comm, ih (by omega)]
    cases t.matchAt near start with
    | error e => rfl
    | ok best => cases best <;> rfl

end Expr

end PosixRegex
