import Mathlib.Order.Bounds.Basic
import PosixRegex.Proofs.Transfer

/-!
# How much allowance a search needs

The allowance never changes what is enumerated. Without a limit the enumeration from a position
lists some candidates, and all its parts together produce some number of them; under an allowance it
lists the same ones when the allowance is at least this number, and is given up otherwise. The
allowance is renewed at each position, so a search needs as much as the most costly of the positions
that it tries.

- `Expr.counted`: enumeration without a limit, which counts what is produced.
- `Counted.rationed`: what comes of a counting computation under an allowance.
- `Expr.rationed_counted`: enumeration is the counting one under an allowance.
- `Expr.search_threshold`: a search has its outcome from a certain limit on, and none below.
-/

namespace PosixRegex

/-- A value, and the number of candidates that were produced on the way to it. -/
@[ext]
structure Counted (α : Type) where
  /-- The value. -/
  value : α
  /-- The number of candidates. -/
  count : Nat
deriving Repr

namespace Counted

variable {α β : Type}

instance : Monad Counted where
  pure a := ⟨a, 0⟩
  bind x f := ⟨(f x.value).value, x.count + (f x.value).count⟩

@[simp]
theorem value_bind (x : Counted α) (f : α → Counted β) :
    (x >>= f).value = (f x.value).value := rfl

@[simp]
theorem count_bind (x : Counted α) (f : α → Counted β) :
    (x >>= f).count = x.count + (f x.value).count := rfl

instance : LawfulMonad Counted := LawfulMonad.mk' Counted
  (fun x => Counted.ext rfl (Nat.add_zero x.count))
  (fun _ _ => Counted.ext rfl (Nat.zero_add _))
  (fun _ _ _ => Counted.ext rfl (Nat.add_assoc _ _ _))

/-- A computation under an allowance: it is given up when it produces more candidates than that. -/
def rationed (x : Counted α) : Rationed α := fun allowance =>
  if x.count ≤ allowance then .ok (x.value, allowance - x.count) else .error .outOfMemory

/-- Counts candidates. -/
def produce (cs : List Candidate) : Counted (List Candidate) := ⟨cs, cs.length⟩

/-- The candidates that extend the given ones, counted. -/
def extend (step : Candidate → Counted (List Candidate)) (front : List Candidate) :
    Counted (List (Candidate × Candidate)) := do
  let found ← front.mapM fun c => return (← step c).map fun d => (c, d)
  return found.flatten

/-- Goes round a loop, counted. -/
def rounds (body : Candidate → Counted (List Candidate)) (min : Nat) :
    (passes count : Nat) → (front : List Candidate) → (ends : List (List Candidate)) →
      Counted (List (List Candidate))
  | 0, _, _, ends => return ends
  | passes + 1, count, front, ends => do
    if front.isEmpty then return ends
    let found ← extend body front
    -- What is dropped here has been counted by the body.
    let (stalled, moving) := found.partition fun (c, d) => min ≤ count && d.stop == c.stop
    let next := Candidate.distinct (moving.map (·.2))
    let ended := stalled.map (·.2) ++ if min ≤ count + 1 then next else []
    rounds body min passes (count + 1) next (ended :: ends)

/-- The candidates of a loop, counted. -/
def loop (body : Candidate → Counted (List Candidate)) (min passes : Nat) (c : Candidate) :
    Counted (List Candidate) := do
  let ends ← rounds body min passes 0 [c] []
  return Candidate.distinct (ends.reverse.flatten ++ if min = 0 then [c] else [])

/-! ### Counting and charging -/

@[simp]
theorem rationed_pure (a : α) : (pure a : Counted α).rationed = pure a := rfl

/-- What is left of an allowance by a first computation is the allowance of the second. -/
@[simp]
theorem rationed_bind (x : Counted α) (f : α → Counted β) :
    (x >>= f).rationed = x.rationed >>= fun a => (f a).rationed := by
  funext allowance
  simp only [Bind.bind, StateT.bind, Except.bind]
  by_cases hx : x.count ≤ allowance
  · -- The first one fits, so both together do when the second one fits what is left.
    have hfirst : x.rationed allowance = .ok (x.value, allowance - x.count) := if_pos hx
    have hiff : x.count + (f x.value).count ≤ allowance ↔
        (f x.value).count ≤ allowance - x.count := by omega
    rw [hfirst]
    dsimp only
    rw [rationed, rationed, ← Nat.sub_add_eq]
    exact if_congr hiff rfl rfl
  · have hfirst : x.rationed allowance = .error .outOfMemory := if_neg hx
    rw [hfirst]
    exact if_neg fun h => hx (Nat.le_trans (Nat.le_add_right _ _) h)

@[simp]
theorem rationed_map (f : α → β) (x : Counted α) : (f <$> x).rationed = f <$> x.rationed := by
  rw [map_eq_pure_bind, map_eq_pure_bind, rationed_bind]
  rfl

@[simp]
theorem rationed_produce (cs : List Candidate) : (produce cs).rationed = Candidate.ration cs := rfl

theorem rationed_mapM (f : α → Counted β) (as : List α) :
    (as.mapM f).rationed = as.mapM fun a => (f a).rationed := by
  induction as with
  | nil => simp
  | cons a as ih => simp [List.mapM_cons, ih]

variable (step : Candidate → Counted (List Candidate))

theorem rationed_extend (front : List Candidate) :
    (extend step front).rationed = Candidate.extend (fun c => (step c).rationed) front := by
  simp [extend, Candidate.extend, rationed_mapM]

theorem rationed_rounds (min passes count : Nat) (front : List Candidate)
    (ends : List (List Candidate)) :
    (rounds step min passes count front ends).rationed =
      Candidate.rounds (fun c => (step c).rationed) min passes count front ends := by
  induction passes generalizing count front ends with
  | zero => rfl
  | succ passes ih =>
    unfold rounds Candidate.rounds
    dsimp only
    split
    · rfl
    · simp only [rationed_bind, rationed_extend, ih]

theorem rationed_loop (min passes : Nat) (c : Candidate) :
    (loop step min passes c).rationed =
      Candidate.loop (fun c => (step c).rationed) min passes c := by
  simp [loop, Candidate.loop, rationed_rounds]

end Counted

namespace Expr

mutual

/-- The ways in which a tree can match from the end of a candidate on, with the number of candidates
that the tree and its parts produce. -/
def counted (subject : Subject) : Expr → Candidate → Counted (List Candidate)
  | empty, c => .produce [c]
  | literal b, c => .produce (leafCandidates subject ((literal b).byteSet? subject.options) c)
  | any, c => .produce (leafCandidates subject (any.byteSet? subject.options) c)
  | set s negated, c =>
    .produce (leafCandidates subject ((set s negated).byteSet? subject.options) c)
  | named cls negated, c =>
    .produce (leafCandidates subject ((named cls negated).byteSet? subject.options) c)
  | anchor kind, c => .produce (if subject.holds c.stop kind then [c] else [])
  | backref index, c => .produce (backrefCandidates subject index c)
  | concat items, c => do .produce (← sequenceCounted subject items [c])
  | alternation branches, c => do
    .produce (Candidate.distinct (← branchCounted subject branches c))
  | group index body, c => do
    let entered := c.slots.enter index (index + body.groupCount) c.stop
    let found ← body.counted subject ⟨c.stop, entered⟩
    .produce (found.map fun d => ⟨d.stop, d.slots.leave index d.stop⟩)
  | loop body min max, c => do
    .produce (← Counted.loop (body.counted subject) min (passes subject min max c.stop) c)
termination_by structural t => t

/-- The ways in which trees can match one after the other, counted. -/
def sequenceCounted (subject : Subject) : List Expr → List Candidate → Counted (List Candidate)
  | [], front => return front
  | t :: ts, front => do
    let found ← Counted.extend (t.counted subject) front
    -- The parts that are left are not asked, and produce nothing.
    if found.isEmpty then return []
    sequenceCounted subject ts (Candidate.distinct (found.map (·.2)))
termination_by structural ts => ts

/-- The ways in which one of several trees can match, counted. -/
def branchCounted (subject : Subject) : List Expr → Candidate → Counted (List Candidate)
  | [], _ => return []
  | t :: ts, c => do
    let found ← t.counted subject c
    return found ++ (← branchCounted subject ts c)
termination_by structural ts => ts

end

end Expr

/-- A text with another limit to the candidates. -/
def Subject.limited (subject : Subject) (limit : Nat) : Subject :=
  { subject with options := { subject.options with candidateLimit := limit } }

namespace Expr

variable (subject : Subject) (limit : Nat)

theorem backrefCandidates_limited (index : Nat) (c : Candidate) :
    backrefCandidates (subject.limited limit) index c = backrefCandidates subject index c := by
  have hagree (length first second : Nat) :
      (subject.limited limit).agree length first second = subject.agree length first second :=
    Bool.eq_iff_iff.2 (((subject.limited limit).agree_eq_true_iff length first second).trans
      (subject.agree_eq_true_iff length first second).symm)
  simp only [backrefCandidates, Subject.repeats, hagree]
  rfl

mutual

/-- Whatever the limit is, a tree lists what it lists without one, as long as the allowance is
enough for all that is produced. -/
theorem rationed_counted (t : Expr) :
    t.candidates (subject.limited limit) = fun c => (t.counted subject c).rationed := by
  funext c
  cases t with
  | concat items =>
    rw [candidates, counted, rationed_sequenceCounted items, Counted.rationed_bind]
    rfl
  | alternation branches =>
    rw [candidates, counted, rationed_branchCounted branches, Counted.rationed_bind]
    rfl
  | group index body =>
    rw [candidates, counted, rationed_counted body, Counted.rationed_bind]
    rfl
  | loop body min max =>
    rw [candidates, counted, rationed_counted body, Counted.rationed_bind, Counted.rationed_loop]
    rfl
  | backref index =>
    rw [candidates, backrefCandidates_limited]
    rfl
  | _ => rfl
termination_by structural t

theorem rationed_sequenceCounted (ts : List Expr) (front : List Candidate) :
    sequenceCandidates (subject.limited limit) ts front =
      (sequenceCounted subject ts front).rationed := by
  cases ts with
  | nil => rfl
  | cons t ts =>
    rw [sequenceCandidates, sequenceCounted, rationed_counted t, Counted.rationed_bind,
      Counted.rationed_extend]
    congr 1
    funext found
    split
    · rfl
    · exact rationed_sequenceCounted ts _
termination_by structural ts

theorem rationed_branchCounted (ts : List Expr) (c : Candidate) :
    branchCandidates (subject.limited limit) ts c = (branchCounted subject ts c).rationed := by
  cases ts with
  | nil => rfl
  | cons t ts =>
    rw [branchCandidates, branchCounted, rationed_counted t, rationed_branchCounted ts]
    simp
termination_by structural ts

end

/-! ### Positions -/

/-- The number of candidates that are produced, without a limit, to find the matches at a
position. -/
def produced (subject : Subject) (t : Expr) (pos : Nat) : Nat :=
  (t.counted subject (t.origin pos)).count

/-- The positions that a search tries: up to the first where a match starts, or all. -/
def tried (subject : Subject) (t : Expr) (start : Nat) : Set Nat :=
  {pos | start ≤ pos ∧ pos ≤ subject.size ∧ ∀ s, t.Starts subject start s → pos ≤ s}

variable {subject limit} {t : Expr}

/-- At one position the limit decides whether there is an outcome, but not which. -/
theorem matchAt_limited (t : Expr) (subject : Subject) (limit pos : Nat) :
    t.matchAt (subject.limited limit) pos =
      if t.produced subject pos ≤ limit then
        .ok (bestOf (t.counted subject (t.origin pos)).value)
      else .error .outOfMemory := by
  have hrun : t.matchAt (subject.limited limit) pos =
      bestOf <$> (t.counted subject (t.origin pos)).rationed.run' limit := by
    rw [matchAt, rationed_counted]
    exact (map_eq_pure_bind _ _).symm
  rw [hrun, StateT.run'_eq, StateT.run, Counted.rationed, produced]
  split <;> rfl

/-- Without a limit all derivations are listed. -/
theorem mem_counted {before : Nat} (ht : t.Orderly before) (c d : Candidate) :
    d ∈ (t.counted subject c).value ↔ t.Derives subject c d := by
  -- An allowance of just what is produced is not used up.
  have hrun : t.candidates subject c (t.counted subject c).count =
      .ok ((t.counted subject c).value,
        (t.counted subject c).count - (t.counted subject c).count) := by
    have hcandidates := rationed_counted subject subject.options.candidateLimit t
    exact (congrFun (congrFun hcandidates c) _).trans (if_pos (Nat.le_refl _))
  exact (candidates_yields ht c _ _ _ hrun).2 d

/-- A match starts at a position when there is a best one among what is listed there. -/
theorem starts_self_iff (ht : t.Orderly 0) {start : Nat} (hstart : start ≤ subject.size) :
    t.Starts subject start start ↔ bestOf (t.counted subject (t.origin start)).value ≠ none := by
  constructor
  · rintro ⟨-, -, d, hd⟩ hnone
    have hmem := (mem_counted ht (t.origin start) d).2 hd
    rw [eq_nil_of_bestOf hnone] at hmem
    exact List.not_mem_nil hmem
  · intro hbest
    obtain ⟨d, hd⟩ : ∃ d, d ∈ (t.counted subject (t.origin start)).value := by
      refine List.exists_mem_of_ne_nil _ fun hnil => hbest ?_
      rw [hnil]
      rfl
    exact ⟨Nat.le_refl start, hstart, d, (mem_counted ht (t.origin start) d).1 hd⟩

/-- No position is tried behind the end of the text. -/
theorem tried_of_size_lt {start : Nat} (h : subject.size < start) : t.tried subject start = ∅ :=
  Set.eq_empty_of_forall_notMem fun _ hpos => Nat.not_lt.2 (hpos.1.trans hpos.2.1) h

/-- No further position is tried where a match starts. -/
theorem tried_of_starts {start : Nat} (h : t.Starts subject start start) :
    t.tried subject start = {start} := by
  ext pos
  rw [Set.mem_singleton_iff]
  constructor
  · rintro ⟨hlo, -, hfirst⟩
    exact Nat.le_antisymm (hfirst start h) hlo
  · rintro rfl
    exact ⟨Nat.le_refl pos, h.2.1, fun s hs => hs.1⟩

/-- The positions behind one where no match starts are tried as well. -/
theorem tried_of_not_starts {start : Nat} (hstart : start ≤ subject.size)
    (h : ¬t.Starts subject start start) :
    t.tried subject start = insert start (t.tried subject (start + 1)) := by
  have hstarts (s : Nat) : t.Starts subject start s ↔ t.Starts subject (start + 1) s := by
    constructor
    · rintro ⟨hlo, hhi⟩
      refine ⟨Nat.lt_of_le_of_ne hlo ?_, hhi⟩
      rintro rfl
      exact h ⟨hlo, hhi⟩
    · exact fun hs => ⟨Nat.le_of_succ_le hs.1, hs.2⟩
  ext pos
  rw [Set.mem_insert_iff]
  simp only [tried, Set.mem_ofPred_eq, hstarts]
  constructor
  · rintro ⟨hlo, hhi, hfirst⟩
    rcases Nat.eq_or_lt_of_le hlo with rfl | hlt
    · exact .inl rfl
    · exact .inr ⟨hlt, hhi, hfirst⟩
  · rintro (rfl | ⟨hlo, hhi, hfirst⟩)
    · exact ⟨Nat.le_refl pos, hstart, fun s hs => Nat.le_of_succ_le hs.1⟩
    · exact ⟨Nat.le_of_succ_le hlo, hhi, hfirst⟩

/-- A threshold for a search from a position: the limit decides whether there is an outcome, and it
has to be enough for the most costly of the positions that are tried. -/
structure Threshold (subject : Subject) (t : Expr) (start T : Nat) (best : Option Slots) :
    Prop where
  /-- There is an outcome from the threshold on, and it is the same for all limits. -/
  search_eq : ∀ limit, t.search (subject.limited limit) start =
    if T ≤ limit then .ok best else .error .outOfMemory
  /-- Nothing is needed where no position is tried. -/
  eq_zero : t.tried subject start = ∅ → T = 0
  /-- Otherwise the threshold is what one of the positions needs, and none needs more. -/
  isGreatest : (t.tried subject start).Nonempty →
    IsGreatest (t.produced subject '' t.tried subject start) T

namespace Threshold

variable {start T : Nat} {best : Option Slots}

theorem of_size_lt (h : subject.size < start) : Threshold subject t start 0 none where
  search_eq limit := by
    rw [if_pos (Nat.zero_le limit)]
    exact if_pos h
  eq_zero _ := rfl
  isGreatest hne := absurd (tried_of_size_lt h) hne.ne_empty

/-- Where a match starts, the search needs what this position needs. -/
theorem of_starts (ht : t.Orderly 0) (h : t.Starts subject start start) :
    Threshold subject t start (t.produced subject start)
      (bestOf (t.counted subject (t.origin start)).value) where
  search_eq limit := by
    obtain ⟨w, hw⟩ := Option.ne_none_iff_exists'.1 ((starts_self_iff ht h.2.1).1 h)
    have hsize : start ≤ (subject.limited limit).size := h.2.1
    rw [search_eq_matchAt t hsize, matchAt_limited, hw]
    split <;> rfl
  eq_zero hempty := by
    rw [tried_of_starts h] at hempty
    exact absurd hempty (Set.singleton_ne_empty start)
  isGreatest _ := by
    rw [tried_of_starts h, Set.image_singleton]
    exact isGreatest_singleton

/-- Where no match starts, the search needs what this position needs, or what the further ones do if
this is more. -/
theorem of_not_starts (ht : t.Orderly 0) (hstart : start ≤ subject.size)
    (hnone : ¬t.Starts subject start start) (h : Threshold subject t (start + 1) T best) :
    Threshold subject t start (max (t.produced subject start) T) best where
  search_eq limit := by
    have hbest : bestOf (t.counted subject (t.origin start)).value = none := by
      by_contra hsome
      exact hnone ((starts_self_iff ht hstart).2 hsome)
    have hsize : start ≤ (subject.limited limit).size := hstart
    rw [search_eq_matchAt t hsize, matchAt_limited, hbest, h.search_eq]
    -- Each position has the whole limit, so the two needs are not added up.
    by_cases hhere : t.produced subject start ≤ limit
    · have hiff : T ≤ limit ↔ max (t.produced subject start) T ≤ limit := by omega
      rw [if_pos hhere]
      exact if_congr hiff rfl rfl
    · rw [if_neg hhere, if_neg fun hmax => hhere (Nat.le_trans (Nat.le_max_left _ _) hmax)]
      rfl
  eq_zero hempty := by
    rw [tried_of_not_starts hstart hnone] at hempty
    exact absurd hempty (Set.insert_nonempty _ _).ne_empty
  isGreatest _ := by
    rw [tried_of_not_starts hstart hnone, Set.image_insert_eq]
    rcases (t.tried subject (start + 1)).eq_empty_or_nonempty with hempty | hne
    · rw [hempty, h.eq_zero hempty, Set.image_empty, Nat.max_zero, insert_empty_eq]
      exact isGreatest_singleton
    · exact (h.isGreatest hne).insert _

end Threshold

/-- Every search has a threshold. -/
theorem exists_threshold (ht : t.Orderly 0) (subject : Subject) (start : Nat) :
    ∃ T best, Threshold subject t start T best := by
  -- The induction is on the positions that are left.
  induction hleft : subject.size + 1 - start generalizing start with
  | zero => exact ⟨0, none, .of_size_lt (by omega)⟩
  | succ left ih =>
    by_cases h : t.Starts subject start start
    · exact ⟨_, _, .of_starts ht h⟩
    · obtain ⟨T, best, hothers⟩ := ih (start + 1) (by omega)
      exact ⟨_, best, .of_not_starts ht (by omega) h hothers⟩

/-- The limit to the candidates decides whether a search has an outcome, but not which. From a
threshold `T` on the outcome is `best`, and below it the search is given up. The threshold is what
the most costly of the positions that are `tried` has `produced` without a limit: those from `start`
up to the first where a match starts, or up to the end of the text. -/
theorem search_threshold {pattern : List UInt8} {t : Expr} (ht : Expr.parse pattern = .ok t)
    (subject : Subject) (start : Nat) :
    ∃ T best, (∀ limit < T, t.search (subject.limited limit) start = .error .outOfMemory) ∧
      (∀ limit ≥ T, t.search (subject.limited limit) start = .ok best) ∧
      (t.tried subject start = ∅ → T = 0) ∧
      ((t.tried subject start).Nonempty →
        IsGreatest (t.produced subject '' t.tried subject start) T) := by
  obtain ⟨T, best, h⟩ := exists_threshold (orderly_of_parse ht) subject start
  refine ⟨T, best, fun limit hlt => ?_, fun limit hle => ?_, h.eq_zero, h.isGreatest⟩
  · rw [h.search_eq, if_neg (Nat.not_le_of_lt hlt)]
  · rw [h.search_eq, if_pos hle]

/-- The search for `(a*)b\1` in `aacb` finds its match at 3, where five candidates are produced. It
needs a limit of eight all the same: so many are produced at 0, where no match starts. -/
theorem search_threshold_costly :
    let t : Expr := .concat [.group 1 (.loop (.literal 97) 0 none), .literal 98, .backref 1]
    let subject : Subject := ⟨#[97, 97, 99, 98], {}, {}⟩
    Expr.parse [40, 97, 42, 41, 98, 92, 49] = .ok t ∧
      t.produced subject 0 = 8 ∧ t.produced subject 3 = 5 ∧
      (∀ limit < 8, t.search (subject.limited limit) 0 = .error .outOfMemory) ∧
      ∀ limit ≥ 8, t.search (subject.limited limit) 0 =
        .ok (some [⟨some 3, some 4⟩, ⟨some 3, some 3⟩]) := by
  intro t subject
  have hparse : Expr.parse [40, 97, 42, 41, 98, 92, 49] = .ok t := rfl
  have hbelow : t.search (subject.limited 7) 0 = .error .outOfMemory := by decide +kernel
  have hfrom : t.search (subject.limited 8) 0 =
      .ok (some [⟨some 3, some 4⟩, ⟨some 3, some 3⟩]) := by decide +kernel
  obtain ⟨T, best, herror, hok, -⟩ := search_threshold hparse subject 0
  -- The outcomes at 7 and at 8 leave one value for the threshold.
  obtain rfl : T = 8 := by
    have hle : T ≤ 8 := by
      by_contra hlt
      rw [herror 8 (Nat.lt_of_not_le hlt)] at hfrom
      cases hfrom
    have hlt : 7 < T := by
      by_contra hle
      rw [hok 7 (Nat.le_of_not_lt hle)] at hbelow
      cases hbelow
    omega
  refine ⟨hparse, by decide +kernel, by decide +kernel, herror, fun limit hle => ?_⟩
  rw [hok limit hle, ← hok 8 (Nat.le_refl 8), hfrom]

end Expr

end PosixRegex
