import PosixRegex.Proofs.Compilation

/-!
# Scopes

What the record of a thread looks like can be told in part from the state that the thread is in: the
groups around the state are open, and no group after a certain number has been entered. This is the
scope of the state. The states of a fragment get their scopes from the tree, in the order in which
the fragment is laid down.

- `Expr.scopes`: the scopes of the states of a fragment.
- `Scope.Permits`: what a state may be, given its scope.
- `Automaton.Scoped`: the states of an automaton lead from scope to scope as they should.
- `Automaton.scoped_ofExpr`: the automaton of an orderly tree does so.
-/

namespace PosixRegex

/-- What is known at a state of the records of the threads in it. -/
structure Scope where
  /-- The groups that are open. -/
  opened : List Nat
  /-- A number such that no group with a larger one has been entered. -/
  bound : Nat
deriving DecidableEq, Repr, Inhabited

namespace Expr

mutual

/-- The scopes of the states of a tree's fragment, given the groups around the tree and the number
of the groups before it. -/
def scopes : Expr → (opened : List Nat) → (before : Nat) → List Scope
  | concat items, opened, before =>
    if items.isEmpty then [⟨opened, before⟩] else scopesAll items opened before
  | alternation branches, opened, before =>
    ⟨opened, before⟩ :: ⟨opened, before + groupCountAll branches⟩ ::
      scopesAll branches opened before
  | loop body min max, opened, before =>
    -- Between two passes the groups of the body may have been entered.
    let between : Scope := ⟨opened, before + body.groupCount⟩
    match max with
    | none =>
      if min = 0 then ⟨opened, before⟩ :: between :: body.scopes opened before
      else
        ⟨opened, before⟩ :: ((List.replicate (min - 1) (body.scopes opened before)).flatten ++
          body.scopes opened before ++ [between])
    | some max =>
      if min < max then
        ⟨opened, before⟩ :: ((List.replicate min (body.scopes opened before)).flatten ++
          between :: (List.replicate (max - min) (between :: body.scopes opened before)).flatten)
      else ⟨opened, before⟩ :: (List.replicate min (body.scopes opened before)).flatten
  | group index body, opened, before =>
    ⟨opened, before + 1 + body.groupCount⟩ :: (body.scopes (index :: opened) (before + 1) ++
      [⟨index :: opened, before + 1 + body.groupCount⟩])
  | _, opened, before => [⟨opened, before⟩]
termination_by structural t => t

/-- The scopes of the states of several fragments, one after the other. -/
def scopesAll : List Expr → (opened : List Nat) → (before : Nat) → List Scope
  | [], _, _ => []
  | t :: ts, opened, before =>
    t.scopes opened before ++ scopesAll ts opened (before + t.groupCount)
termination_by structural ts => ts

end

mutual

/-- Each state of a fragment has a scope. -/
theorem length_scopes (t : Expr) (opened : List Nat) (before : Nat) :
    (t.scopes opened before).length = t.stateCount := by
  cases t with
  | concat items =>
    rw [scopes, stateCount]
    split
    · rfl
    · exact length_scopesAll items opened before
  | alternation branches =>
    simp only [scopes, stateCount, List.length_cons, length_scopesAll branches]
    omega
  | loop body min max =>
    have h := length_scopes body opened before
    cases max with
    | none =>
      simp only [scopes, stateCount]
      split
      · simp only [List.length_cons, h]
        omega
      · rename_i hm
        obtain ⟨m, rfl⟩ := Nat.exists_eq_succ_of_ne_zero hm
        simp [h, Nat.add_mul]
        omega
    | some max =>
      simp only [scopes, stateCount]
      split
      · simp [h, Nat.add_comm 1 body.stateCount]
        omega
      · simp [h]
        omega
  | group index body =>
    simp only [scopes, stateCount, List.length_cons, List.length_append, List.length_nil,
      length_scopes body]
    omega
  | _ => rfl
termination_by structural t

theorem length_scopesAll (ts : List Expr) (opened : List Nat) (before : Nat) :
    (scopesAll ts opened before).length = stateCountAll ts := by
  cases ts with
  | nil => rfl
  | cons t ts =>
    rw [scopesAll, stateCountAll, List.length_append, length_scopes t, length_scopesAll ts]
termination_by structural ts

end

/-- A fragment has a first state, within the scope of its tree. The groups of an atom count as
entered there, since a loop leads back to it. -/
theorem head?_scopes (t : Expr) (opened : List Nat) (before : Nat) :
    ∃ bound, before ≤ bound ∧ (t.isAtom = true → bound = before + t.groupCount) ∧
      (t.scopes opened before).head? = some ⟨opened, bound⟩ := by
  cases t with
  | concat items =>
    cases items with
    | nil => exact ⟨before, Nat.le_refl _, nofun, rfl⟩
    | cons t ts =>
      obtain ⟨bound, hle, -, hhead⟩ := head?_scopes t opened before
      refine ⟨bound, hle, nofun, ?_⟩
      show (t.scopes opened before ++ scopesAll ts opened (before + t.groupCount)).head? = _
      rw [List.head?_append, hhead, Option.some_or]
  | loop body min max =>
    refine ⟨before, Nat.le_refl _, nofun, ?_⟩
    simp only [scopes]
    split <;> split <;> rfl
  | group index body => exact ⟨_, by omega, fun _ => by rw [groupCount]; omega, rfl⟩
  | alternation | empty => exact ⟨before, Nat.le_refl _, nofun, rfl⟩
  | literal | any | set | named | anchor | backref =>
    exact ⟨before, Nat.le_refl _, fun _ => rfl, rfl⟩
termination_by structural t

/-- A fragment has a state. -/
theorem stateCount_pos (t : Expr) : 0 < t.stateCount := by
  obtain ⟨bound, -, -, hhead⟩ := head?_scopes t [] 0
  rw [← length_scopes t [] 0, List.length_pos_iff]
  rintro h
  rw [h] at hhead
  cases hhead

/-- Branches have no more first states than states. -/
theorem length_branchStarts_le (base : Nat) (ts : List Expr) :
    (branchStarts base ts).length ≤ stateCountAll ts := by
  induction ts generalizing base with
  | nil => exact Nat.le_refl _
  | cons t ts ih =>
    have := stateCount_pos t
    have := ih (base + t.stateCount)
    rw [branchStarts, stateCountAll, List.length_cons]
    omega

/-! ### Ranges of groups -/

/-- A group and the number of the last group in it, in a tree. -/
def Spans (t : Expr) (index last : Nat) : Prop :=
  ∃ body, (group index body).IsPart t ∧ last = index + body.groupCount

variable {t body : Expr} {ts : List Expr} {index last before g l : Nat} {opened : List Nat}

/-- The numbers of a group and of those in it are among those of the tree. -/
theorem Spans.bounds (h : t.Spans index last) (ht : t.Orderly before) :
    before < index ∧ index ≤ last ∧ last ≤ before + t.groupCount := by
  obtain ⟨body, hpart, rfl⟩ := h
  obtain ⟨n, hlo, hhi, rfl, -⟩ := hpart.orderly ht
  rw [groupCount] at hhi
  omega

theorem spans_concat : (concat ts).Spans index last ↔ ∃ t ∈ ts, t.Spans index last := by
  constructor
  · rintro ⟨body, hpart, hlast⟩
    cases hpart with
    | item hmem hpart => exact ⟨_, hmem, body, hpart, hlast⟩
  · rintro ⟨t, hmem, body, hpart, hlast⟩
    exact ⟨body, .item hmem hpart, hlast⟩

theorem spans_alternation : (alternation ts).Spans index last ↔ ∃ t ∈ ts, t.Spans index last := by
  constructor
  · rintro ⟨body, hpart, hlast⟩
    cases hpart with
    | branch hmem hpart => exact ⟨_, hmem, body, hpart, hlast⟩
  · rintro ⟨t, hmem, body, hpart, hlast⟩
    exact ⟨body, .branch hmem hpart, hlast⟩

theorem spans_loop {min : Nat} {max : Option Nat} :
    (loop body min max).Spans index last ↔ body.Spans index last := by
  constructor
  · rintro ⟨inner, hpart, hlast⟩
    cases hpart with
    | body hpart => exact ⟨inner, hpart, hlast⟩
  · rintro ⟨inner, hpart, hlast⟩
    exact ⟨inner, .body hpart, hlast⟩

theorem spans_group :
    (group g body).Spans index last ↔
      index = g ∧ last = g + body.groupCount ∨ body.Spans index last := by
  constructor
  · rintro ⟨inner, hpart, hlast⟩
    cases hpart with
    | refl => exact .inl ⟨rfl, hlast⟩
    | inside hpart => exact .inr ⟨inner, hpart, hlast⟩
  · rintro (⟨rfl, rfl⟩ | ⟨inner, hpart, hlast⟩)
    · exact ⟨body, .refl _, rfl⟩
    · exact ⟨inner, .inside hpart, hlast⟩

/-- A tree as a part of a larger one: the groups of the larger tree are its own, or lie before it,
after it or around it. -/
structure Situated (spans : Nat → Nat → Prop) (t : Expr) (opened : List Nat) (before : Nat) :
    Prop where
  /-- The groups of the tree have the numbers that follow. -/
  orderly : t.Orderly before
  /-- The groups around the tree have smaller numbers. -/
  opened_le : ∀ h ∈ opened, h ≤ before
  /-- The groups of the tree are groups of the larger one. -/
  spans_of : ∀ g l, t.Spans g l → spans g l
  /-- There are no others that could overlap with those of the tree. -/
  of_spans : ∀ g l, spans g l →
    t.Spans g l ∨ l ≤ before ∨ before + t.groupCount < g ∨ g ∈ opened

namespace Situated

variable {spans : Nat → Nat → Prop} {min : Nat} {max : Option Nat}

theorem concat_of_alternation (h : Situated spans (alternation ts) opened before) :
    Situated spans (concat ts) opened before where
  orderly := h.orderly
  opened_le := h.opened_le
  spans_of g l hg := h.spans_of g l (spans_alternation.2 (spans_concat.1 hg))
  of_spans g l hg := (h.of_spans g l hg).imp_left fun hg =>
    spans_concat.2 (spans_alternation.1 hg)

theorem loop_body (h : Situated spans (loop body min max) opened before) :
    Situated spans body opened before where
  orderly := h.orderly.2.2
  opened_le := h.opened_le
  spans_of g l hg := h.spans_of g l (spans_loop.2 hg)
  of_spans g l hg := (h.of_spans g l hg).imp_left spans_loop.1

/-- The body of a group has one more group around it. -/
theorem group_body (h : Situated spans (group index body) opened before) :
    Situated spans body (index :: opened) (before + 1) := by
  obtain ⟨⟨rfl, hbody⟩, hle, hof, hspans⟩ := h
  refine ⟨hbody, ?_, fun g l hg => hof g l (spans_group.2 (.inr hg)), fun g l hg => ?_⟩
  · intro h hmem
    rcases List.mem_cons.1 hmem with rfl | hmem
    · exact Nat.le_refl _
    · exact Nat.le_succ_of_le (hle h hmem)
  · rw [groupCount] at hspans
    -- The group itself is around its body now; the others are where they were.
    rcases hspans g l hg with hg | hg | hg | hg
    · rcases spans_group.1 hg with ⟨rfl, -⟩ | hg
      · exact .inr (.inr (.inr List.mem_cons_self))
      · exact .inl hg
    · exact .inr (.inl (Nat.le_succ_of_le hg))
    · exact .inr (.inr (.inl (by omega)))
    · exact .inr (.inr (.inr (List.mem_cons_of_mem _ hg)))

/-- The groups of the parts that follow lie after the first part. -/
theorem head (h : Situated spans (concat (t :: ts)) opened before) :
    Situated spans t opened before := by
  obtain ⟨⟨ht, hts⟩, hle, hof, hspans⟩ := h
  refine ⟨ht, hle, fun g l hg => ?_, fun g l hg => ?_⟩
  · exact hof g l (spans_concat.2 ⟨t, List.mem_cons_self, hg⟩)
  · rw [groupCount, groupCountAll] at hspans
    -- What belongs to a later part comes after the groups of the first.
    rcases hspans g l hg with hg | hg | hg | hg
    · obtain ⟨u, hu, hgu⟩ := spans_concat.1 hg
      rcases List.mem_cons.1 hu with rfl | hu
      · exact .inl hgu
      · obtain ⟨n, hlo, -, hn⟩ := OrderlyAll.of_mem hts hu
        have := hgu.bounds hn
        exact .inr (.inr (.inl (by omega)))
    · exact .inr (.inl hg)
    · exact .inr (.inr (.inl (by omega)))
    · exact .inr (.inr (.inr hg))

/-- The groups of the first part lie before those that follow. -/
theorem tail (h : Situated spans (concat (t :: ts)) opened before) :
    Situated spans (concat ts) opened (before + t.groupCount) := by
  obtain ⟨⟨ht, hts⟩, hle, hof, hspans⟩ := h
  refine ⟨hts, fun h hmem => Nat.le_add_right_of_le (hle h hmem), fun g l hg => ?_,
    fun g l hg => ?_⟩
  · obtain ⟨u, hu, hg⟩ := spans_concat.1 hg
    exact hof g l (spans_concat.2 ⟨u, List.mem_cons_of_mem t hu, hg⟩)
  · rw [groupCount, groupCountAll] at hspans
    rw [groupCount]
    -- What belongs to the first part comes before the groups of the others.
    rcases hspans g l hg with hg | hg | hg | hg
    · obtain ⟨u, hu, hgu⟩ := spans_concat.1 hg
      rcases List.mem_cons.1 hu with rfl | hu
      · have := hgu.bounds ht
        exact .inr (.inl (by omega))
      · exact .inl (spans_concat.2 ⟨u, hu, hgu⟩)
    · exact .inr (.inl (by omega))
    · exact .inr (.inr (.inl (by omega)))
    · exact .inr (.inr (.inr hg))

end Situated

end Expr

/-! ### Scopes that follow each other -/

/-- A state lies in the given groups, and the bound of its scope is no less than a given one. -/
def Within (scopes : List Scope) (opened : List Nat) (bound q : Nat) : Prop :=
  ∃ b, bound ≤ b ∧ scopes[q]? = some ⟨opened, b⟩

theorem Within.mono {scopes : List Scope} {opened : List Nat} {bound bound' q : Nat}
    (h : Within scopes opened bound q) (hle : bound' ≤ bound) : Within scopes opened bound' q := by
  obtain ⟨b, hb, hq⟩ := h
  exact ⟨b, Nat.le_trans hle hb, hq⟩

/-- What a state with a scope may be, given the ranges of all groups: where it leads to, and which
groups it enters and leaves. -/
def Scope.Permits (spans : Nat → Nat → Prop) (scopes : List Scope) (here : Scope) :
    Automaton.State → Prop
  | .byte _ next | .set _ next | .skip next | .assertion _ next =>
    Within scopes here.opened here.bound next
  | .branch targets =>
    targets.length ≤ scopes.length ∧ ∀ x ∈ targets, Within scopes here.opened here.bound x
  | .enterGroup group last next =>
    spans group last ∧ here.bound ≤ last ∧ (∀ h ∈ here.opened, h < group) ∧
      (∀ h l, spans h l → h < group → group ≤ l → h ∈ here.opened) ∧
      Within scopes (group :: here.opened) group next
  | .leaveGroup group next =>
    ∃ outer, here.opened = group :: outer ∧ (∀ h ∈ outer, h < group) ∧
      Within scopes outer here.bound next
  | .accept => True

namespace Automaton

/-- The states between two numbers are what their scopes permit. -/
def Guards (a : Automaton) (spans : Nat → Nat → Prop) (scopes : List Scope) (lo hi : Nat) : Prop :=
  ∀ q, lo ≤ q → q < hi → ∃ st here, a.states[q]? = some st ∧ scopes[q]? = some here ∧
    here.Permits spans scopes st

namespace Guards

variable {a : Automaton} {spans : Nat → Nat → Prop} {scopes : List Scope} {lo mid hi q : Nat}

theorem empty (a : Automaton) (spans : Nat → Nat → Prop) (scopes : List Scope) (q : Nat) :
    a.Guards spans scopes q q := fun _ hlo hhi => absurd hlo (Nat.not_le_of_lt hhi)

theorem single (spans : Nat → Nat → Prop) {st : State} {here : Scope} (hst : a.states[q]? = some st)
    (hhere : scopes[q]? = some here) (h : here.Permits spans scopes st) :
    a.Guards spans scopes q (q + 1) := by
  intro r hlo hhi
  obtain rfl : r = q := by omega
  exact ⟨st, here, hst, hhere, h⟩

theorem append (h : a.Guards spans scopes lo mid) (h' : a.Guards spans scopes mid hi) :
    a.Guards spans scopes lo hi := by
  intro q hlo hhi
  by_cases hq : q < mid
  · exact h q hlo hq
  · exact h' q (Nat.le_of_not_lt hq) hhi

end Guards

end Automaton

namespace Expr

open Automaton

variable {a : Automaton} {spans : Nat → Nat → Prop} {labels : List Scope} {o : Options}
  {base next before m : Nat} {opened : List Nat}

/-- The scopes of several copies. -/
theorem length_flatten_replicate {part : List Scope} {size : Nat} (h : part.length = size)
    (n : Nat) : (List.replicate n part).flatten.length = n * size := by
  rw [List.length_flatten, List.map_replicate, List.sum_replicate_nat, h]

/-- The scopes of a list stand in a sequence of scopes from a number on. -/
abbrev ScopesAt (labels : List Scope) (base : Nat) (part : List Scope) : Prop :=
  Laid (fun q => labels[q]?) base part

theorem ScopesAt.length_le {part : List Scope} (h : ScopesAt labels base part)
    (hpos : 0 < part.length) : base + part.length ≤ labels.length := by
  have hlast := h (part.length - 1) _ (List.getElem?_eq_getElem (by omega))
  obtain ⟨hlt, -⟩ := List.getElem?_eq_some_iff.1 hlast
  omega

/-- Where the scopes of a fragment stand the fragment is entered, with the bound that an atom has
between two passes if it is one. -/
theorem within_scopes {t : Expr} (h : ScopesAt labels base (t.scopes opened before)) :
    Within labels opened before base ∧
      (t.isAtom = true → Within labels opened (before + t.groupCount) base) := by
  obtain ⟨bound, hle, hatom, hhead⟩ := head?_scopes t opened before
  rw [List.head?_eq_getElem?] at hhead
  have hbase := h 0 _ hhead
  exact ⟨⟨bound, hle, hbase⟩, fun ht => ⟨bound, Nat.le_of_eq (hatom ht).symm, hbase⟩⟩

section Copies

variable {fragment : Fragment} {part : List Scope} {size : Nat}
  (hlength : ∀ base next, (fragment base next).length = size) (hpart : part.length = size)
  (hfragment : ∀ base next, a.LaidAt base (fragment base next) → ScopesAt labels base part →
    Within labels opened m next → a.Guards spans labels base (base + size))
  (hentry : ∀ base, ScopesAt labels base part → Within labels opened m base)

include hlength hpart hfragment hentry

/-- A chain of copies keeps to its scopes when each copy does. -/
theorem guards_copies {n : Nat} (hlaid : a.LaidAt base (Fragment.copies fragment size n base next))
    (hscopes : ScopesAt labels base (List.replicate n part).flatten)
    (hnext : Within labels opened m next) :
    a.Guards spans labels base (base + n * size) ∧
      Within labels opened m (Fragment.entry (n == 0) base next) := by
  induction n generalizing base with
  | zero =>
    rw [Nat.zero_mul]
    exact ⟨Guards.empty a spans labels base, hnext⟩
  | succ n ih =>
    rw [List.replicate_succ, List.flatten_cons] at hscopes
    have hright := hlaid.right
    have hrest := hscopes.right
    rw [hlength] at hright
    rw [hpart] at hrest
    -- The chain is built from its end, since each copy leads to the next one.
    obtain ⟨hguards, hwithin⟩ := ih hright hrest
    rw [Nat.succ_mul, Nat.add_comm (n * size), ← Nat.add_assoc]
    exact ⟨(hfragment _ _ hlaid.left hscopes.left hwithin).append hguards,
      hentry base hscopes.left⟩

/-- A chain of copies that may be left before each of them keeps to its scopes when each copy
does. -/
theorem guards_optionals {n : Nat}
    (hlaid : a.LaidAt base (Fragment.optionals fragment size n base next))
    (hscopes : ScopesAt labels base (List.replicate n (⟨opened, m⟩ :: part)).flatten)
    (htwo : 2 ≤ labels.length) (hnext : Within labels opened m next) :
    a.Guards spans labels base (base + n * (1 + size)) ∧
      Within labels opened m (Fragment.entry (n == 0) base next) := by
  induction n generalizing base with
  | zero =>
    rw [Nat.zero_mul]
    exact ⟨Guards.empty a spans labels base, hnext⟩
  | succ n ih =>
    rw [List.replicate_succ, List.flatten_cons, List.cons_append] at hscopes
    have hright := hlaid.tail.right
    have hrest := hscopes.tail.right
    rw [hlength] at hright
    rw [hpart] at hrest
    obtain ⟨hguards, hwithin⟩ := ih hright hrest
    have hcopy := hfragment _ _ hlaid.tail.left hscopes.tail.left hwithin
    -- The branching state leads into the copy or out of the chain.
    have hbranch := Guards.single spans hlaid.head hscopes.head ⟨htwo, fun x hx => by
      simp only [List.mem_cons, List.not_mem_nil, or_false] at hx
      rcases hx with rfl | rfl
      · exact hentry _ hscopes.tail.left
      · exact hnext⟩
    have hend : base + (n + 1) * (1 + size) = base + 1 + size + n * (1 + size) := by
      rw [Nat.succ_mul]
      omega
    rw [hend]
    exact ⟨(hbranch.append hcopy).append hguards, m, Nat.le_refl m, hscopes.head⟩

end Copies

section Loops

variable {body : Expr} {min max : Nat} (hatom : body.isAtom = true)
  (hbody : ∀ base next, a.LaidAt base (body.fragment o base next) →
    ScopesAt labels base (body.scopes opened before) →
    Within labels opened (before + body.groupCount) next →
    a.Guards spans labels base (base + body.stateCount))
  (hnext : Within labels opened (before + body.groupCount) next)

include hatom hbody hnext

theorem guards_star (hlaid : a.LaidAt base ((loop body 0 none).fragment o base next))
    (hscopes : ScopesAt labels base ((loop body 0 none).scopes opened before)) :
    a.Guards spans labels base (base + (loop body 0 none).stateCount) := by
  have hlen := hscopes.length_le (by rw [length_scopes, stateCount, if_pos rfl]; omega)
  rw [length_scopes] at hlen
  simp only [fragment, scopes, stateCount, if_true] at hlaid hscopes hlen ⊢
  -- The body leads back to the branching state, where its groups may have been entered.
  have hback : Within labels opened (before + body.groupCount) (base + 1) :=
    ⟨_, Nat.le_refl _, hscopes.tail.head⟩
  have hskip := Guards.single spans hlaid.head hscopes.head
    (hback.mono (Nat.le_add_right _ _))
  have hbranch := Guards.single spans hlaid.tail.head hscopes.tail.head
    ⟨show 2 ≤ labels.length by omega, fun x hx => by
      simp only [List.mem_cons, List.not_mem_nil, or_false] at hx
      rcases hx with rfl | rfl
      · exact (within_scopes hscopes.tail.tail).2 hatom
      · exact hnext⟩
  have hpass := hbody _ _ hlaid.tail.tail hscopes.tail.tail hback
  have hend : base + (2 + body.stateCount) = base + 1 + 1 + body.stateCount := by omega
  rw [hend]
  exact (hskip.append hbranch).append hpass

theorem guards_plus (hlaid : a.LaidAt base ((loop body (min + 1) none).fragment o base next))
    (hscopes : ScopesAt labels base ((loop body (min + 1) none).scopes opened before)) :
    a.Guards spans labels base (base + (loop body (min + 1) none).stateCount) := by
  have hlength := length_fragment o body
  have hpart := length_scopes body opened before
  have hlen := hscopes.length_le (by rw [length_scopes, stateCount, if_neg nofun]; omega)
  rw [length_scopes] at hlen
  simp only [fragment, scopes, stateCount, if_neg (Nat.succ_ne_zero min), Nat.add_sub_cancel]
    at hlaid hscopes hlen ⊢
  have hlast := hlaid.tail.left.right
  rw [Fragment.length_copies hlength] at hlast
  have hlast' := hscopes.tail.left.right
  rw [length_flatten_replicate hpart] at hlast'
  have hbranch := hlaid.tail.right.head
  rw [List.length_append, Fragment.length_copies hlength, hlength, ← Nat.add_assoc] at hbranch
  have hbranch' := hscopes.tail.right.head
  rw [List.length_append, length_flatten_replicate hpart, hpart, ← Nat.add_assoc] at hbranch'
  -- The last copy is entered again after a pass, which its scope allows for as the body is an atom.
  have hback := (within_scopes hlast').2 hatom
  obtain ⟨hcopies, hfirst⟩ := guards_copies hlength hpart hbody
    (fun base h => (within_scopes h).2 hatom) hlaid.tail.left.left hscopes.tail.left.left hback
  -- Without copies the loop is entered at once.
  have hentry : Within labels opened before (base + 1) := by
    cases min with
    | zero =>
      rw [Nat.zero_mul] at hback
      exact hback.mono (Nat.le_add_right _ _)
    | succ min => exact hfirst.mono (Nat.le_add_right _ _)
  have hskip := Guards.single spans hlaid.head hscopes.head hentry
  have hpass := hbody _ _ hlast hlast' ⟨_, Nat.le_refl _, hbranch'⟩
  have hloop := Guards.single spans hbranch hbranch'
    ⟨show 2 ≤ labels.length by omega, fun x hx => by
      simp only [List.mem_cons, List.not_mem_nil, or_false] at hx
      rcases hx with rfl | rfl
      · exact hback
      · exact hnext⟩
  have hend : base + (2 + (min + 1) * body.stateCount) =
      base + 1 + min * body.stateCount + body.stateCount + 1 := by
    rw [Nat.succ_mul]
    omega
  rw [hend]
  exact ((hskip.append hcopies).append hpass).append hloop

theorem guards_range (hlt : min < max)
    (hlaid : a.LaidAt base ((loop body min (some max)).fragment o base next))
    (hscopes : ScopesAt labels base ((loop body min (some max)).scopes opened before)) :
    a.Guards spans labels base (base + (loop body min (some max)).stateCount) := by
  have hlength := length_fragment o body
  have hpart := length_scopes body opened before
  have hlen := hscopes.length_le (by rw [length_scopes, stateCount, if_pos hlt]; omega)
  rw [length_scopes] at hlen
  simp only [fragment, scopes, stateCount, if_pos hlt] at hlaid hscopes hlen ⊢
  have hright := hlaid.tail.right
  rw [Fragment.length_copies hlength] at hright
  have hright' := hscopes.tail.right
  rw [length_flatten_replicate hpart] at hright'
  -- The optional copies lead back to the state after the copies that must be taken.
  have hexit : Within labels opened (before + body.groupCount) (base + 1 + min * body.stateCount) :=
    ⟨_, Nat.le_refl _, hright'.head⟩
  obtain ⟨hpasses, hin⟩ := guards_optionals hlength hpart hbody
    (fun base h => (within_scopes h).2 hatom) hright.tail hright'.tail (by omega) hexit
  rw [Fragment.entry, if_neg (by simp only [beq_iff_eq]; omega)] at hin
  obtain ⟨hcopies, hfirst⟩ := guards_copies hlength hpart hbody
    (fun base h => (within_scopes h).2 hatom) hlaid.tail.left hscopes.tail.left hin
  have hskip := Guards.single spans hlaid.head hscopes.head
    (hfirst.mono (Nat.le_add_right _ _))
  have hleave := Guards.single spans hright.head hright'.head hnext
  have hend : base + (2 + min * body.stateCount + (max - min) * (1 + body.stateCount)) =
      base + 1 + min * body.stateCount + 1 + (max - min) * (1 + body.stateCount) := by omega
  rw [hend]
  exact ((hskip.append hcopies).append hleave).append hpasses

theorem guards_exact (hle : max ≤ min)
    (hlaid : a.LaidAt base ((loop body min (some max)).fragment o base next))
    (hscopes : ScopesAt labels base ((loop body min (some max)).scopes opened before)) :
    a.Guards spans labels base (base + (loop body min (some max)).stateCount) := by
  simp only [fragment, scopes, stateCount, if_neg (Nat.not_lt.2 hle)] at hlaid hscopes ⊢
  obtain ⟨hcopies, hfirst⟩ := guards_copies (length_fragment o body)
    (length_scopes body opened before) hbody (fun base h => (within_scopes h).2 hatom) hlaid.tail
    hscopes.tail hnext
  have hskip := Guards.single spans hlaid.head hscopes.head
    (hfirst.mono (Nat.le_add_right _ _))
  rw [← Nat.add_assoc]
  exact hskip.append hcopies

/-- The fragment of a loop keeps to its scopes when that of its body does, whichever shape it
has. -/
theorem guards_loop {max : Option Nat}
    (hlaid : a.LaidAt base ((loop body min max).fragment o base next))
    (hscopes : ScopesAt labels base ((loop body min max).scopes opened before)) :
    a.Guards spans labels base (base + (loop body min max).stateCount) := by
  cases max with
  | none =>
    cases min with
    | zero => exact guards_star hatom hbody hnext hlaid hscopes
    | succ min => exact guards_plus hatom hbody hnext hlaid hscopes
  | some max =>
    by_cases hlt : min < max
    · exact guards_range hatom hbody hnext hlt hlaid hscopes
    · exact guards_exact hatom hbody hnext (Nat.le_of_not_lt hlt) hlaid hscopes

end Loops

mutual

/-- The fragment of a tree keeps to its scopes. -/
theorem guards_fragment {t : Expr} {before base next : Nat} {opened : List Nat}
    (h : Situated spans t opened before) (hlaid : a.LaidAt base (t.fragment o base next))
    (hscopes : ScopesAt labels base (t.scopes opened before))
    (hnext : Within labels opened (before + t.groupCount) next) :
    a.Guards spans labels base (base + t.stateCount) := by
  cases t with
  | empty | anchor => exact Guards.single spans hlaid.head hscopes.head hnext
  | backref => exact Guards.single spans hlaid.head hscopes.head ⟨Nat.zero_le _, nofun⟩
  | literal | any | set | named =>
    refine Guards.single spans hlaid.head hscopes.head ?_
    rw [leafState, State.consume]
    split <;> exact hnext
  | concat items =>
    cases items with
    | nil => exact Guards.single spans hlaid.head hscopes.head hnext
    | cons t ts => exact (guards_sequence h hlaid hscopes hnext).1
  | alternation branches =>
    have hlen := hscopes.length_le (by rw [length_scopes, stateCount]; omega)
    rw [length_scopes, stateCount] at hlen
    -- At the state where the branches meet the groups of any branch may have been entered.
    have hjoin : Within labels opened (before + groupCountAll branches) (base + 1) :=
      ⟨_, Nat.le_refl _, hscopes.tail.head⟩
    obtain ⟨hbranches, hstarts⟩ :=
      guards_choices h.concat_of_alternation hlaid.tail.tail hscopes.tail.tail hjoin
    have hcount := length_branchStarts_le (base + 2) branches
    have hbranch := Guards.single spans hlaid.head hscopes.head
      ⟨show _ ≤ labels.length by omega, hstarts⟩
    have hskip := Guards.single spans hlaid.tail.head hscopes.tail.head hnext
    rw [stateCount, ← Nat.add_assoc]
    exact (hbranch.append hskip).append hbranches
  | loop body min max =>
    refine guards_loop h.orderly.1 (fun base next hlaid hscopes hnext => ?_) hnext hlaid hscopes
    exact guards_fragment h.loop_body hlaid hscopes hnext
  | group index body =>
    obtain rfl : index = before + 1 := h.orderly.1
    have hright := hlaid.tail.right
    rw [length_fragment] at hright
    have hright' := hscopes.tail.right
    rw [length_scopes] at hright'
    have henter := Guards.single spans hlaid.head hscopes.head
      ⟨h.spans_of _ _ (spans_group.2 (.inl ⟨rfl, rfl⟩)), Nat.le_refl _,
        fun g hg => Nat.lt_succ_of_le (h.opened_le g hg), fun g l hg hlt hle => by
          -- A group that reaches beyond this one and is no part of it is open.
          rcases h.of_spans g l hg with hg | hg | hg | hg
          · have := hg.bounds h.orderly
            omega
          · omega
          · omega
          · exact hg, (within_scopes hscopes.tail.left).1⟩
    have hbody := guards_fragment h.group_body hlaid.tail.left hscopes.tail.left
      ⟨_, Nat.le_refl _, hright'.head⟩
    rw [groupCount, ← Nat.add_assoc] at hnext
    -- On the way out the group is the innermost one that is open.
    have hleave := Guards.single spans hright.head hright'.head
      ⟨opened, rfl, fun g hg => Nat.lt_succ_of_le (h.opened_le g hg), hnext⟩
    have hend : base + (2 + body.stateCount) = base + 1 + body.stateCount + 1 := by omega
    rw [stateCount, hend]
    exact (henter.append hbody).append hleave
termination_by structural t

/-- A chain of fragments keeps to its scopes. -/
theorem guards_sequence {ts : List Expr} {before base next : Nat} {opened : List Nat}
    (h : Situated spans (concat ts) opened before)
    (hlaid : a.LaidAt base (sequence o ts base next))
    (hscopes : ScopesAt labels base (scopesAll ts opened before))
    (hnext : Within labels opened (before + groupCountAll ts) next) :
    a.Guards spans labels base (base + stateCountAll ts) ∧
      Within labels opened before (Fragment.entry ts.isEmpty base next) := by
  cases ts with
  | nil => exact ⟨Guards.empty a spans labels base, hnext⟩
  | cons t ts =>
    have hright := hlaid.right
    rw [length_fragment] at hright
    have hright' := hscopes.right
    rw [length_scopes] at hright'
    rw [groupCountAll, ← Nat.add_assoc] at hnext
    obtain ⟨hrest, hmid⟩ := guards_sequence h.tail hright hright' hnext
    have hfirst := guards_fragment h.head hlaid.left hscopes.left hmid
    rw [stateCountAll, ← Nat.add_assoc]
    exact ⟨hfirst.append hrest, (within_scopes hscopes.left).1⟩
termination_by structural ts

/-- The fragments of branches keep to their scopes. -/
theorem guards_choices {ts : List Expr} {before base next : Nat} {opened : List Nat}
    (h : Situated spans (concat ts) opened before) (hlaid : a.LaidAt base (choices o ts base next))
    (hscopes : ScopesAt labels base (scopesAll ts opened before))
    (hnext : Within labels opened (before + groupCountAll ts) next) :
    a.Guards spans labels base (base + stateCountAll ts) ∧
      ∀ x ∈ branchStarts base ts, Within labels opened before x := by
  cases ts with
  | nil => exact ⟨Guards.empty a spans labels base, nofun⟩
  | cons t ts =>
    have hright := hlaid.right
    rw [length_fragment] at hright
    have hright' := hscopes.right
    rw [length_scopes] at hright'
    rw [groupCountAll, ← Nat.add_assoc] at hnext
    obtain ⟨hrest, hstarts⟩ := guards_choices h.tail hright hright' hnext
    -- The bound where the branches meet is that of all branches, so it holds for each.
    have hfirst := guards_fragment h.head hlaid.left hscopes.left
      (hnext.mono (Nat.le_add_right _ _))
    rw [stateCountAll, ← Nat.add_assoc]
    refine ⟨hfirst.append hrest, fun x hx => ?_⟩
    rcases List.mem_cons.1 hx with rfl | hx
    · exact (within_scopes hscopes.left).1
    · exact (hstarts x hx).mono (Nat.le_add_right _ _)
termination_by structural ts

end

end Expr

/-! ### Automata that keep to scopes -/

namespace Automaton

/-- The states of an automaton keep to scopes: each has one, and is what that scope permits. -/
structure Scoped (a : Automaton) (spans : Nat → Nat → Prop) (scopes : List Scope) : Prop where
  /-- Just the states have scopes. -/
  length_eq : scopes.length = a.states.size
  /-- Each state is what its scope permits. -/
  permits : ∀ {q : Nat} {st : State}, a.states[q]? = some st →
    ∃ here : Scope, scopes[q]? = some here ∧ here.Permits spans scopes st
  /-- At the start only group 0 is open. -/
  start : Within scopes [0] 0 a.start
  /-- Where a match is accepted only group 0 is open. -/
  accept : Within scopes [0] 0 a.accept
  /-- The groups are numbered from 1 on. -/
  bounds : ∀ {g l : Nat}, spans g l → 0 < g ∧ g ≤ l ∧ l ≤ a.groupCount

namespace Scoped

variable {a : Automaton} {spans : Nat → Nat → Prop} {scopes : List Scope} {q : Nat}

/-- A state is what its scope permits. -/
theorem permits_of (ha : a.Scoped spans scopes) {st : State} {here : Scope}
    (hst : a.states[q]? = some st) (hhere : scopes[q]? = some here) :
    here.Permits spans scopes st := by
  obtain ⟨here', hhere', hpermits⟩ := ha.permits hst
  cases hhere.symm.trans hhere'
  exact hpermits

/-- What has a scope is a state. -/
theorem lt_of_within (ha : a.Scoped spans scopes) {opened : List Nat} {bound : Nat}
    (h : Within scopes opened bound q) : q < a.states.size := by
  obtain ⟨b, -, hq⟩ := h
  obtain ⟨hlt, -⟩ := List.getElem?_eq_some_iff.1 hq
  rwa [ha.length_eq] at hlt

end Scoped

/-- The automaton of an orderly tree keeps to the scopes of the tree. -/
theorem scoped_ofExpr (o : Options) {t : Expr} (ht : t.Orderly 0) :
    (ofExpr o t).Scoped t.Spans (t.scopes [0] 0 ++ [⟨[0], t.groupCount⟩]) := by
  have hlength := Expr.length_scopes t [0] 0
  have hscopes : Expr.ScopesAt (t.scopes [0] 0 ++ [⟨[0], t.groupCount⟩]) 0 (t.scopes [0] 0) := by
    intro i here hi
    obtain ⟨hlt, -⟩ := List.getElem?_eq_some_iff.1 hi
    show (t.scopes [0] 0 ++ [⟨[0], t.groupCount⟩])[0 + i]? = some here
    rw [Nat.zero_add, List.getElem?_append_left hlt, hi]
  have hlast : (t.scopes [0] 0 ++ [⟨[0], t.groupCount⟩])[t.stateCount]? =
      some ⟨[0], t.groupCount⟩ := by
    rw [List.getElem?_append_right (Nat.le_of_eq hlength), hlength, Nat.sub_self]
    rfl
  -- The tree is part of itself, with group 0 around it.
  have hsituated : Expr.Situated t.Spans t [0] 0 := by
    refine ⟨ht, fun h hh => ?_, fun _ _ h => h, fun _ _ h => .inl h⟩
    exact Nat.le_of_eq (List.mem_singleton.1 hh)
  have hguards := Expr.guards_fragment hsituated (laidAt_ofExpr o t) hscopes
    ⟨_, Nat.le_of_eq (Nat.zero_add _), hlast⟩
  rw [Nat.zero_add] at hguards
  refine ⟨?_, fun {q st} hst => ?_, (Expr.within_scopes hscopes).1,
    ⟨_, Nat.zero_le _, hlast⟩, fun {g l} h => ?_⟩
  · rw [List.length_append, hlength, size_ofExpr, List.length_singleton]
  · -- A state belongs to the fragment, or is the accepting one.
    by_cases hq : q < t.stateCount
    · obtain ⟨st', here, hst', hhere, hpermits⟩ := hguards q (Nat.zero_le q) hq
      cases hst.symm.trans hst'
      exact ⟨here, hhere, hpermits⟩
    · obtain ⟨hlt, -⟩ := Array.getElem?_eq_some_iff.1 hst
      rw [size_ofExpr] at hlt
      obtain rfl : q = t.stateCount := by omega
      cases hst.symm.trans (states_accept_ofExpr o t)
      exact ⟨_, hlast, trivial⟩
  · have := h.bounds ht
    exact ⟨by omega, by omega, show l ≤ t.groupCount by omega⟩

end Automaton

end PosixRegex
