import Mathlib.Order.Interval.Finset.Nat
import PosixRegex.Proofs.Origin
import PosixRegex.Proofs.Scope

/-!
# Well-formed automata

In the automaton of a pattern each state leads to states of the automaton, just the last state
accepts, every state can be reached from the start, and the states that enter and leave groups name
groups of the pattern.

What a state may be by itself follows from the node that it belongs to, and where it leads from its
scope. That all states are reached is a matter of how fragments are put together: a piece of an
automaton is spanned from an entry if everything in it, and the state it leads on to, can be reached
from there, and pieces that are spanned can be joined where one leads on to the other.

- `Automaton.getElem?_reachable_iff`: the search for reachable states finds just those there are.
- `Automaton.Spanned`: pieces all of which can be reached from an entry.
- `Expr.spanned_fragment`: the fragment of a tree is such a piece.
- `Automaton.WellFormed`, `Engine.exists_wellFormed`: the automata of patterns are well-formed.
-/

namespace PosixRegex

namespace Automaton

/-- One state leads to another one. -/
def Leads (a : Automaton) (q r : Nat) : Prop := ∃ st, a.states[q]? = some st ∧ r ∈ st.successors

/-- One state can be reached from another one. -/
abbrev Reaches (a : Automaton) : Nat → Nat → Prop := Relation.ReflTransGen a.Leads

/-! ### The search for reachable states -/

variable {a : Automaton} {seen : Array Bool} {stack : List Nat} {q r : Nat}

theorem size_mark (a : Automaton) (seen : Array Bool) (stack : List Nat) :
    (a.mark seen stack).size = seen.size := by
  induction seen, stack using mark.induct a with
  | case1 seen => rw [mark]
  | case2 seen id stack h ih => rw [mark, dif_pos h, ih, Array.size_set]
  | case3 seen id stack h ih => rw [mark, dif_neg h, ih]

/-- A state that is passed over has been marked before. -/
theorem marked_of_not_new (h : ¬∃ _ : q < seen.size, seen[q] = false) (hlt : q < seen.size) :
    seen[q]? = some true := by
  rw [Array.getElem?_eq_getElem hlt]
  exact congrArg some (Bool.eq_true_of_not_eq_false fun hfalse => h ⟨hlt, hfalse⟩)

/-- What is marked stays so, and what is on the stack gets marked if it is a state. -/
theorem mark_of_mem (h : seen[q]? = some true ∨ q ∈ stack ∧ q < seen.size) :
    (a.mark seen stack)[q]? = some true := by
  induction seen, stack using mark.induct a with
  | case1 seen =>
    rw [mark]
    exact h.resolve_right fun h => List.not_mem_nil h.1
  | case2 seen id stack hnew ih =>
    rw [mark, dif_pos hnew]
    refine ih ?_
    rw [Array.getElem?_set, Array.size_set]
    -- The new state has been marked; all others are where they were.
    by_cases hid : id = q
    · exact .inl (if_pos hid)
    · rw [if_neg hid]
      refine h.imp_right fun ⟨hmem, hlt⟩ => ⟨List.mem_append_right _ ?_, hlt⟩
      exact (List.mem_cons.1 hmem).resolve_left (Ne.symm hid)
  | case3 seen id stack hold ih =>
    rw [mark, dif_neg hold]
    refine ih ?_
    rcases h with h | ⟨hmem, hlt⟩
    · exact .inl h
    · rcases List.mem_cons.1 hmem with rfl | hmem
      · exact .inl (marked_of_not_new hold hlt)
      · exact .inr ⟨hmem, hlt⟩

/-- The states that marked states lead to are marked, apart from those that are still on a stack. -/
def Closed (a : Automaton) (seen : Array Bool) (stack : List Nat) : Prop :=
  ∀ q r, seen[q]? = some true → a.Leads q r → r < seen.size →
    seen[r]? = some true ∨ r ∈ stack

/-- When the search is over nothing is left on the stack. -/
theorem closed_mark (h : a.Closed seen stack) : a.Closed (a.mark seen stack) [] := by
  induction seen, stack using mark.induct a with
  | case1 seen =>
    rw [mark]
    exact h
  -- A new state is marked and its successors are put on the stack.
  | case2 seen id stack hnew ih =>
    rw [mark, dif_pos hnew]
    refine ih fun q r hq hlead hr => ?_
    rw [Array.size_set] at hr
    rw [Array.getElem?_set] at hq ⊢
    by_cases hid : id = r
    · exact .inl (if_pos hid)
    · rw [if_neg hid, List.mem_append]
      by_cases hq' : id = q
      · -- What the new state leads to has been put on the stack.
        obtain ⟨st, hst, hmem⟩ := hlead
        subst hq'
        rw [hst]
        exact .inr (.inl hmem)
      · rw [if_neg hq'] at hq
        refine (h q r hq hlead hr).imp_right fun hmem => .inr ?_
        exact (List.mem_cons.1 hmem).resolve_left (Ne.symm hid)
  -- A state that was marked before is dropped, so it is not needed on the stack.
  | case3 seen id stack hold ih =>
    rw [mark, dif_neg hold]
    refine ih fun q r hq hlead hr => ?_
    rcases h q r hq hlead hr with hmarked | hmem
    · exact .inl hmarked
    · rcases List.mem_cons.1 hmem with rfl | hmem
      · exact .inl (marked_of_not_new hold hr)
      · exact .inr hmem

/-- What gets marked can be reached from a state on the stack. -/
theorem reaches_of_mark (h : (a.mark seen stack)[q]? = some true) :
    seen[q]? = some true ∨ ∃ s ∈ stack, a.Reaches s q := by
  induction seen, stack using mark.induct a with
  | case1 seen =>
    rw [mark] at h
    exact .inl h
  | case2 seen id stack hnew ih =>
    rw [mark, dif_pos hnew] at h
    rcases ih h with h | ⟨s, hs, hsq⟩
    · rw [Array.getElem?_set] at h
      by_cases hid : id = q
      · exact .inr ⟨id, List.mem_cons_self, hid ▸ .refl⟩
      · rw [if_neg hid] at h
        exact .inl h
    · rcases List.mem_append.1 hs with hs | hs
      · -- It was put on the stack for the new state.
        cases hst : a.states[id]? with
        | none =>
          rw [hst] at hs
          exact absurd hs List.not_mem_nil
        | some st =>
          rw [hst] at hs
          exact .inr ⟨id, List.mem_cons_self, hsq.head ⟨st, hst, hs⟩⟩
      · exact .inr ⟨s, List.mem_cons_of_mem id hs, hsq⟩
  | case3 seen id stack hold ih =>
    rw [mark, dif_neg hold] at h
    exact (ih h).imp_right fun ⟨s, hs, hsq⟩ => ⟨s, List.mem_cons_of_mem id hs, hsq⟩

theorem size_reachable (a : Automaton) : a.reachable.size = a.states.size := by
  rw [reachable, size_mark, Array.size_replicate]

/-- In an automaton whose states lead to states only, the search finds just the states that can be
reached from the start. -/
theorem getElem?_reachable_iff (hstart : a.start < a.states.size)
    (hlt : ∀ q r, a.Leads q r → r < a.states.size) :
    a.reachable[q]? = some true ↔ a.Reaches a.start q := by
  constructor
  · intro h
    rcases reaches_of_mark h with h | ⟨s, hs, hsq⟩
    · rw [Array.getElem?_replicate] at h
      split at h <;> cases h
    · rwa [← List.mem_singleton.1 hs]
  · intro h
    induction h with
    | refl =>
      refine mark_of_mem (.inr ⟨List.mem_singleton_self _, ?_⟩)
      rwa [Array.size_replicate]
    | tail _ hlead ih =>
      -- At first nothing is marked, so nothing is missing either.
      have hnone : a.Closed (Array.replicate a.states.size false) [a.start] := by
        intro q r hq
        rw [Array.getElem?_replicate] at hq
        split at hq <;> cases hq
      have hr := hlt _ _ hlead
      rw [← size_reachable] at hr
      exact (closed_mark hnone _ _ ih hlead hr).resolve_right List.not_mem_nil

/-- When every state can be reached, the search reports each of them. -/
theorem reachable_eq_replicate (hstart : a.start < a.states.size)
    (hlt : ∀ q r, a.Leads q r → r < a.states.size)
    (hreaches : ∀ q < a.states.size, a.Reaches a.start q) :
    a.reachable = Array.replicate a.states.size true := by
  refine Array.ext_getElem? fun q => ?_
  rw [Array.getElem?_replicate]
  split
  · rename_i hq
    exact (getElem?_reachable_iff hstart hlt).2 (hreaches q hq)
  · rename_i hq
    rw [← size_reachable] at hq
    exact Array.getElem?_eq_none (Nat.le_of_not_lt hq)

/-! ### Pieces that are reached as a whole -/

/-- The states between two numbers, and the state they lead on to, can be reached from an entry. -/
structure Spanned (a : Automaton) (lo hi entry exit : Nat) : Prop where
  /-- The states inside can be reached. -/
  inside : ∀ q, lo ≤ q → q < hi → a.Reaches entry q
  /-- What comes after them can be reached. -/
  exit : a.Reaches entry exit

namespace Spanned

variable {lo mid hi x y z : Nat}

theorem refl (a : Automaton) (q x : Nat) : a.Spanned q q x x :=
  ⟨fun _ hlo hhi => absurd hlo (Nat.not_le_of_lt hhi), .refl⟩

/-- A single state, from itself. -/
theorem self (a : Automaton) (q : Nat) : a.Spanned q (q + 1) q q := by
  refine ⟨fun r hlo hhi => ?_, .refl⟩
  obtain rfl : r = q := by omega
  exact .refl

/-- A single state and one that it leads to. -/
theorem single {st : State} (hst : a.states[q]? = some st) (hy : y ∈ st.successors) :
    a.Spanned q (q + 1) q y :=
  ⟨(self a q).inside, .single ⟨st, hst, hy⟩⟩

/-- A piece can be entered from where its entry can be reached. -/
theorem after (hxy : a.Reaches x y) (h : a.Spanned lo hi y z) : a.Spanned lo hi x z :=
  ⟨fun q hlo hhi => hxy.trans (h.inside q hlo hhi), hxy.trans h.exit⟩

/-- Two pieces with one entry. -/
theorem union (h : a.Spanned lo mid x y) (h' : a.Spanned mid hi x z) : a.Spanned lo hi x z := by
  refine ⟨fun q hlo hhi => ?_, h'.exit⟩
  by_cases hq : q < mid
  · exact h.inside q hlo hq
  · exact h'.inside q (Nat.le_of_not_lt hq) hhi

/-- Two pieces one after the other. -/
theorem append (h : a.Spanned lo mid x y) (h' : a.Spanned mid hi y z) : a.Spanned lo hi x z :=
  h.union (h'.after h.exit)

/-- A piece that leads back to one that stands before it. -/
theorem prepend (h : a.Spanned mid hi x y) (h' : a.Spanned lo mid y z) : a.Spanned lo hi x z :=
  ⟨((h'.after h.exit).union h).inside, h.exit.trans h'.exit⟩

variable {fragment : Expr.Fragment} {size : Nat}
  (hlength : ∀ base next, (fragment base next).length = size)
  (hfragment : ∀ base next, a.LaidAt base (fragment base next) →
    a.Spanned base (base + size) base next)

include hlength hfragment

/-- A chain of copies is spanned when each copy is. -/
theorem copies {n base next : Nat}
    (hlaid : a.LaidAt base (Expr.Fragment.copies fragment size n base next)) :
    a.Spanned base (base + n * size) (Expr.Fragment.entry (n == 0) base next) next := by
  induction n generalizing base with
  | zero =>
    rw [Nat.zero_mul]
    exact refl a base next
  | succ n ih =>
    have hright := hlaid.right
    rw [hlength] at hright
    have hrest := ih hright
    rw [Nat.succ_mul, Nat.add_comm (n * size), ← Nat.add_assoc]
    exact (hfragment _ _ hlaid.left).append hrest

/-- A chain of copies that may be left before each of them is spanned when each copy is: the way
through all copies leads everywhere. -/
theorem optionals {n base next : Nat}
    (hlaid : a.LaidAt base (Expr.Fragment.optionals fragment size n base next)) :
    a.Spanned base (base + n * (1 + size)) (Expr.Fragment.entry (n == 0) base next) next := by
  induction n generalizing base with
  | zero =>
    rw [Nat.zero_mul]
    exact refl a base next
  | succ n ih =>
    have hright := hlaid.tail.right
    rw [hlength] at hright
    have hrest := ih hright
    -- The branching state is left for the copy; the way out is where the last copy leads anyway.
    have hbranch := single hlaid.head List.mem_cons_self
    have hend : base + (n + 1) * (1 + size) = base + 1 + size + n * (1 + size) := by
      rw [Nat.succ_mul]
      omega
    rw [hend]
    exact (hbranch.append (hfragment _ _ hlaid.tail.left)).append hrest

end Spanned

end Automaton

namespace Expr

open Automaton

variable {a : Automaton} {o : Options}

section Loops

variable {body : Expr} {min max base next : Nat}
  (hbody : ∀ base next, a.LaidAt base (body.fragment o base next) →
    a.Spanned base (base + body.stateCount) base next)

include hbody

theorem spanned_star (hlaid : a.LaidAt base ((loop body 0 none).fragment o base next)) :
    a.Spanned base (base + (loop body 0 none).stateCount) base next := by
  simp only [fragment, stateCount, if_true] at hlaid ⊢
  have hskip := Spanned.single hlaid.head (List.mem_singleton_self _)
  -- The branching state leads into the body, and on; the body leads back.
  have hin := Spanned.single hlaid.tail.head List.mem_cons_self
  have hon := Spanned.single hlaid.tail.head (List.mem_cons_of_mem _ (List.mem_singleton_self _))
  have hpass := hin.append (hbody _ _ hlaid.tail.tail)
  have hend : base + (2 + body.stateCount) = base + 1 + 1 + body.stateCount := by omega
  rw [hend]
  exact hskip.append ⟨hpass.inside, hon.exit⟩

theorem spanned_plus (hlaid : a.LaidAt base ((loop body (min + 1) none).fragment o base next)) :
    a.Spanned base (base + (loop body (min + 1) none).stateCount) base next := by
  have hlength := length_fragment o body
  simp only [fragment, stateCount, if_neg (Nat.succ_ne_zero min), Nat.add_sub_cancel] at hlaid ⊢
  have hlast := hlaid.tail.left.right
  rw [Fragment.length_copies hlength] at hlast
  have hbranch := hlaid.tail.right.head
  rw [List.length_append, Fragment.length_copies hlength, hlength, ← Nat.add_assoc] at hbranch
  -- The copies end where the body of the loop begins.
  have hcopies := Spanned.copies hlength hbody hlaid.tail.left.left
  rw [Fragment.entry_behind] at hcopies
  have hskip := Spanned.single hlaid.head (List.mem_singleton_self _)
  have hon := Spanned.single hbranch (List.mem_cons_of_mem _ (List.mem_singleton_self _))
  have hend : base + (2 + (min + 1) * body.stateCount) =
      base + 1 + min * body.stateCount + body.stateCount + 1 := by
    rw [Nat.succ_mul]
    omega
  rw [hend]
  exact ((hskip.append hcopies).append (hbody _ _ hlast)).append hon

theorem spanned_range (hlt : min < max)
    (hlaid : a.LaidAt base ((loop body min (some max)).fragment o base next)) :
    a.Spanned base (base + (loop body min (some max)).stateCount) base next := by
  have hlength := length_fragment o body
  simp only [fragment, stateCount, if_pos hlt] at hlaid ⊢
  have hright := hlaid.tail.right
  rw [Fragment.length_copies hlength] at hright
  have hcopies := Spanned.copies hlength hbody hlaid.tail.left
  have hpasses := Spanned.optionals hlength hbody hright.tail
  rw [Fragment.entry, if_neg (by simp only [beq_iff_eq]; omega)] at hpasses
  have hskip := Spanned.single hlaid.head (List.mem_singleton_self _)
  have hon := Spanned.single hright.head (List.mem_singleton_self _)
  have hend : base + (2 + min * body.stateCount + (max - min) * (1 + body.stateCount)) =
      base + 1 + min * body.stateCount + 1 + (max - min) * (1 + body.stateCount) := by omega
  rw [hend]
  -- The state that leaves the loop stands before the copies that lead to it.
  exact (hskip.append hcopies).append (hpasses.prepend hon)

theorem spanned_exact (hle : max ≤ min)
    (hlaid : a.LaidAt base ((loop body min (some max)).fragment o base next)) :
    a.Spanned base (base + (loop body min (some max)).stateCount) base next := by
  simp only [fragment, stateCount, if_neg (Nat.not_lt.2 hle)] at hlaid ⊢
  have hcopies := Spanned.copies (length_fragment o body) hbody hlaid.tail
  have hskip := Spanned.single hlaid.head (List.mem_singleton_self _)
  rw [← Nat.add_assoc]
  exact hskip.append hcopies

/-- The fragment of a loop is spanned when that of its body is, whichever shape it has. -/
theorem spanned_loop {max : Option Nat}
    (hlaid : a.LaidAt base ((loop body min max).fragment o base next)) :
    a.Spanned base (base + (loop body min max).stateCount) base next := by
  cases max with
  | none =>
    cases min with
    | zero => exact spanned_star hbody hlaid
    | succ min => exact spanned_plus hbody hlaid
  | some max =>
    by_cases hlt : min < max
    · exact spanned_range hbody hlt hlaid
    · exact spanned_exact hbody (Nat.le_of_not_lt hlt) hlaid

end Loops

mutual

/-- The fragment of a tree is spanned from its first state. Only a back-reference and a choice
without branches lead nowhere. -/
theorem spanned_fragment {t : Expr} {base next : Nat} (hback : t.hasBackref = false)
    (ht : t.Shaped) (hlaid : a.LaidAt base (t.fragment o base next)) :
    a.Spanned base (base + t.stateCount) base next := by
  cases t with
  | empty | anchor => exact Spanned.single hlaid.head (List.mem_singleton_self _)
  | literal | any | set | named =>
    refine Spanned.single hlaid.head ?_
    rw [leafState, State.consume]
    split <;> exact List.mem_singleton_self _
  | backref index => exact absurd hback.symm Bool.false_ne_true
  | concat items =>
    cases items with
    | nil => exact Spanned.single hlaid.head (List.mem_singleton_self _)
    | cons t ts => exact spanned_sequence hback (Shaped.concat_iff.1 ht).2 hlaid
  | alternation branches =>
    obtain ⟨⟨hlen, -⟩, hbranches⟩ := Shaped.alternation_iff.1 ht
    have hne : branches ≠ [] := by
      rintro rfl
      exact absurd hlen (by decide)
    have hchoices := spanned_choices hne hback hbranches hlaid.tail.tail fun x hx =>
      (Spanned.single hlaid.head hx).exit
    -- The branches meet in the state between the branching one and them.
    have hon := Spanned.single hlaid.tail.head (List.mem_singleton_self _)
    have hend : base + (2 + stateCountAll branches) = base + 1 + 1 + stateCountAll branches := by
      omega
    rw [stateCount, hend]
    exact (Spanned.self a base).union (hchoices.prepend hon)
  | loop body min max =>
    refine spanned_loop (fun base next hlaid => ?_) hlaid
    exact spanned_fragment (t := body) hback (Shaped.loop_iff.1 ht).2 hlaid
  | group index body =>
    have hright := hlaid.tail.right
    rw [length_fragment] at hright
    have henter := Spanned.single hlaid.head (List.mem_singleton_self _)
    have hbody := spanned_fragment (t := body) hback (Shaped.group_iff.1 ht) hlaid.tail.left
    have hleave := Spanned.single hright.head (List.mem_singleton_self _)
    have hend : base + (2 + body.stateCount) = base + 1 + body.stateCount + 1 := by omega
    rw [stateCount, hend]
    exact (henter.append hbody).append hleave
termination_by structural t

/-- A chain of fragments is spanned from its first state. -/
theorem spanned_sequence {ts : List Expr} {base next : Nat} (hback : hasBackrefAny ts = false)
    (hts : ∀ t ∈ ts, t.Shaped) (hlaid : a.LaidAt base (sequence o ts base next)) :
    a.Spanned base (base + stateCountAll ts) (Fragment.entry ts.isEmpty base next) next := by
  cases ts with
  | nil => exact Spanned.refl a base next
  | cons t ts =>
    rw [hasBackrefAny, Bool.or_eq_false_iff] at hback
    rw [List.forall_mem_cons] at hts
    have hright := hlaid.right
    rw [length_fragment] at hright
    have hfirst := spanned_fragment hback.1 hts.1 hlaid.left
    have hrest := spanned_sequence hback.2 hts.2 hright
    rw [stateCountAll, ← Nat.add_assoc]
    exact hfirst.append hrest
termination_by structural ts

/-- The fragments of branches are spanned from any state from which the first state of each of them
can be reached. -/
theorem spanned_choices {ts : List Expr} {base next x : Nat} (hne : ts ≠ [])
    (hback : hasBackrefAny ts = false) (hts : ∀ t ∈ ts, t.Shaped)
    (hlaid : a.LaidAt base (choices o ts base next))
    (hx : ∀ y ∈ branchStarts base ts, a.Reaches x y) :
    a.Spanned base (base + stateCountAll ts) x next := by
  cases ts with
  | nil => exact absurd rfl hne
  | cons t ts =>
    rw [hasBackrefAny, Bool.or_eq_false_iff] at hback
    rw [List.forall_mem_cons] at hts
    rw [branchStarts, List.forall_mem_cons] at hx
    have hright := hlaid.right
    rw [length_fragment] at hright
    have hfirst := (spanned_fragment hback.1 hts.1 hlaid.left).after hx.1
    rw [stateCountAll, ← Nat.add_assoc]
    -- The last branch alone leads on already.
    by_cases hrest : ts = []
    · subst hrest
      exact hfirst
    · exact hfirst.union (spanned_choices hrest hback.2 hts.2 hright hx.2)
termination_by structural ts

end

end Expr

/-! ### Automata of trees -/

namespace Automaton

/-- What an automaton must be like to run a tree. -/
structure WellFormed (a : Automaton) (t : Expr) : Prop where
  /-- A run begins in a state. -/
  start_lt : a.start < a.states.size
  /-- States lead to states only. -/
  lt_of_leads : ∀ q r, a.Leads q r → r < a.states.size
  /-- A state that branches leads somewhere. -/
  branch_ne_nil : ∀ (q : Nat) (targets : List Nat),
    a.states[q]? = some (.branch targets) → targets ≠ []
  /-- Just the accepting state accepts. -/
  accepts_iff : ∀ q : Nat, a.states[q]? = some .accept ↔ q = a.accept
  /-- The accepting state is the last one. -/
  accept_last : a.accept + 1 = a.states.size
  /-- All states can be reached. -/
  reaches : ∀ q < a.states.size, a.Reaches a.start q
  /-- The search for the states that can be reached finds them all. -/
  reachable_eq : a.reachable = Array.replicate a.states.size true
  /-- A state that enters a group forgets as many groups as there are inside that group of the
  tree. -/
  enterGroup : ∀ q group last next : Nat, a.states[q]? = some (.enterGroup group last next) →
    1 ≤ group ∧ group ≤ last ∧ last ≤ a.groupCount ∧
      ∃ body, (Expr.group group body).IsPart t ∧
        {index | ∃ inner, (Expr.group index inner).IsPart body}.ncard = last - group
  /-- A state that leaves a group leaves a group of the tree. -/
  leaveGroup : ∀ q group next : Nat, a.states[q]? = some (.leaveGroup group next) →
    1 ≤ group ∧ group ≤ a.groupCount

/-- States with scopes lead to states with scopes. -/
theorem Scoped.lt_of_leads {a : Automaton} {spans : Nat → Nat → Prop} {scopes : List Scope}
    (ha : a.Scoped spans scopes) (h : a.Leads q r) : r < a.states.size := by
  obtain ⟨st, hst, hr⟩ := h
  obtain ⟨here, -, hpermits⟩ := ha.permits hst
  cases st with
  | byte | set | skip | assertion =>
    obtain rfl := List.mem_singleton.1 hr
    exact ha.lt_of_within hpermits
  | branch targets => exact ha.lt_of_within (hpermits.2 r hr)
  | enterGroup group last next =>
    obtain rfl := List.mem_singleton.1 hr
    obtain ⟨-, -, -, -, hnext⟩ := hpermits
    exact ha.lt_of_within hnext
  | leaveGroup group next =>
    obtain rfl := List.mem_singleton.1 hr
    obtain ⟨_, -, -, hnext⟩ := hpermits
    exact ha.lt_of_within hnext
  | accept => exact absurd hr List.not_mem_nil

end Automaton

namespace Expr

variable {o : Options} {t u : Expr} {st : Automaton.State}

/-- A tree without back-references has no part with one. -/
theorem IsPart.hasBackref_eq_false (hu : u.IsPart t) (h : t.hasBackref = false) :
    u.hasBackref = false := by
  induction hu with
  | refl => exact h
  | item hmem _ ih | branch hmem _ ih =>
    rw [hasBackref, hasBackrefAny_eq_any, List.any_eq_false] at h
    exact ih (Bool.eq_false_of_not_eq_true (h _ hmem))
  | body _ ih | inside _ ih => exact ih h

/-- No node has a state that accepts. -/
theorem Owns.ne_accept (h : u.Owns o st) : st ≠ .accept := by
  cases h <;> exact nofun

/-- A proper node that is no back-reference has no state that branches to nowhere. -/
theorem Owns.ne_branch_nil (h : u.Owns o st) (hproper : u.Proper) (hback : u.hasBackref = false) :
    st ≠ .branch [] := by
  cases h with
  | choose branches base =>
    obtain ⟨hlen, -⟩ := hproper
    match branches, hlen with
    | _ :: _, _ => exact nofun
  | stuck index => exact absurd hback.symm Bool.false_ne_true
  | _ => exact nofun

/-- The groups inside a group of an orderly tree have the numbers that follow its own. -/
theorem IsPart.ncard_groups {index before : Nat} {body : Expr} (h : (group index body).IsPart t)
    (ht : t.Orderly before) :
    {g | ∃ inner, (group g inner).IsPart body}.ncard = body.groupCount := by
  obtain ⟨n, -, -, rfl, hbody⟩ := h.orderly ht
  have hset : {g | ∃ inner, (group g inner).IsPart body} =
      Set.Ioc (n + 1) (n + 1 + body.groupCount) := Set.ext hbody.exists_group_iff
  rw [hset, Set.ncard_eq_toFinset_card', Set.toFinset_Ioc, Nat.card_Ioc, Nat.add_sub_cancel_left]

end Expr

namespace Automaton

/-- All states can be reached in the automaton of a shaped tree without back-references. -/
theorem reaches_ofExpr (o : Options) {t : Expr} (hback : t.hasBackref = false) (ht : t.Shaped)
    {q : Nat} (hq : q < (ofExpr o t).states.size) : (ofExpr o t).Reaches (ofExpr o t).start q := by
  have hspanned := Expr.spanned_fragment hback ht (laidAt_ofExpr o t)
  rw [Nat.zero_add] at hspanned
  rw [size_ofExpr] at hq
  -- The fragment is spanned from the start, and leads on to the accepting state.
  rcases Nat.lt_succ_iff_lt_or_eq.1 hq with hq | rfl
  · exact hspanned.inside q (Nat.zero_le q) hq
  · exact hspanned.exit

/-- Just the last state of the automaton of a tree accepts. -/
theorem states_eq_accept_iff (o : Options) (t : Expr) (q : Nat) :
    (ofExpr o t).states[q]? = some .accept ↔ q = (ofExpr o t).accept := by
  constructor
  · intro hq
    rcases exists_owns hq with ⟨heq, -⟩ | ⟨-, u, -, howns⟩
    · exact heq
    · exact absurd rfl howns.ne_accept
  · rintro rfl
    exact states_accept_ofExpr o t

/-- The groups that the automaton of a tree enters are those of the tree. -/
theorem exists_group_of_enterGroup {o : Options} {t : Expr} {q group last next : Nat}
    (hq : (ofExpr o t).states[q]? = some (.enterGroup group last next)) :
    ∃ body, (Expr.group group body).IsPart t ∧ last = group + body.groupCount := by
  rcases exists_owns hq with ⟨-, hst⟩ | ⟨-, u, hu, howns⟩
  · cases hst
  · cases howns with
    | enter index body => exact ⟨body, hu, rfl⟩

/-- So are those that it leaves. -/
theorem exists_group_of_leaveGroup {o : Options} {t : Expr} {q group next : Nat}
    (hq : (ofExpr o t).states[q]? = some (.leaveGroup group next)) :
    ∃ body, (Expr.group group body).IsPart t := by
  rcases exists_owns hq with ⟨-, hst⟩ | ⟨-, u, hu, howns⟩
  · cases hst
  · cases howns with
    | leave index body => exact ⟨body, hu⟩

/-- The automaton of a well-formed tree without back-references is well-formed. -/
theorem wellFormed_ofExpr (o : Options) {t : Expr} (hback : t.hasBackref = false)
    (ht : t.WellFormed) : (ofExpr o t).WellFormed t := by
  have hord := ht.orderly
  have hscoped := scoped_ofExpr o hord
  have hstart : (ofExpr o t).start < (ofExpr o t).states.size := hscoped.lt_of_within hscoped.start
  have hleads : ∀ q r, (ofExpr o t).Leads q r → r < (ofExpr o t).states.size :=
    fun _ _ => hscoped.lt_of_leads
  have hreaches : ∀ q < (ofExpr o t).states.size, (ofExpr o t).Reaches (ofExpr o t).start q :=
    fun _ => reaches_ofExpr o hback ht.shaped
  refine ⟨hstart, hleads, fun q targets hq => ?_, states_eq_accept_iff o t, (size_ofExpr o t).symm,
    hreaches, reachable_eq_replicate hstart hleads hreaches, fun q group last next hq => ?_,
    fun q group next hq => ?_⟩
  · rcases exists_owns hq with ⟨-, hst⟩ | ⟨-, u, hu, howns⟩
    · cases hst
    · rintro rfl
      exact howns.ne_branch_nil (ht.shaped u hu) (hu.hasBackref_eq_false hback) rfl
  · obtain ⟨body, hbody, rfl⟩ := exists_group_of_enterGroup hq
    obtain ⟨hpos, hle, hlast⟩ := hscoped.bounds ⟨body, hbody, rfl⟩
    refine ⟨hpos, hle, hlast, body, hbody, ?_⟩
    rw [hbody.ncard_groups hord, Nat.add_sub_cancel_left]
  · obtain ⟨body, hbody⟩ := exists_group_of_leaveGroup hq
    obtain ⟨hpos, hle, hlast⟩ := hscoped.bounds ⟨body, hbody, rfl⟩
    exact ⟨hpos, Nat.le_trans hle hlast⟩

end Automaton

/-- Compilation gives well-formed automata. When the tree `t` of a pattern has no back-references
and is not refused under `o`, it is compiled to an automaton `a` that is `WellFormed` and has no
more states than `o.stateLimit`: no number from the limit on is a state, and none is led to. -/
theorem Engine.exists_wellFormed {pattern : List UInt8} {t : Expr}
    (ht : Expr.parse pattern = .ok t) (hback : t.hasBackref = false) {o : Options} {e : Engine}
    (he : Engine.ofExpr o t = .ok e) :
    ∃ a, e = .automaton a ∧ a.WellFormed t ∧ a.states.size ≤ o.stateLimit := by
  rw [Engine.ofExpr_eq, hback, if_neg Bool.false_ne_true] at he
  split at he <;> cases he
  rename_i hlt
  refine ⟨_, rfl, Automaton.wellFormed_ofExpr o hback (Expr.wellFormed_of_parse ht), ?_⟩
  rw [Automaton.size_ofExpr]
  exact hlt

/-- The automaton of `(a(b))*|c` is well-formed. -/
theorem Engine.exists_wellFormed_star :
    let t : Expr :=
      .alternation [.loop (.group 1 (.concat [.literal 97, .group 2 (.literal 98)])) 0 none,
        .literal 99]
    Expr.parse [40, 97, 40, 98, 41, 41, 42, 124, 99] = .ok t ∧ t.hasBackref = false ∧
      Engine.ofExpr {} t = .ok (.automaton (.ofExpr {} t)) ∧
      (Automaton.ofExpr {} t).WellFormed t := by
  intro t
  have hparse : Expr.parse [40, 97, 40, 98, 41, 41, 42, 124, 99] = .ok t := by decide +kernel
  have hengine : Engine.ofExpr {} t = .ok (.automaton (.ofExpr {} t)) := rfl
  obtain ⟨a, ha, hwell, -⟩ := exists_wellFormed hparse rfl hengine
  cases ha
  exact ⟨hparse, rfl, hengine, hwell⟩

end PosixRegex
