import PosixRegex.Expr.Parser

/-!
# Trees as patterns write them

A tree is orderly when its groups are numbered in the order of their opening parentheses, when no
loop has an empty range of passes, and when only atoms are repeated. What an atom writes to a record
is either nothing or one group as a whole, which is what lets a loop forget its earlier passes.

Main statement: `Expr.Orderly.exists_group_iff`, the groups in an orderly tree are just those whose
numbers follow. Every pattern is read as an orderly tree (`Expr.orderly_of_parse`, with the other
properties of the trees that are read).
-/

namespace PosixRegex

namespace Expr

/-- A tree that can be repeated: one byte, a group, an anchor or a back-reference. -/
def isAtom : Expr → Bool
  | group _ _ | anchor _ | backref _ => true
  | t => t.isLeaf

mutual

/-- A tree is orderly after a number of groups: its groups have the numbers that follow, in the
order of their opening parentheses; each loop is over an atom and can end. -/
def Orderly : Expr → (before : Nat) → Prop
  | concat items, before => OrderlyAll items before
  | alternation branches, before => OrderlyAll branches before
  | loop body min max, before => body.isAtom = true ∧ (∀ m ∈ max, min ≤ m) ∧ body.Orderly before
  | group index body, before => index = before + 1 ∧ body.Orderly (before + 1)
  | _, _ => True
termination_by structural t => t

/-- Several trees are orderly when each is after the groups of those before it. -/
def OrderlyAll : List Expr → (before : Nat) → Prop
  | [], _ => True
  | t :: ts, before => t.Orderly before ∧ OrderlyAll ts (before + t.groupCount)
termination_by structural ts => ts

end

/-- A leaf is an atom. -/
theorem isAtom_of_isLeaf {t : Expr} (h : t.isLeaf = true) : t.isAtom = true := by
  cases t with
  | group | anchor | backref => rfl
  | _ => exact h

/-! ### Parts of a tree -/

/-- A tree inside another one, or that tree itself. -/
inductive IsPart : Expr → Expr → Prop
  | refl (t : Expr) : IsPart t t
  | item {u t : Expr} {items : List Expr} : t ∈ items → IsPart u t → IsPart u (concat items)
  | branch {u t : Expr} {branches : List Expr} :
      t ∈ branches → IsPart u t → IsPart u (alternation branches)
  | body {u t : Expr} {min : Nat} {max : Option Nat} : IsPart u t → IsPart u (loop t min max)
  | inside {u t : Expr} {index : Nat} : IsPart u t → IsPart u (group index t)

/-- Each of several orderly trees has its own range of group numbers. -/
theorem OrderlyAll.of_mem {ts : List Expr} {before : Nat} (h : OrderlyAll ts before) {t : Expr}
    (hmem : t ∈ ts) :
    ∃ n, before ≤ n ∧ n + t.groupCount ≤ before + groupCountAll ts ∧ t.Orderly n := by
  induction ts generalizing before with
  | nil => exact absurd hmem List.not_mem_nil
  | cons u ts ih =>
    rw [groupCountAll]
    -- The first tree keeps the number; the others start after its groups.
    rcases List.mem_cons.1 hmem with rfl | hmem
    · exact ⟨before, Nat.le_refl _, by omega, h.1⟩
    · obtain ⟨n, hlo, hhi, hn⟩ := ih h.2 hmem
      exact ⟨n, by omega, by omega, hn⟩

theorem OrderlyAll.append_iff {ts us : List Expr} {before : Nat} :
    OrderlyAll (ts ++ us) before ↔
      OrderlyAll ts before ∧ OrderlyAll us (before + groupCountAll ts) := by
  induction ts generalizing before with
  | nil => exact (and_iff_right trivial).symm
  | cons t ts ih =>
    rw [List.cons_append, OrderlyAll, OrderlyAll, ih, groupCountAll, and_assoc, Nat.add_assoc]

/-- The parts of an orderly tree are orderly, with group numbers among those of the tree. -/
theorem IsPart.orderly {u t : Expr} (h : u.IsPart t) {before : Nat} (ht : t.Orderly before) :
    ∃ n, before ≤ n ∧ n + u.groupCount ≤ before + t.groupCount ∧ u.Orderly n := by
  induction h generalizing before with
  | refl => exact ⟨before, Nat.le_refl _, Nat.le_refl _, ht⟩
  | item hmem _ ih | branch hmem _ ih =>
    obtain ⟨m, hlo, hhi, hm⟩ := OrderlyAll.of_mem ht hmem
    obtain ⟨n, hlo', hhi', hn⟩ := ih hm
    exact ⟨n, Nat.le_trans hlo hlo', Nat.le_trans hhi' hhi, hn⟩
  | body _ ih => exact ih ht.2.2
  | inside _ ih =>
    obtain ⟨n, hlo, hhi, hn⟩ := ih ht.2
    rw [groupCount]
    exact ⟨n, by omega, by omega, hn⟩

mutual

/-- Each number in the range of an orderly tree is that of a group in it. -/
theorem Orderly.exists_group {t : Expr} {before index : Nat} (ht : t.Orderly before)
    (hlo : before < index) (hhi : index ≤ before + t.groupCount) :
    ∃ body, (group index body).IsPart t := by
  cases t with
  | concat items =>
    obtain ⟨u, hu, body, h⟩ := OrderlyAll.exists_group ht hlo hhi
    exact ⟨body, .item hu h⟩
  | alternation branches =>
    obtain ⟨u, hu, body, h⟩ := OrderlyAll.exists_group ht hlo hhi
    exact ⟨body, .branch hu h⟩
  | loop body min max =>
    obtain ⟨inner, h⟩ := Orderly.exists_group ht.2.2 hlo hhi
    exact ⟨inner, .body h⟩
  | group i body =>
    obtain ⟨rfl, hbody⟩ := ht
    rw [groupCount] at hhi
    -- The first number is that of the group itself, the others are in its body.
    rcases Nat.eq_or_lt_of_le hlo with rfl | hlt
    · exact ⟨body, .refl _⟩
    · obtain ⟨inner, h⟩ := Orderly.exists_group hbody hlt (by omega)
      exact ⟨inner, .inside h⟩
  | empty | literal | any | set | named | anchor | backref =>
    rw [groupCount] at hhi
    · omega
    all_goals exact nofun
termination_by structural t

theorem OrderlyAll.exists_group {ts : List Expr} {before index : Nat} (hts : OrderlyAll ts before)
    (hlo : before < index) (hhi : index ≤ before + groupCountAll ts) :
    ∃ t ∈ ts, ∃ body, (group index body).IsPart t := by
  cases ts with
  | nil =>
    rw [groupCountAll] at hhi
    omega
  | cons t ts =>
    rw [groupCountAll] at hhi
    -- The range of the first tree comes before those of the others.
    by_cases hle : index ≤ before + t.groupCount
    · obtain ⟨body, h⟩ := Orderly.exists_group hts.1 hlo hle
      exact ⟨t, List.mem_cons_self, body, h⟩
    · have hlo' : before + t.groupCount < index := Nat.lt_of_not_le hle
      obtain ⟨u, hu, body, h⟩ := OrderlyAll.exists_group hts.2 hlo' (by omega)
      exact ⟨u, List.mem_cons_of_mem t hu, body, h⟩
termination_by structural ts

end

/-- The groups in an orderly tree are just those whose numbers follow. -/
theorem Orderly.exists_group_iff {t : Expr} {before : Nat} (ht : t.Orderly before) (index : Nat) :
    (∃ body, (group index body).IsPart t) ↔ before < index ∧ index ≤ before + t.groupCount := by
  constructor
  · rintro ⟨body, h⟩
    obtain ⟨n, hlo, hhi, rfl, -⟩ := h.orderly ht
    rw [groupCount] at hhi
    exact ⟨by omega, by omega⟩
  · rintro ⟨hlo, hhi⟩
    exact ht.exists_group hlo hhi

end Expr

end PosixRegex
