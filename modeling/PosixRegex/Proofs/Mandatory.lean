import PosixRegex.Proofs.Agreement

/-!
# Groups that always take part

When no group of a tree is in a branch of a choice or in a loop that need not begin, every group
takes part in every match. Then the ranking of two records is decided by the first group on which
they differ, so it is a total order; and a search ends with the greatest of all records, although it
gives up threads and candidates long before their groups are complete.

- `Expr.Mandatory`: trees whose groups always take part.
- `Expr.Derives.isClosed`: a derivation of such a tree closes every group.
- `Expr.search_foremost`: both searches end with the greatest record.
-/

namespace PosixRegex.Expr

variable {subject : Subject} {c d : Candidate} {before start g : Nat} {v : Slots}

/-- No group of a tree is in a branch of a choice, and none is in a loop that need not begin. -/
structure Mandatory (t : Expr) : Prop where
  /-- The branches of a choice have no groups. -/
  branches : ∀ branches, (alternation branches).IsPart t → groupCountAll branches = 0
  /-- The body of a loop that need not begin has no groups. -/
  loops : ∀ body max, (loop body 0 max).IsPart t → body.groupCount = 0

section

variable {t body : Expr} {items : List Expr} {index min : Nat} {max : Option Nat}

theorem mandatory_of_isLeaf (h : t.isLeaf = true) : t.Mandatory := by
  constructor
  · intro branches hpart
    cases hpart with
    | refl | branch => cases h
    | item | body | inside => cases h
  · intro body max hpart
    cases hpart with
    | refl | body => cases h
    | item | branch | inside => cases h

theorem mandatory_concat : (concat items).Mandatory ↔ ∀ t ∈ items, t.Mandatory := by
  constructor
  · intro h t hmem
    exact ⟨fun branches hpart => h.branches branches (.item hmem hpart),
      fun body max hpart => h.loops body max (.item hmem hpart)⟩
  · intro h
    constructor
    · intro branches hpart
      cases hpart with
      | item hmem hpart => exact (h _ hmem).branches branches hpart
    · intro body max hpart
      cases hpart with
      | item hmem hpart => exact (h _ hmem).loops body max hpart

theorem mandatory_group : (group index body).Mandatory ↔ body.Mandatory := by
  constructor
  · intro h
    exact ⟨fun branches hpart => h.branches branches (.inside hpart),
      fun body max hpart => h.loops body max (.inside hpart)⟩
  · intro h
    constructor
    · intro branches hpart
      cases hpart with
      | inside hpart => exact h.branches branches hpart
    · intro body max hpart
      cases hpart with
      | inside hpart => exact h.loops body max hpart

theorem mandatory_loop :
    (loop body min max).Mandatory ↔ (min = 0 → body.groupCount = 0) ∧ body.Mandatory := by
  constructor
  · intro h
    refine ⟨fun hmin => h.loops body max (hmin ▸ .refl _), ?_⟩
    exact ⟨fun branches hpart => h.branches branches (.body hpart),
      fun body max hpart => h.loops body max (.body hpart)⟩
  · rintro ⟨hnone, h⟩
    constructor
    · intro branches hpart
      cases hpart with
      | body hpart => exact h.branches branches hpart
    · intro body max hpart
      cases hpart with
      | refl => exact hnone rfl
      | body hpart => exact h.loops body max hpart

end

mutual

/-- A derivation of a tree with mandatory groups closes each of its groups, whatever was recorded of
them before. -/
theorem Derives.isClosed {t : Expr} {c d : Candidate} {before g : Nat} (h : t.Derives subject c d)
    (ht : t.Orderly before) (hm : t.Mandatory) (hlen : before + t.groupCount < c.slots.length)
    (hlo : before < g) (hhi : g ≤ before + t.groupCount) : (d.slots.mark g).IsClosed := by
  cases t with
  | concat items => exact DerivesAll.isClosed h ht (mandatory_concat.1 hm) hlen hlo hhi
  | alternation branches =>
    have := hm.branches branches (.refl _)
    rw [groupCount] at hhi
    omega
  | loop body min max =>
    obtain ⟨n, hmin, -, h⟩ := h
    rw [groupCount] at hlen hhi
    cases n with
    | zero =>
      -- The loop need not begin, so there are no groups in it.
      have := (mandatory_loop.1 hm).1 (Nat.le_zero.1 hmin)
      omega
    | succ n =>
      -- The last pass closes the groups.
      obtain ⟨e, hce, hed⟩ := Iterates.succ_iff.1 h
      have hext : c.Extends subject e :=
        hce.preserves (fun a b ha hab => ha.trans (Derives.extends hab)) (.refl subject c)
      refine Derives.isClosed hed ht.2.2 (mandatory_loop.1 hm).2 ?_ hlo hhi
      rwa [hext.length_eq]
  | group index body =>
    obtain ⟨e, he, rfl⟩ := h
    obtain ⟨rfl, hbody⟩ := ht
    rw [groupCount] at hlen hhi
    have hlen' : before + 1 < c.slots.length := by omega
    rcases Nat.eq_or_lt_of_le hlo with rfl | hlt
    · -- The group itself was opened on the way in, and the body leaves it alone.
      have hopen : e.slots.mark (before + 1) = .opened c.stop := by
        rw [he.mark_eq hbody (.inl (Nat.le_refl _)),
          Slots.mark_enter_self (Nat.le_add_right _ _) hlen']
      have hlt : before + 1 < e.slots.length := by
        rwa [he.extends.length_eq, Slots.length_enter]
      rw [Slots.mark_leave_self hlt, hopen]
      exact ⟨rfl, rfl⟩
    · rw [Slots.mark_leave_of_ne (Nat.ne_of_gt hlt)]
      refine Derives.isClosed he hbody (mandatory_group.1 hm) ?_ hlt (by omega)
      rw [Slots.length_enter]
      omega
  | empty | literal | any | set | named | anchor | backref =>
    simp only [groupCount] at hhi
    omega
termination_by structural t

theorem DerivesAll.isClosed {ts : List Expr} {c d : Candidate} {before g : Nat}
    (h : DerivesAll subject ts c d) (hts : OrderlyAll ts before) (hm : ∀ t ∈ ts, t.Mandatory)
    (hlen : before + groupCountAll ts < c.slots.length) (hlo : before < g)
    (hhi : g ≤ before + groupCountAll ts) : (d.slots.mark g).IsClosed := by
  cases ts with
  | nil =>
    rw [groupCountAll] at hhi
    omega
  | cons t ts =>
    obtain ⟨e, he, hd⟩ := h
    rw [groupCountAll] at hlen hhi
    by_cases hle : g ≤ before + t.groupCount
    · -- The first tree closes the group, and the others leave it alone.
      rw [DerivesAll.mark_eq hd hts.2 (.inl hle)]
      exact Derives.isClosed he hts.1 (hm t List.mem_cons_self) (by omega) hlo hle
    · refine DerivesAll.isClosed hd hts.2 (fun u hu => hm u (List.mem_cons_of_mem t hu)) ?_
        (Nat.lt_of_not_le hle) (by omega)
      rw [he.extends.length_eq]
      omega
termination_by structural ts

end

/-- In the records of a tree with mandatory groups every group is closed. -/
theorem complete_of_mem_records {t : Expr} (ht : t.Orderly 0) (hm : t.Mandatory)
    (hv : v ∈ t.records subject start) : v.Complete t.groupCount := by
  refine ⟨length_of_mem_records hv, fun g hg => ?_⟩
  rcases Nat.eq_zero_or_pos g with rfl | hpos
  · exact isClosed_of_mem_records ht hv
  · obtain ⟨s, e, w, -, -, -, hd, rfl⟩ := hv
    rw [Slots.mark_leave_of_ne (Nat.ne_of_gt hpos)]
    refine hd.isClosed ht hm ?_ hpos (by omega)
    rw [Slots.length_initial]
    omega

/-- When every group of `t` is mandatory a search ends with the greatest record: of all
`t.records subject start`, over all spans from `start` on, there is one that is `Foremost` and beats
each other one. On the first group on which the two differ it starts earlier, or at the same
position and ends later. The search in lockstep finds it whenever there is a derivation at all; the
search by enumeration finds it, or no match, when it comes to its end. -/
theorem search_foremost {pattern : List UInt8} {t : Expr} (ht : Expr.parse pattern = .ok t)
    (hm : t.Mandatory) (o : Options) (haystack : Array UInt8) (flags : SearchFlags) (start : Nat) :
    let subject : Subject := ⟨haystack, o, flags⟩
    (∀ a, Engine.ofExpr o t = .ok (.automaton a) →
        ∃ best, a.search subject start = some best ∧
          (best = none ↔ t.records subject start = ∅) ∧
          ∀ v ∈ best, Slots.Foremost (t.records subject start) v) ∧
      ∀ best, t.search subject start = .ok best →
        (best = none ↔ t.records subject start = ∅) ∧
          ∀ v ∈ best, Slots.Foremost (t.records subject start) v := by
  intro subject
  have hord := orderly_of_parse ht
  -- No group is unset in any record, so two different records never tie.
  have hcomplete (v : Slots) (hv : v ∈ t.records subject start) : v.Complete t.groupCount :=
    complete_of_mem_records hord hm hv
  constructor
  · intro a ha
    obtain ⟨hback, -, rfl⟩ := Automaton.engine_ofExpr_eq_automaton_iff.1 ha
    obtain ⟨best, hsearch, houtcome⟩ := Automaton.search_outcome subject hback hord start
    exact ⟨best, hsearch, houtcome.eq_none_iff, fun v hv => houtcome.foremost hcomplete hv⟩
  · intro best h
    have houtcome := search_outcome hord h
    exact ⟨houtcome.eq_none_iff, fun v hv => houtcome.foremost hcomplete hv⟩

/-- In `aaa` the first group of `(a+)(a+)` takes as many letters as it can leave the second one. -/
theorem search_foremost_share :
    let t : Expr :=
      .concat [.group 1 (.loop (.literal 97) 1 none), .group 2 (.loop (.literal 97) 1 none)]
    let a := Automaton.ofExpr {} t
    let subject : Subject := ⟨#[97, 97, 97], {}, {}⟩
    Expr.parse [40, 97, 43, 41, 40, 97, 43, 41] = .ok t ∧ t.Mandatory ∧
      Engine.ofExpr {} t = .ok (.automaton a) ∧
      a.search subject 0 = some (some [⟨some 0, some 3⟩, ⟨some 0, some 2⟩, ⟨some 2, some 3⟩]) ∧
      Slots.Foremost (t.records subject 0)
        [⟨some 0, some 3⟩, ⟨some 0, some 2⟩, ⟨some 2, some 3⟩] := by
  intro t a subject
  have hparse : Expr.parse [40, 97, 43, 41, 40, 97, 43, 41] = .ok t := by decide +kernel
  have hengine : Engine.ofExpr {} t = .ok (.automaton a) := rfl
  have hsearch : a.search subject 0 =
      some (some [⟨some 0, some 3⟩, ⟨some 0, some 2⟩, ⟨some 2, some 3⟩]) := by decide +kernel
  have hloop : (loop (.literal 97) 1 none).Mandatory :=
    mandatory_loop.2 ⟨fun h => absurd h Nat.one_ne_zero, mandatory_of_isLeaf rfl⟩
  have hm : t.Mandatory := by
    refine mandatory_concat.2 fun u hu => ?_
    simp only [List.mem_cons, List.not_mem_nil, or_false] at hu
    rcases hu with rfl | rfl
    · exact mandatory_group.2 hloop
    · exact mandatory_group.2 hloop
  obtain ⟨best, hbest, -, hforemost⟩ :=
    (search_foremost hparse hm {} #[97, 97, 97] {} 0).1 a hengine
  cases hsearch.symm.trans hbest
  exact ⟨hparse, hm, hengine, hsearch, hforemost _ rfl⟩

end PosixRegex.Expr
