import PosixRegex.Proofs.Agreement

/-!
# The layout of the groups

The spans in a record lie in the text as the groups lie in the tree: a group inside another one lies
inside its span, groups in different parts of a sequence follow each other, and of the branches of a
choice only one has groups that took part. This holds of the last pass of each loop, since a group
that is entered again forgets what the groups inside it have recorded before.

- `Expr.Placed`: the groups of a tree have their spans between two positions.
- `Expr.Derives.placed`: a derivation places the groups of its tree.
- `Expr.Placed.bounded`, `Expr.Placed.nested`: where the groups of a tree lie that is placed.
- `Expr.Lawful`, `Regex.matchFrom_lawful`: the laws that the record of a match obeys.
-/

namespace PosixRegex

namespace Slots

/-- A group took no part, or its span lies between two positions. -/
def Bounded (v : Slots) (g lo hi : Nat) : Prop :=
  v.mark g = .unset ∨ ∃ p q, v.mark g = ⟨some p, some q⟩ ∧ lo ≤ p ∧ p ≤ q ∧ q ≤ hi

variable {v : Slots} {g lo hi p q : Nat}

theorem Bounded.of_span? (h : v.Bounded g lo hi) (hspan : v.span? g = some (p, q)) :
    lo ≤ p ∧ p ≤ q ∧ q ≤ hi := by
  rcases h with hunset | ⟨p', q', hmark, hbounds⟩
  · rw [span?, hunset] at hspan
    cases hspan
  · rw [span?, hmark] at hspan
    cases hspan
    exact hbounds

end Slots

namespace Expr

/-- No group of a tree took part. -/
def Absent (v : Slots) (t : Expr) : Prop :=
  ∀ index body, (group index body).IsPart t → v.mark index = .unset

mutual

/-- The groups of a tree have their spans between two positions, laid out as they are in the tree.
Where a group took no part, neither did those inside it. -/
def Placed (v : Slots) : Expr → (lo hi : Nat) → Prop
  | concat items, lo, hi => PlacedAll v items lo hi
  | alternation branches, lo, hi => PlacedOne v branches lo hi
  | loop body _ _, lo, hi => body.Placed v lo hi
  | group index body, lo, hi =>
    (group index body).Absent v ∨
      ∃ p q, v.mark index = ⟨some p, some q⟩ ∧ lo ≤ p ∧ p ≤ q ∧ q ≤ hi ∧ body.Placed v p q
  | _, _, _ => True
termination_by structural t => t

/-- The groups of several trees have their spans between two positions, one tree after the other. -/
def PlacedAll (v : Slots) : List Expr → (lo hi : Nat) → Prop
  | [], _, _ => True
  | t :: ts, lo, hi => ∃ mid, lo ≤ mid ∧ mid ≤ hi ∧ t.Placed v lo mid ∧ PlacedAll v ts mid hi
termination_by structural ts => ts

/-- The groups of one of several trees have their spans between two positions, and the others took
no part. -/
def PlacedOne (v : Slots) : List Expr → (lo hi : Nat) → Prop
  | [], _, _ => True
  | t :: ts, lo, hi =>
    (t.Placed v lo hi ∧ ∀ u ∈ ts, u.Absent v) ∨ (t.Absent v ∧ PlacedOne v ts lo hi)
termination_by structural ts => ts

end

variable {subject : Subject} {t u body : Expr} {ts : List Expr} {c d : Candidate} {v : Slots}
  {before index lo hi p q : Nat}

/-! ### Groups that took no part -/

/-- The groups of an orderly tree are those of its range. -/
theorem absent_of_marks (ht : t.Orderly before)
    (h : ∀ g, before < g → g ≤ before + t.groupCount → v.mark g = .unset) : t.Absent v := by
  intro index body hpart
  obtain ⟨hlo, hhi⟩ := (ht.exists_group_iff index).1 ⟨body, hpart⟩
  exact h index hlo hhi

theorem absentAll_of_marks (hts : OrderlyAll ts before)
    (h : ∀ g, before < g → g ≤ before + groupCountAll ts → v.mark g = .unset) :
    ∀ t ∈ ts, t.Absent v := by
  intro t hmem
  obtain ⟨n, hlo, hhi, ht⟩ := hts.of_mem hmem
  exact absent_of_marks ht fun g hg hg' => h g (by omega) (by omega)

mutual

/-- Where no group took part there is nothing to place. -/
theorem Absent.placed {t : Expr} {lo hi : Nat} (h : t.Absent v) (hle : lo ≤ hi) :
    t.Placed v lo hi := by
  cases t with
  | concat items =>
    exact placedAll_of_absent (fun t hmem index body hpart => h index body (.item hmem hpart)) hle
  | alternation branches =>
    exact placedOne_of_absent (fun t hmem index body hpart => h index body (.branch hmem hpart)) hle
  | loop body min max =>
    exact Absent.placed (t := body) (fun index inner hpart => h index inner (.body hpart)) hle
  | group index body => exact .inl h
  | empty | literal | any | set | named | anchor | backref => trivial
termination_by structural t

theorem placedAll_of_absent {ts : List Expr} {lo hi : Nat} (h : ∀ t ∈ ts, t.Absent v)
    (hle : lo ≤ hi) : PlacedAll v ts lo hi := by
  cases ts with
  | nil => trivial
  | cons t ts =>
    exact ⟨lo, Nat.le_refl lo, hle, Absent.placed (h t List.mem_cons_self) (Nat.le_refl lo),
      placedAll_of_absent (fun u hu => h u (List.mem_cons_of_mem t hu)) hle⟩
termination_by structural ts

theorem placedOne_of_absent {ts : List Expr} {lo hi : Nat} (h : ∀ t ∈ ts, t.Absent v)
    (hle : lo ≤ hi) : PlacedOne v ts lo hi := by
  cases ts with
  | nil => trivial
  | cons t ts =>
    exact .inl ⟨Absent.placed (h t List.mem_cons_self) hle,
      fun u hu => h u (List.mem_cons_of_mem t hu)⟩
termination_by structural ts

end

/-! ### Derivations place their groups -/

mutual

/-- A derivation places the groups of its tree between its ends. Unless the tree is an atom, which
forgets what was recorded of it before, none of its groups may have taken part yet. Later parts of a
larger derivation may change the marks of other groups. -/
theorem Derives.placed {t : Expr} {c d : Candidate} {before lo hi : Nat}
    (h : t.Derives subject c d) (ht : t.Orderly before)
    (hlen : before + t.groupCount < c.slots.length)
    (hnew : t.isAtom = true ∨
      ∀ g, before < g → g ≤ before + t.groupCount → c.slots.mark g = .unset)
    (hsame : ∀ g, before < g → g ≤ before + t.groupCount → v.mark g = d.slots.mark g)
    (hlo : lo ≤ c.stop) (hhi : d.stop ≤ hi) : t.Placed v lo hi := by
  cases t with
  | concat items => exact DerivesAll.placed h ht hlen (hnew.resolve_left nofun) hsame hlo hhi
  | alternation branches =>
    exact DerivesAny.placed h ht hlen (hnew.resolve_left nofun) hsame hlo hhi
  | loop body min max =>
    obtain ⟨n, -, -, h⟩ := h
    cases n with
    | zero =>
      -- Nothing was entered, now or before.
      obtain rfl : c = d := h
      refine Absent.placed (absent_of_marks ht fun g hg hg' => ?_) (Nat.le_trans hlo hhi)
      rw [hsame g hg hg', hnew.resolve_left nofun g hg hg']
    | succ n =>
      -- Only the last pass counts.
      obtain ⟨e, hce, hed⟩ := Iterates.succ_iff.1 h
      have hext : c.Extends subject e :=
        hce.preserves (fun a b ha hab => ha.trans (Derives.extends hab)) (.refl subject c)
      refine Derives.placed (t := body) hed ht.2.2 ?_ (.inl ht.1) hsame
        (Nat.le_trans hlo hext.stop_le) hhi
      rwa [hext.length_eq]
  | group index body =>
    obtain ⟨e, he, rfl⟩ := h
    obtain ⟨rfl, hbody⟩ := ht
    have hext := he.extends
    rw [groupCount] at hlen
    simp only [groupCount] at hsame
    have hindex : before + 1 < c.slots.length := by omega
    have hindex' : before + 1 < e.slots.length := by
      rwa [hext.length_eq, Slots.length_enter]
    refine .inr ⟨c.stop, e.stop, ?_, hlo, hext.stop_le, hhi, ?_⟩
    · -- The group was opened on the way in, and the body leaves it alone.
      rw [hsame _ (Nat.lt_succ_self before) (by omega), Slots.mark_leave_self hindex',
        he.mark_eq hbody (.inl (Nat.le_refl _)),
        Slots.mark_enter_self (Nat.le_add_right _ _) hindex]
      rfl
    · refine Derives.placed he hbody ?_ (.inr fun g hg hg' => ?_) (fun g hg hg' => ?_)
        (Nat.le_refl _) (Nat.le_refl _)
      · rw [Slots.length_enter]
        omega
      · exact Slots.mark_enter_inner hg hg'
      · rw [hsame g (by omega) (by omega), Slots.mark_leave_of_ne (Nat.ne_of_gt hg)]
  | empty | literal | any | set | named | anchor | backref => trivial
termination_by structural t

theorem DerivesAll.placed {ts : List Expr} {c d : Candidate} {before lo hi : Nat}
    (h : DerivesAll subject ts c d) (hts : OrderlyAll ts before)
    (hlen : before + groupCountAll ts < c.slots.length)
    (hnew : ∀ g, before < g → g ≤ before + groupCountAll ts → c.slots.mark g = .unset)
    (hsame : ∀ g, before < g → g ≤ before + groupCountAll ts → v.mark g = d.slots.mark g)
    (hlo : lo ≤ c.stop) (hhi : d.stop ≤ hi) : PlacedAll v ts lo hi := by
  cases ts with
  | nil => trivial
  | cons t ts =>
    obtain ⟨e, he, hd⟩ := h
    rw [groupCountAll] at hlen
    simp only [groupCountAll] at hnew hsame
    have hce := he.extends
    have hed := DerivesAll.extends hd
    -- The trees meet where the first one ends.
    refine ⟨e.stop, Nat.le_trans hlo hce.stop_le, Nat.le_trans hed.stop_le hhi, ?_, ?_⟩
    · refine Derives.placed he hts.1 (by omega) (.inr fun g hg hg' => hnew g hg (by omega))
        (fun g hg hg' => ?_) hlo (Nat.le_refl _)
      rw [hsame g hg (by omega), DerivesAll.mark_eq hd hts.2 (.inl hg')]
    · refine DerivesAll.placed hd hts.2 ?_ (fun g hg hg' => ?_)
        (fun g hg hg' => hsame g (by omega) (by omega)) (Nat.le_refl _) hhi
      · rw [hce.length_eq]
        omega
      · rw [he.mark_eq hts.1 (.inr hg), hnew g (by omega) (by omega)]
termination_by structural ts

theorem DerivesAny.placed {ts : List Expr} {c d : Candidate} {before lo hi : Nat}
    (h : DerivesAny subject ts c d) (hts : OrderlyAll ts before)
    (hlen : before + groupCountAll ts < c.slots.length)
    (hnew : ∀ g, before < g → g ≤ before + groupCountAll ts → c.slots.mark g = .unset)
    (hsame : ∀ g, before < g → g ≤ before + groupCountAll ts → v.mark g = d.slots.mark g)
    (hlo : lo ≤ c.stop) (hhi : d.stop ≤ hi) : PlacedOne v ts lo hi := by
  cases ts with
  | nil => trivial
  | cons t ts =>
    rw [groupCountAll] at hlen
    simp only [groupCountAll] at hnew hsame
    -- The branches that are not taken are left as they were.
    rcases h with h | h
    · refine .inl ⟨Derives.placed h hts.1 (by omega) (.inr fun g hg hg' => hnew g hg (by omega))
        (fun g hg hg' => hsame g hg (by omega)) hlo hhi, ?_⟩
      refine absentAll_of_marks hts.2 fun g hg hg' => ?_
      rw [hsame g (by omega) (by omega), h.mark_eq hts.1 (.inr hg), hnew g (by omega) (by omega)]
    · refine .inr ⟨absent_of_marks hts.1 fun g hg hg' => ?_, DerivesAny.placed h hts.2 (by omega)
        (fun g hg hg' => hnew g (by omega) (by omega))
        (fun g hg hg' => hsame g (by omega) (by omega)) hlo hhi⟩
      rw [hsame g hg (by omega), DerivesAny.mark_eq h hts.2 (.inl hg'), hnew g hg (by omega)]
termination_by structural ts

end

/-! ### What is placed -/

/-- Each of several trees that are placed one after the other is placed. -/
theorem PlacedAll.of_mem (h : PlacedAll v ts lo hi) (hle : lo ≤ hi) (hmem : t ∈ ts) :
    ∃ p q, lo ≤ p ∧ p ≤ q ∧ q ≤ hi ∧ t.Placed v p q := by
  induction ts generalizing lo with
  | nil => exact absurd hmem List.not_mem_nil
  | cons u ts ih =>
    obtain ⟨mid, hlo, hhi, hu, hrest⟩ := h
    rcases List.mem_cons.1 hmem with rfl | hmem
    · exact ⟨lo, mid, Nat.le_refl lo, hlo, hhi, hu⟩
    · obtain ⟨p, q, hp, hpq, hq, ht⟩ := ih hrest hhi hmem
      exact ⟨p, q, Nat.le_trans hlo hp, hpq, hq, ht⟩

/-- Each of several trees of which one is placed is placed. -/
theorem PlacedOne.of_mem (h : PlacedOne v ts lo hi) (hle : lo ≤ hi) (hmem : t ∈ ts) :
    t.Placed v lo hi := by
  induction ts with
  | nil => exact absurd hmem List.not_mem_nil
  | cons u ts ih =>
    rcases h with ⟨hu, hothers⟩ | ⟨hu, hrest⟩
    · rcases List.mem_cons.1 hmem with rfl | hmem
      · exact hu
      · exact (hothers t hmem).placed hle
    · rcases List.mem_cons.1 hmem with rfl | hmem
      · exact hu.placed hle
      · exact ih hrest hmem

/-- The parts of a tree that is placed are placed. -/
theorem Placed.of_isPart (h : u.IsPart t) (ht : t.Placed v lo hi) (hle : lo ≤ hi) :
    ∃ p q, lo ≤ p ∧ p ≤ q ∧ q ≤ hi ∧ u.Placed v p q := by
  induction h generalizing lo hi with
  | refl => exact ⟨lo, hi, Nat.le_refl lo, hle, Nat.le_refl hi, ht⟩
  | item hmem _ ih =>
    obtain ⟨p, q, hp, hpq, hq, hitem⟩ := PlacedAll.of_mem ht hle hmem
    obtain ⟨p', q', hp', hpq', hq', hu⟩ := ih hitem hpq
    exact ⟨p', q', Nat.le_trans hp hp', hpq', Nat.le_trans hq' hq, hu⟩
  | branch hmem _ ih => exact ih (PlacedOne.of_mem ht hle hmem) hle
  | body _ ih => exact ih ht hle
  | inside _ ih =>
    rcases ht with habsent | ⟨p, q, -, hp, hpq, hq, hbody⟩
    · have hinner : Absent _ _ := fun index inner hpart => habsent index inner (.inside hpart)
      exact ih (hinner.placed hle) hle
    · obtain ⟨p', q', hp', hpq', hq', hu⟩ := ih hbody hpq
      exact ⟨p', q', Nat.le_trans hp hp', hpq', Nat.le_trans hq' hq, hu⟩

/-- The groups of a tree that is placed lie between the two positions. -/
theorem Placed.bounded (ht : t.Placed v lo hi) (hle : lo ≤ hi)
    (hpart : (group index body).IsPart t) : v.Bounded index lo hi := by
  obtain ⟨lo', hi', hlo, -, hhi, hgroup⟩ := Placed.of_isPart hpart ht hle
  rcases hgroup with habsent | ⟨p, q, hmark, hp, hpq, hq, -⟩
  · exact .inl (habsent index body (.refl _))
  · exact .inr ⟨p, q, hmark, Nat.le_trans hlo hp, hpq, Nat.le_trans hq hhi⟩

/-- A group inside another one takes part only when that one does, and within its span. -/
theorem Placed.nested {inner : Expr} {index' : Nat} (ht : t.Placed v lo hi) (hle : lo ≤ hi)
    (hpart : (group index body).IsPart t) (hinner : (group index' inner).IsPart body)
    (hspan : v.span? index' = some (p, q)) :
    ∃ p' q', v.span? index = some (p', q') ∧ p' ≤ p ∧ q ≤ q' := by
  obtain ⟨lo', hi', -, -, -, hgroup⟩ := Placed.of_isPart hpart ht hle
  rcases hgroup with habsent | ⟨p', q', hmark, -, hpq, -, hbody⟩
  · rw [Slots.span?, habsent index' inner (.inside hinner)] at hspan
    cases hspan
  · obtain ⟨hp, -, hq⟩ := (hbody.bounded hpq hinner).of_span? hspan
    refine ⟨p', q', ?_, hp, hq⟩
    rw [Slots.span?, hmark]
    rfl

/-- Groups in trees that are placed one after the other follow each other. -/
theorem PlacedAll.pairwise (h : PlacedAll v ts lo hi) :
    ts.Pairwise fun x y => ∀ g b h b', (group g b).IsPart x → (group h b').IsPart y →
      ∀ p q p' q', v.span? g = some (p, q) → v.span? h = some (p', q') → q ≤ p' := by
  induction ts generalizing lo with
  | nil => exact .nil
  | cons t ts ih =>
    obtain ⟨mid, hlo, hhi, ht, hrest⟩ := h
    refine List.pairwise_cons.2 ⟨fun y hy g b h b' hg hh p q p' q' hgspan hhspan => ?_, ih hrest⟩
    obtain ⟨lo', hi', hlo', hle, -, hy⟩ := hrest.of_mem hhi hy
    have hstop := ((ht.bounded hlo hg).of_span? hgspan).2.2
    have hstart := ((hy.bounded hle hh).of_span? hhspan).1
    exact Nat.le_trans hstop (Nat.le_trans hlo' hstart)

/-- Of two trees of which one is placed one took no part. -/
theorem PlacedOne.pairwise (h : PlacedOne v ts lo hi) :
    ts.Pairwise fun x y => x.Absent v ∨ y.Absent v := by
  induction ts with
  | nil => exact .nil
  | cons t ts ih =>
    rw [List.pairwise_cons]
    rcases h with ⟨-, hothers⟩ | ⟨ht, hrest⟩
    · refine ⟨fun u hu => .inr (hothers u hu), ?_⟩
      exact List.pairwise_of_forall_mem_list fun x hx y _ => .inl (hothers x hx)
    · exact ⟨fun u _ => .inl ht, ih hrest⟩

/-! ### The laws of records -/

/-- The laws that the record of a match obeys. The match begins at a given position or later, and
ends at another one or before. -/
structure Lawful (t : Expr) (start size : Nat) (v : Slots) : Prop where
  /-- There is a mark for each group and for the whole match. -/
  length_eq : v.length = t.groupCount + 1
  /-- The whole match is set, and the spans of all groups lie in it. -/
  whole : ∃ s e, v.mark 0 = ⟨some s, some e⟩ ∧ start ≤ s ∧ s ≤ e ∧ e ≤ size ∧
    ∀ g p q, v.span? g = some (p, q) → s ≤ p ∧ q ≤ e
  /-- Each group has a start and an end in this order, or neither of them. -/
  closed : ∀ g, v.mark g = .unset ∨ ∃ p q, v.mark g = ⟨some p, some q⟩ ∧ p ≤ q
  /-- A group inside another one takes part only when that one does, and within its span. -/
  nested : ∀ g body, (group g body).IsPart t → ∀ h inner, (group h inner).IsPart body →
    ∀ p q, v.span? h = some (p, q) → ∃ p' q', v.span? g = some (p', q') ∧ p' ≤ p ∧ q ≤ q'
  /-- Groups in different parts of a sequence follow each other. -/
  sequence : ∀ items, (concat items).IsPart t →
    items.Pairwise fun x y => ∀ g b h b', (group g b).IsPart x → (group h b').IsPart y →
      ∀ p q p' q', v.span? g = some (p, q) → v.span? h = some (p', q') → q ≤ p'
  /-- Of any two branches of a choice one has no group that took part. -/
  choice : ∀ branches, (alternation branches).IsPart t →
    branches.Pairwise fun x y => x.Absent v ∨ y.Absent v

/-- All records of a tree are lawful. -/
theorem lawful_of_mem_records {start : Nat} (ht : t.Orderly 0)
    (hv : v ∈ t.records subject start) : t.Lawful start subject.size v := by
  have hlen := length_of_mem_records hv
  obtain ⟨s, e, w, hs, hse, he, hd, rfl⟩ := hv
  have hzero : (w.leave 0 e).mark 0 = ⟨some s, some e⟩ := mark_zero_report (d := ⟨e, w⟩) ht hd
  -- Before the derivation no group has taken part, and closing the match changes none.
  have hplaced : t.Placed (w.leave 0 e) s e := by
    refine hd.placed ht ?_ (.inr fun g hg _ => ?_) (fun g hg _ => ?_) (Nat.le_refl s)
      (Nat.le_refl e)
    · rw [Slots.length_initial, Nat.zero_add]
      exact Nat.lt_succ_self _
    · exact Slots.mark_initial_of_pos _ _ hg
    · exact Slots.mark_leave_of_ne (Nat.ne_of_gt hg)
  have hbounded (g : Nat) : (w.leave 0 e).Bounded g s e := by
    rcases Nat.eq_zero_or_pos g with rfl | hpos
    · exact .inr ⟨s, e, hzero, Nat.le_refl s, hse, Nat.le_refl e⟩
    · by_cases hle : g ≤ t.groupCount
      · obtain ⟨body, hpart⟩ := ht.exists_group hpos (by rwa [Nat.zero_add])
        exact hplaced.bounded hse hpart
      · exact .inl (Slots.mark_of_length_le (by omega))
  refine ⟨hlen, ⟨s, e, hzero, hs, hse, he, fun g p q hspan => ?_⟩, fun g => ?_,
    fun g body hg h inner hh p q hspan => hplaced.nested hse hg hh hspan, fun items hpart => ?_,
    fun branches hpart => ?_⟩
  · obtain ⟨hp, -, hq⟩ := (hbounded g).of_span? hspan
    exact ⟨hp, hq⟩
  · exact (hbounded g).imp_right fun ⟨p, q, hmark, _, hpq, _⟩ => ⟨p, q, hmark, hpq⟩
  · obtain ⟨lo, hi, -, -, -, hitems⟩ := Placed.of_isPart hpart hplaced hse
    exact PlacedAll.pairwise hitems
  · obtain ⟨lo, hi, -, -, -, hbranches⟩ := Placed.of_isPart hpart hplaced hse
    exact PlacedOne.pairwise hbranches

end Expr

namespace Regex

/-- The record of a match is lawful. Whatever `pattern` is compiled, and by whichever of the two
ways it is searched for: a match `m` that is found has a mark in `m.slots` for each group of the
pattern, and its spans are `Lawful`, laid out in `haystack` as the groups are in the tree `t` that
the pattern parses to. -/
theorem matchFrom_lawful {pattern : List UInt8} {o : Options} {r : Regex}
    (hr : compile pattern o = .ok r) {haystack : Array UInt8} {start : Nat} {flags : SearchFlags}
    {m : Match} (h : r.matchFrom haystack start flags = .ok (some m)) :
    m.haystack = haystack ∧ m.slots.length = r.groupCount + 1 ∧
      ∃ t, Expr.parse pattern = .ok t ∧ t.Lawful start haystack.size m.slots := by
  obtain ⟨t, ht, hcount, houtcome⟩ := search_outcome hr
  obtain ⟨best, hsearch, hfound⟩ := exists_search_of_matchFrom h
  cases best with
  | none => cases hfound
  | some v =>
    cases hfound
    have hlawful := Expr.lawful_of_mem_records (Expr.orderly_of_parse ht)
      ((houtcome haystack start flags _ hsearch).mem v rfl)
    exact ⟨rfl, by rw [hcount]; exact hlawful.length_eq, t, ht, hlawful⟩

/-- After `ab` the groups of `((a)|(b))*` are as they were in the last pass: the group around the
choice lies in the match, and the branch of the pass before took no part. -/
theorem matchFrom_lawful_choice :
    let t : Expr :=
      .loop (.group 1 (.alternation [.group 2 (.literal 97), .group 3 (.literal 98)])) 0 none
    let r : Regex := ⟨[40, 40, 97, 41, 124, 40, 98, 41, 41, 42], {}, .automaton (.ofExpr {} t)⟩
    let m : Match := ⟨#[97, 98], [⟨some 0, some 2⟩, ⟨some 1, some 2⟩, ⟨none, none⟩,
      ⟨some 1, some 2⟩]⟩
    compile [40, 40, 97, 41, 124, 40, 98, 41, 41, 42] {} = .ok r ∧
      r.matchFrom #[97, 98] 0 {} = .ok (some m) ∧
      Expr.parse [40, 40, 97, 41, 124, 40, 98, 41, 41, 42] = .ok t ∧ t.Lawful 0 2 m.slots := by
  intro t r m
  have hparse : Expr.parse [40, 40, 97, 41, 124, 40, 98, 41, 41, 42] = .ok t := by decide +kernel
  have hcompile : compile [40, 40, 97, 41, 124, 40, 98, 41, 41, 42] {} = .ok r :=
    compile_eq_automaton hparse rfl (by decide)
  have hsearch : (Automaton.ofExpr {} t).search ⟨#[97, 98], {}, {}⟩ 0 = some (some m.slots) := by
    decide +kernel
  have hmatch : r.matchFrom #[97, 98] 0 {} = .ok (some m) := by
    simp only [matchFrom, search, r, hsearch]
    rfl
  obtain ⟨-, -, u, hu, hlawful⟩ := matchFrom_lawful hcompile hmatch
  cases hparse.symm.trans hu
  exact ⟨hcompile, hmatch, hparse, hlawful⟩

end Regex

end PosixRegex
