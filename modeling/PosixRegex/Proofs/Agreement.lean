import PosixRegex.Proofs.Enumeration
import PosixRegex.Proofs.Lockstep
import PosixRegex.Regex.Basic

/-!
# Agreement of the searches

A tree without back-references can be searched for in two ways: in lockstep with its automaton, and
by listing its derivations. Both keep the better one of two records by one ranking, but they compare
other pairs in another order. The ranking lets a group that is unset tie with any other, so it need
not single out a record, and then the two searches may keep different ones. On all that it does
single out they agree.

- `Expr.records`: the records of the derivations of a tree.
- `Expr.search_outcome`, `Automaton.search_outcome`: both searches end with a record to which all
  others lead.
- `Regex.search_outcome`: so does the search for a compiled pattern, in either way.
- `Automaton.search_agrees`: how far the two agree.
-/

namespace PosixRegex

variable {subject : Subject} {t : Expr} {start s : Nat} {d : Candidate} {v w : Slots}

namespace Expr

/-- The records of the derivations of a tree over the spans that start at a given position or later.
Each derivation begins with a record where only the start of the whole match is known. -/
def records (t : Expr) (subject : Subject) (start : Nat) : Set Slots :=
  {v | ∃ s e w, start ≤ s ∧ s ≤ e ∧ e ≤ subject.size ∧
    t.Derives subject ⟨s, .initial t.groupCount s⟩ ⟨e, w⟩ ∧ v = w.leave 0 e}

/-- What a search reports of a derivation is one of the records. -/
theorem report_mem_records (hs : start ≤ s) (hsize : s ≤ subject.size)
    (hd : t.Derives subject (t.origin s) d) : report d ∈ t.records subject start := by
  refine ⟨s, d.stop, d.slots, hs, hd.extends.stop_le, ?_, hd, rfl⟩
  rcases hd.extends.within with heq | hle
  · rw [heq]
    exact hsize
  · exact hle

/-- A record has a mark for the whole match and for each group. -/
theorem length_of_mem_records (hv : v ∈ t.records subject start) :
    v.length = t.groupCount + 1 := by
  obtain ⟨s, e, w, -, -, -, hd, rfl⟩ := hv
  rw [Slots.length_leave, ← Slots.length_initial t.groupCount s]
  exact hd.extends.length_eq

/-- The whole match is closed in each record. -/
theorem isClosed_of_mem_records (ht : t.Orderly 0) (hv : v ∈ t.records subject start) :
    (v.mark 0).IsClosed := by
  obtain ⟨s, e, w, -, -, -, hd, rfl⟩ := hv
  have hmark : (w.leave 0 e).mark 0 = ⟨some s, some e⟩ :=
    mark_zero_report (d := ⟨e, w⟩) ht hd
  rw [hmark]
  exact ⟨rfl, rfl⟩

/-- All records lead to the one that the search by enumeration ends with. -/
theorem search_outcome (ht : t.Orderly 0) {best : Option Slots}
    (h : t.search subject start = .ok best) : Slots.Outcome (t.records subject start) best := by
  unfold search at h
  split at h
  · -- Nothing starts beyond the end of the text.
    rename_i hlt
    cases h
    refine ⟨fun _ => Set.eq_empty_of_forall_notMem ?_, nofun, nofun⟩
    rintro v ⟨s, e, w, hs, hse, he, -⟩
    omega
  · rename_i hle
    obtain ⟨pos, hlo, hhi, hmatch, hlast, hbefore⟩ :=
      exists_matchAt_of_searchFrom (Nat.sub_le _ _) h
    rw [Nat.sub_sub_self (Nat.not_lt.1 hle)] at hlo hbefore
    obtain ⟨found, rfl, hfound⟩ := exists_found_of_matchAt ht hmatch
    -- A derivation starts at the position where the search ends, or after it.
    have hstart {s : Nat} {d : Candidate} (hs : start ≤ s) (hd : t.Derives subject (t.origin s) d) :
        pos ≤ s := by
      refine Nat.le_of_not_lt fun hlt => ?_
      exact (matchAt_spec ht (hbefore s hs hlt)).1 rfl d hd
    have hmem (d : Candidate) (hd : d ∈ found) : report d ∈ t.records subject start :=
      report_mem_records hlo hhi ((hfound d).1 hd)
    refine ⟨fun hnone => Set.eq_empty_of_forall_notMem ?_, fun w hw => (bestOf_ascends hmem hw).1,
      fun w hw v hv => ?_⟩
    · rintro v ⟨s, e, w, hs, hse, he, hd, -⟩
      obtain rfl : s = pos :=
        Nat.le_antisymm (hlast hnone ▸ Nat.le_trans hse he) (hstart hs hd)
      have := (hfound ⟨e, w⟩).2 hd
      rw [eq_nil_of_bestOf hnone] at this
      exact List.not_mem_nil this
    · obtain ⟨s, e, u, hs, hse, he, hd, rfl⟩ := hv
      obtain ⟨hwmem, hascends⟩ := bestOf_ascends hmem hw
      rcases Nat.eq_or_lt_of_le (hstart hs hd) with rfl | hlt
      · exact hascends ⟨e, u⟩ ((hfound _).2 hd)
      · -- A later start never wins.
        obtain ⟨x, hx, rfl, -⟩ :=
          bestOf_spec (fun d hd => mark_zero_report ht ((hfound d).1 hd)) hw
        refine .single hwmem ?_
        have hgt : (report x).order (report ⟨e, u⟩) = .gt := by
          refine Slots.order_eq_gt_of_start? (p := pos) (q := s) ?_ ?_ hlt
          · rw [Slots.start?, mark_zero_report ht ((hfound x).1 hx)]
          · rw [Slots.start?, mark_zero_report ht hd]
        intro heq
        cases hgt.symm.trans heq

/-- The record to which all records lead is that of a match which starts at the least position where
one starts. -/
theorem exists_span_of_outcome (ht : t.Orderly 0) {best : Option Slots}
    (h : Slots.Outcome (t.records subject start) best) (hw : w ∈ best) :
    ∃ s e, w.span? 0 = some (s, e) ∧ s ≤ e ∧ e ≤ subject.size ∧
      IsLeast {s | t.Starts subject start s} s := by
  obtain ⟨s, e, u, hs, hse, he, hd, rfl⟩ := h.mem w hw
  have hmark : (u.leave 0 e).mark 0 = ⟨some s, some e⟩ := mark_zero_report (d := ⟨e, u⟩) ht hd
  refine ⟨s, e, by rw [Slots.span?, hmark]; rfl, hse, he,
    ⟨hs, Nat.le_trans hse he, ⟨e, u⟩, hd⟩, fun s' hs' => ?_⟩
  obtain ⟨hs', hsize, d, hd'⟩ := hs'
  have hmem := report_mem_records hs' hsize hd'
  have hclosed (v : Slots) (hv : v ∈ t.records subject start) : (v.mark 0).IsClosed :=
    isClosed_of_mem_records ht hv
  have hzero := (h.ascends _ hw _ hmem).mark_zero hclosed (hclosed _ hmem)
  rw [hmark, mark_zero_report ht hd'] at hzero
  rcases hzero with heq | ⟨i, j, k, l, hbest, hother, hlt⟩
  · cases heq
    exact Nat.le_refl _
  · cases hbest
    cases hother
    omega

/-- The record to which all records lead covers the whole text just when some derivation does: no
match is preferred to one of the whole text. -/
theorem covers_iff_of_outcome (ht : t.Orderly 0) {best : Option Slots}
    (h : Slots.Outcome (t.records subject 0) best) :
    (∃ w ∈ best, w.span? 0 = some (0, subject.size)) ↔
      ∃ v, t.Derives subject (t.origin 0) ⟨subject.size, v⟩ := by
  have hclosed (v : Slots) (hv : v ∈ t.records subject 0) : (v.mark 0).IsClosed :=
    isClosed_of_mem_records ht hv
  constructor
  · rintro ⟨w, hw, hspan⟩
    obtain ⟨s, e, u, -, -, -, hd, rfl⟩ := h.mem w hw
    have hmark : (u.leave 0 e).mark 0 = ⟨some s, some e⟩ := mark_zero_report (d := ⟨e, u⟩) ht hd
    rw [Slots.span?, hmark] at hspan
    obtain ⟨rfl, rfl⟩ : s = 0 ∧ e = subject.size := Prod.mk.inj (Option.some.inj hspan)
    exact ⟨u, hd⟩
  · rintro ⟨v, hv⟩
    have hmem := report_mem_records (Nat.zero_le 0) (Nat.zero_le _) hv
    have hwhole : (report ⟨subject.size, v⟩).mark 0 = ⟨some 0, some subject.size⟩ :=
      mark_zero_report ht hv
    obtain ⟨w, hw⟩ : ∃ w, best = some w := by
      refine Option.ne_none_iff_exists'.1 fun hnone => ?_
      rw [h.none hnone] at hmem
      exact hmem
    refine ⟨w, hw, ?_⟩
    rcases (h.ascends w hw _ hmem).mark_zero hclosed (hclosed _ hmem) with heq | hbefore
    · rw [Slots.span?, heq, hwhole]
      rfl
    · -- Nothing starts before the text or ends behind it.
      obtain ⟨s, e, u, -, -, he, hd, rfl⟩ := h.mem w hw
      have hmark : (u.leave 0 e).mark 0 = ⟨some s, some e⟩ :=
        mark_zero_report (d := ⟨e, u⟩) ht hd
      rw [hmark, hwhole] at hbefore
      obtain ⟨i, j, k, l, hbest, hother, hlt⟩ := hbefore
      cases hbest
      cases hother
      omega

end Expr

namespace Automaton

/-- The matches of the automaton of a tree are those of the tree. -/
theorem reports_ofExpr_iff (hback : t.hasBackref = false) (ht : t.Orderly 0) :
    (ofExpr subject.options t).Reports subject start (subject.size + 1) v ↔
      v ∈ t.records subject start := by
  have hpath (s e : Nat) (w : Slots) :
      (ofExpr subject.options t).Path subject ((ofExpr subject.options t).origin s)
        ⟨(ofExpr subject.options t).accept, ⟨e, w⟩⟩ ↔
          t.Derives subject ⟨s, .initial t.groupCount s⟩ ⟨e, w⟩ :=
    path_ofExpr_iff subject hback ht _ ⟨e, w⟩
  constructor
  · rintro ⟨s, e, w, hs, he, hw, rfl⟩
    exact ⟨s, e, w, hs, hw.start_le, Nat.le_of_lt_succ he, (hpath s e w).1 hw, rfl⟩
  · rintro ⟨s, e, w, hs, -, he, hd, rfl⟩
    exact ⟨s, e, w, hs, Nat.lt_succ_of_le he, (hpath s e w).2 hd, rfl⟩

/-- All records lead to the one that the search in lockstep ends with. -/
theorem search_outcome (subject : Subject) (hback : t.hasBackref = false) (ht : t.Orderly 0)
    (start : Nat) :
    ∃ best, (ofExpr subject.options t).search subject start = some best ∧
      Slots.Outcome (t.records subject start) best := by
  obtain ⟨best, hsearch, hsettles⟩ :=
    search_settles (scoped_ofExpr subject.options ht) subject start
  have hreports {v : Slots} :
      (ofExpr subject.options t).Reports subject start (subject.size + 1) v ↔
        v ∈ t.records subject start := reports_ofExpr_iff hback ht
  refine ⟨best, hsearch, fun hnone => Set.eq_empty_of_forall_notMem fun v hv => ?_,
    fun w hw => hreports.1 (hsettles.some w hw), fun w hw v hv => ?_⟩
  · obtain ⟨s, e, u, hs, he, hpath, -⟩ := hreports.2 hv
    exact absurd (hsettles.none hnone s e hs ⟨u, hpath⟩) (Nat.not_le_of_lt he)
  · obtain ⟨s, e, u, hs, he, hpath, rfl⟩ := hreports.2 hv
    exact (hsettles.ascends w hw hs he hpath).mono fun _ hu => hreports.1 hu

end Automaton

namespace Regex

/-- A pattern is compiled when it can be parsed and its tree is not refused. -/
theorem compile_eq_ok_iff {pattern : List UInt8} {o : Options} {r : Regex} :
    compile pattern o = .ok r ↔ ∃ t engine, Expr.parse pattern = .ok t ∧
      Engine.ofExpr o t = .ok engine ∧ r = ⟨pattern, o, engine⟩ := by
  rw [compile]
  cases Expr.parse pattern with
  | error e => simp [bind, Except.bind]
  | ok t =>
    cases hengine : Engine.ofExpr o t with
    | error e => simp [bind, Except.bind, hengine]
    | ok engine => simp [bind, Except.bind, pure, Except.pure, hengine, eq_comm]

/-- A pattern without back-references is compiled to its automaton when that has few enough
states. -/
theorem compile_eq_automaton {pattern : List UInt8} {t : Expr} (ht : Expr.parse pattern = .ok t)
    (hback : t.hasBackref = false) {o : Options} (hlt : t.stateCount < o.stateLimit) :
    compile pattern o = .ok ⟨pattern, o, .automaton (.ofExpr o t)⟩ :=
  compile_eq_ok_iff.2
    ⟨t, _, ht, Automaton.engine_ofExpr_eq_automaton_iff.2 ⟨hback, hlt, rfl⟩, rfl⟩

/-- What a compiled pattern holds: the options, and the number of groups of the tree that the
pattern parses to. All records of that tree lead to the one that a search ends with. -/
theorem search_outcome {pattern : List UInt8} {o : Options} {r : Regex}
    (hr : compile pattern o = .ok r) :
    ∃ t, Expr.parse pattern = .ok t ∧ r.groupCount = t.groupCount ∧
      ∀ haystack start flags best, r.search haystack start flags = .ok best →
        Slots.Outcome (t.records ⟨haystack, o, flags⟩ start) best := by
  obtain ⟨t, engine, ht, hengine, rfl⟩ := compile_eq_ok_iff.1 hr
  have hord := Expr.orderly_of_parse ht
  -- A tree with back-references is enumerated, another one is run as an automaton.
  cases engine with
  | automaton a =>
    obtain ⟨hback, -, rfl⟩ := Automaton.engine_ofExpr_eq_automaton_iff.1 hengine
    refine ⟨t, ht, rfl, fun haystack start flags best h => ?_⟩
    obtain ⟨best', hsearch, houtcome⟩ :=
      Automaton.search_outcome ⟨haystack, o, flags⟩ hback hord start
    dsimp only [search] at h hsearch
    rw [hsearch] at h
    cases h
    exact houtcome
  | enumeration u =>
    obtain ⟨-, rfl⟩ := Automaton.engine_ofExpr_eq_enumeration_iff.1 hengine
    exact ⟨u, ht, rfl, fun haystack start flags best h => Expr.search_outcome hord h⟩

/-- What a search finds is the record that it ends with. -/
theorem exists_search_of_matchFrom {r : Regex} {haystack : Array UInt8} {start : Nat}
    {flags : SearchFlags} {found : Option Match}
    (h : r.matchFrom haystack start flags = .ok found) :
    ∃ best, r.search haystack start flags = .ok best ∧ found = best.map (Match.mk haystack) := by
  simp only [matchFrom, bind, Except.bind, pure, Except.pure] at h
  split at h
  · cases h
  · rename_i best hbest
    cases h
    exact ⟨best, hbest, rfl⟩

end Regex

namespace Automaton

/-- How far the two ways to search agree. When `t.search` comes to its end, so does `a.search`; both
find a match or none does. The records `v` and `w` that they find have the same whole match, and
both are `records` of derivations. They agree on the first `n` groups whenever some record `Decides`
these, which is to say that it beats by them all records that have other ones. Where the ranking
leaves groups undecided the two may differ, but each of them `Ascends` to the other one by
comparisons that are not lost. -/
theorem search_agrees {pattern : List UInt8} {t : Expr} (ht : Expr.parse pattern = .ok t)
    {o : Options} {a : Automaton} (ha : Engine.ofExpr o t = .ok (.automaton a))
    (haystack : Array UInt8) (flags : SearchFlags) (start : Nat) {best : Option Slots}
    (h : t.search ⟨haystack, o, flags⟩ start = .ok best) :
    let records := t.records ⟨haystack, o, flags⟩ start
    ∃ best', a.search ⟨haystack, o, flags⟩ start = some best' ∧ (best' = none ↔ best = none) ∧
      ∀ v ∈ best, ∀ w ∈ best', w.span? 0 = v.span? 0 ∧ v ∈ records ∧ w ∈ records ∧
        (∀ n, (∃ u, Slots.Decides records n u) → w.take n = v.take n) ∧
        Slots.Ascends (· ∈ records) v w ∧ Slots.Ascends (· ∈ records) w v := by
  intro records
  have hord := Expr.orderly_of_parse ht
  obtain ⟨hback, -, rfl⟩ := engine_ofExpr_eq_automaton_iff.1 ha
  -- Both outcomes are told by the records of the derivations alone.
  have henumerated := Expr.search_outcome hord h
  obtain ⟨best', hsearch, hlockstep⟩ := search_outcome ⟨haystack, o, flags⟩ hback hord start
  refine ⟨best', hsearch, hlockstep.eq_none_iff.trans henumerated.eq_none_iff.symm,
    fun v hv w hw => ?_⟩
  have hvmem := henumerated.mem v hv
  have hwmem := hlockstep.mem w hw
  refine ⟨?_, hvmem, hwmem, fun n ⟨u, hu⟩ => ?_, hlockstep.ascends w hw v hvmem,
    henumerated.ascends v hv w hwmem⟩
  · rw [Slots.span?, Slots.span?, henumerated.mark_zero_eq hlockstep
      (fun u hu => Expr.isClosed_of_mem_records hord hu) hv hw]
  · rw [hlockstep.take_eq hu hw, henumerated.take_eq hu hv]

/-- On `aa` the pattern `a+(a)?` has two records, with and without a span for the group, which tie.
The searches keep different ones of them, and agree on the whole match. -/
theorem search_agrees_tie :
    let t : Expr := .concat [.loop (.literal 97) 1 none, .loop (.group 1 (.literal 97)) 0 (some 1)]
    let a := ofExpr {} t
    let subject : Subject := ⟨#[97, 97], {}, {}⟩
    Expr.parse [97, 43, 40, 97, 41, 63] = .ok t ∧ Engine.ofExpr {} t = .ok (.automaton a) ∧
      t.search subject 0 = .ok (some [⟨some 0, some 2⟩, ⟨some 1, some 2⟩]) ∧
      ∃ w, a.search subject 0 = some (some w) ∧ w.span? 0 = some (0, 2) ∧
        Slots.Ascends (· ∈ t.records subject 0) [⟨some 0, some 2⟩, ⟨some 1, some 2⟩] w := by
  intro t a subject
  have hparse : Expr.parse [97, 43, 40, 97, 41, 63] = .ok t := rfl
  have hengine : Engine.ofExpr {} t = .ok (.automaton a) := rfl
  have hsearch : t.search subject 0 = .ok (some [⟨some 0, some 2⟩, ⟨some 1, some 2⟩]) := by decide +kernel
  obtain ⟨best, hlockstep, hnone, hagree⟩ := search_agrees hparse hengine #[97, 97] {} 0 hsearch
  cases best with
  | none => cases hnone.1 rfl
  | some w =>
    obtain ⟨hspan, -, -, -, hascends, -⟩ := hagree _ rfl w rfl
    exact ⟨hparse, hengine, hsearch, w, hlockstep, hspan, hascends⟩

/-- The searches do not agree on every group: for `a+(a)?` on `aa` the search by enumeration keeps
the record with the span of the group, and the search in lockstep the one without. -/
theorem search_differs :
    let t : Expr := .concat [.loop (.literal 97) 1 none, .loop (.group 1 (.literal 97)) 0 (some 1)]
    let a := ofExpr {} t
    let subject : Subject := ⟨#[97, 97], {}, {}⟩
    Expr.parse [97, 43, 40, 97, 41, 63] = .ok t ∧ Engine.ofExpr {} t = .ok (.automaton a) ∧
      t.search subject 0 = .ok (some [⟨some 0, some 2⟩, ⟨some 1, some 2⟩]) ∧
      a.search subject 0 = some (some [⟨some 0, some 2⟩, ⟨none, none⟩]) ∧
      a.search subject 0 ≠ some (some [⟨some 0, some 2⟩, ⟨some 1, some 2⟩]) := by
  intro t a subject
  have hlockstep : a.search subject 0 = some (some [⟨some 0, some 2⟩, ⟨none, none⟩]) := by
    decide +kernel
  refine ⟨rfl, rfl, by decide +kernel, hlockstep, ?_⟩
  rw [hlockstep]
  decide

end Automaton

end PosixRegex
