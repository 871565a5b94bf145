import PosixRegex.Proofs.Agreement
import PosixRegex.Regex.Scan

/-!
# Successive matches do not overlap and leave none out

A search for successive matches goes on, after each match, at a position beyond the start of the
search before it. So there are no more matches than positions, and each one starts where the one
before it has ended, or later. Since each search finds the leftmost match, a position where a match
can start is passed over only when it lies inside a match that was found.

- `Scan.next_spec`: all that asking for the next match can do.
- `Scan.Succession`: what a search may yield.
- `Scan.Exhausts.cons`: no position is left out by a match and those after it.
- `Scan.take_spec`: what it yields from a position on, by induction on the number of matches.
- `Regex.scan_spec`: what it yields from the start of a text.
-/

namespace PosixRegex

namespace Scan

variable {s : Scan} {x y : Span} {n : Nat}

/-! ### Where a search goes on -/

/-- A match comes after another one when it starts where the search goes on after that one, or
later: at its end, or beyond it when that one is empty. -/
theorem resume_le_iff : resume x ≤ y.start ↔
    x.stop ≤ y.start ∧ (x.isEmpty = true → x.stop < y.start) := by
  unfold resume
  split
  · rename_i hempty
    exact ⟨fun h => ⟨Nat.le_of_succ_le h, fun _ => h⟩, fun h => h.2 hempty⟩
  · rename_i hempty
    exact ⟨fun h => ⟨h, fun h' => absurd h' hempty⟩, fun h => h.1⟩

/-- A search goes on beyond the start of the match. -/
theorem start_lt_resume (h : x.start ≤ x.stop) : x.start < resume x := by
  unfold resume
  split
  · exact Nat.lt_succ_of_le h
  · rename_i hempty
    refine Nat.lt_of_le_of_ne h fun heq => hempty ?_
    rw [Span.isEmpty, beq_iff_eq]
    exact heq

/-- A position from which a search does not go on, although it lies beyond the start of a match,
lies inside that match. -/
theorem lt_stop_of_lt_resume {p : Nat} (hlo : x.start < p) (hhi : p < resume x) : p < x.stop := by
  unfold resume at hhi
  split at hhi
  · rename_i hempty
    rw [Span.isEmpty, beq_iff_eq] at hempty
    omega
  · exact hhi

/-! ### One match -/

/-- The positions that are left to a search. -/
def remaining (s : Scan) : Nat :=
  match s.cursor with
  | none => 0
  | some start => s.haystack.size + 1 - start

/-- A search that has ended. -/
def ended (s : Scan) : Scan := { s with cursor := none }

/-- A search after a match. -/
def after (s : Scan) (x : Span) : Scan :=
  { s with cursor := if resume x ≤ s.haystack.size then some (resume x) else none }

/-- After a match the search goes on while there are positions left. -/
theorem cursor_after {c : Nat} (hc : c ∈ (s.after x).cursor) :
    c = resume x ∧ resume x ≤ s.haystack.size := by
  rw [after] at hc
  dsimp only at hc
  split at hc
  · rename_i hle
    cases hc
    exact ⟨rfl, hle⟩
  · cases hc

/-- After a match fewer positions are left. -/
theorem remaining_after_lt {c : Nat} (hcursor : s.cursor = some c) (hc : c ≤ s.haystack.size)
    (hlt : c < resume x) : (s.after x).remaining < s.remaining := by
  have hremaining : s.remaining = s.haystack.size + 1 - c := by rw [remaining, hcursor]
  rw [hremaining, remaining]
  split
  · omega
  · rename_i c' hc'
    obtain ⟨rfl, -⟩ := cursor_after hc'
    rw [after]
    dsimp only
    omega

theorem next_of_cursor (h : s.cursor = none) : s.next = (none, s) := by
  rw [next, h]

theorem take_of_cursor (h : s.cursor = none) (n : Nat) : s.take n = ([], s) := by
  cases n with
  | zero => rfl
  | succ n => rw [take, next_of_cursor h]

/-- After its end, and after an error, a search yields nothing more and stays as it is. -/
theorem next_fused {s' : Scan} (h : s.next = (none, s') ∨ ∃ e, s.next = (some (.error e), s')) :
    s'.next = (none, s') := by
  refine next_of_cursor ?_
  unfold next at h
  split at h
  · rename_i hcursor
    rcases h with h | ⟨e, h⟩ <;> cases h
    exact hcursor
  · split at h
    · rcases h with h | ⟨e', h⟩ <;> cases h
      rfl
    · rcases h with h | ⟨e', h⟩ <;> cases h
      rfl
    · rcases h with h | ⟨e', h⟩ <;> cases h

/-- All that asking for the next match can do, when a search is at a position: it ends with an
error, or since no match starts at that position or later; or it yields the match that starts first,
and goes on after it. -/
theorem next_spec {pattern : List UInt8} {o : Options} {t : Expr} {start : Nat}
    (hr : Regex.compile pattern o = .ok s.regex) (ht : Expr.parse pattern = .ok t)
    (hcursor : s.cursor = some start) :
    (∃ e, s.regex.matchFrom s.haystack start {} = .error e ∧
        s.next = (some (.error e), s.ended)) ∨
      (s.next = (none, s.ended) ∧ ∀ p, ¬t.Starts ⟨s.haystack, o, {}⟩ start p) ∨
      ∃ m x, s.next = (some (.ok m), s.after x) ∧ m.whole? = some x ∧ x.start ≤ x.stop ∧
        x.stop ≤ s.haystack.size ∧ IsLeast {p | t.Starts ⟨s.haystack, o, {}⟩ start p} x.start := by
  obtain ⟨u, hu, -, houtcome⟩ := Regex.search_outcome hr
  cases ht.symm.trans hu
  have hord := Expr.orderly_of_parse ht
  rw [next, hcursor]
  dsimp only
  cases hmatch : s.regex.matchFrom s.haystack start {} with
  | error e => exact .inl ⟨e, rfl, rfl⟩
  | ok found =>
    obtain ⟨best, hsearch, rfl⟩ := Regex.exists_search_of_matchFrom hmatch
    have houtcome := houtcome _ _ _ _ hsearch
    cases best with
    | none =>
      -- The search settles that no derivation starts, or else it would have left a record.
      refine .inr (.inl ⟨rfl, fun p ⟨hp, hsize, d, hd⟩ => ?_⟩)
      have hmem := Expr.report_mem_records hp hsize hd
      rw [houtcome.none rfl] at hmem
      exact hmem
    | some v =>
      obtain ⟨p, q, hspan, hpq, hq, hleast⟩ := Expr.exists_span_of_outcome hord houtcome rfl
      have hwhole : Match.whole? ⟨s.haystack, v⟩ = some ⟨s.haystack, p, q⟩ := by
        rw [Match.whole?, Match.group?, hspan]
        rfl
      refine .inr (.inr ⟨⟨s.haystack, v⟩, ⟨s.haystack, p, q⟩, ?_, hwhole, hpq, hq, hleast⟩)
      simp only [Option.map_some, hwhole, Option.bind_some, after]

/-! ### All matches -/

/-- What a search for successive matches may yield: matches, with the given spans, and after them
perhaps an error. The spans lie in a text of the given size, from a given position on, and each one
comes after those before it. -/
structure Succession (start size : Nat) (items : List (Except Error Match)) (spans : List Span)
    (failure : Option Error) : Prop where
  /-- An error can only be the last item, and each of the others has a span. -/
  items_eq : ∃ found : List Match, items = found.map .ok ++ failure.toList.map .error ∧
    found.map Match.whole? = spans.map some
  /-- The spans lie in the text. -/
  within : ∀ x ∈ spans, start ≤ x.start ∧ x.start ≤ x.stop ∧ x.stop ≤ size
  /-- A match starts at the end of those before it or later, and later than an empty one. -/
  ordered : spans.Pairwise fun x y => x.stop ≤ y.start ∧ (x.isEmpty = true → x.stop < y.start)

namespace Succession

variable {start size : Nat} {items : List (Except Error Match)} {spans : List Span}
  {failure : Option Error}

theorem nil (start size : Nat) : Succession start size [] [] none :=
  ⟨⟨[], rfl, rfl⟩, fun _ hx => absurd hx List.not_mem_nil, .nil⟩

theorem error (start size : Nat) (e : Error) : Succession start size [.error e] [] (some e) :=
  ⟨⟨[], rfl, rfl⟩, fun _ hx => absurd hx List.not_mem_nil, .nil⟩

/-- A match before the others. -/
theorem cons (h : Succession (resume x) size items spans failure) {m : Match}
    (hm : m.whole? = some x) (hstart : start ≤ x.start) (hle : x.start ≤ x.stop)
    (hsize : x.stop ≤ size) : Succession start size (.ok m :: items) (x :: spans) failure := by
  obtain ⟨⟨found, rfl, hspans⟩, hwithin, hordered⟩ := h
  refine ⟨⟨m :: found, rfl, ?_⟩, fun y hy => ?_, List.pairwise_cons.2 ⟨fun y hy => ?_, hordered⟩⟩
  · rw [List.map_cons, List.map_cons, hm, hspans]
  · rcases List.mem_cons.1 hy with rfl | hy
    · exact ⟨hstart, hle, hsize⟩
    · have := start_lt_resume hle
      have := hwithin y hy
      exact ⟨by omega, this.2⟩
  · exact resume_le_iff.1 (hwithin y hy).1

end Succession

/-- Each position from a given one on where a match can start is the start of one of several spans,
or lies inside of one. -/
def Exhausts (t : Expr) (subject : Subject) (c : Nat) (spans : List Span) : Prop :=
  ∀ p, t.Starts subject c p → ∃ x ∈ spans, x.start = p ∨ x.start < p ∧ p < x.stop

/-- When the first place where a match can start is that of a match, nothing is left out as long as
nothing is where the search goes on after it. -/
theorem Exhausts.cons {t : Expr} {subject : Subject} {c : Nat} {spans : List Span}
    (hleast : IsLeast {p | t.Starts subject c p} x.start)
    (hrest : resume x ≤ subject.size → Exhausts t subject (resume x) spans) :
    Exhausts t subject c (x :: spans) := by
  intro p hp
  rcases Nat.eq_or_lt_of_le (hleast.2 hp) with heq | hlt
  · exact ⟨x, List.mem_cons_self, .inl heq⟩
  · by_cases hinside : p < resume x
    · exact ⟨x, List.mem_cons_self, .inr ⟨hlt, lt_stop_of_lt_resume hlt hinside⟩⟩
    · obtain ⟨-, hsize, d, hd⟩ := hp
      have hle : resume x ≤ p := Nat.le_of_not_lt hinside
      obtain ⟨y, hy, hcovers⟩ := hrest (Nat.le_trans hle hsize) p ⟨hle, hsize, d, hd⟩
      exact ⟨y, List.mem_cons_of_mem x hy, hcovers⟩

/-- What a search yields that has not come beyond the end of the text: no more items than there are
positions left, and an error only where looking for a match fails. When it has not failed and is at
its end, each position where a match can start is the start of a match that it has found, or lies
inside of one. -/
theorem take_spec {pattern : List UInt8} {o : Options} {t : Expr}
    (hr : Regex.compile pattern o = .ok s.regex) (ht : Expr.parse pattern = .ok t) {start : Nat}
    (hcursor : ∀ c ∈ s.cursor, start ≤ c ∧ c ≤ s.haystack.size) (n : Nat) :
    ∃ spans failure, Succession start s.haystack.size (s.take n).1 spans failure ∧
      (s.take n).1.length ≤ s.remaining ∧
      (∀ e ∈ failure, ∃ c, s.regex.matchFrom s.haystack c {} = .error e) ∧
      (s.remaining ≤ n → (s.take n).2.cursor = none ∧
        (failure = none → ∀ c ∈ s.cursor, Exhausts t ⟨s.haystack, o, {}⟩ c spans)) := by
  induction n generalizing s start with
  | zero =>
    refine ⟨[], none, .nil _ _, Nat.zero_le _, nofun, fun hle => ?_⟩
    -- A search that has not ended has a position left.
    cases hcase : s.cursor with
    | none => exact ⟨hcase, fun _ => nofun⟩
    | some c =>
      have := (hcursor c hcase).2
      rw [remaining, hcase] at hle
      dsimp only at hle
      omega
  | succ n ih =>
    cases hcase : s.cursor with
    | none =>
      rw [take_of_cursor hcase]
      exact ⟨[], none, .nil _ _, Nat.zero_le _, nofun, fun _ => ⟨hcase, fun _ => nofun⟩⟩
    | some c =>
      obtain ⟨hstart, hsize⟩ := hcursor c hcase
      rcases next_spec hr ht hcase with ⟨e, herror, hnext⟩ | ⟨hnext, hnone⟩ |
        ⟨m, x, hnext, hm, hle, hx, hleast⟩
      · -- The search fails.
        rw [take, hnext]
        dsimp only
        rw [take_of_cursor rfl]
        refine ⟨[], some e, .error _ _ e, ?_, fun e' he' => ?_, fun _ => ⟨rfl, nofun⟩⟩
        · rw [remaining, hcase, List.length_singleton]
          dsimp only
          omega
        · cases he'
          exact ⟨c, herror⟩
      · -- There is no further match.
        rw [take, hnext]
        refine ⟨[], none, .nil _ _, Nat.zero_le _, nofun, fun _ => ⟨rfl, fun _ c' hc' p hp => ?_⟩⟩
        cases hc'
        exact absurd hp (hnone p)
      · -- The search goes on after the match, with fewer positions left.
        have hcx : c ≤ x.start := hleast.1.1
        have hless := remaining_after_lt hcase hsize (Nat.lt_of_le_of_lt hcx (start_lt_resume hle))
        have hafter : ∀ c ∈ (s.after x).cursor, resume x ≤ c ∧ c ≤ s.haystack.size := by
          intro c hc
          obtain ⟨rfl, hle⟩ := cursor_after hc
          exact ⟨Nat.le_refl _, hle⟩
        obtain ⟨spans, failure, hspans, hlength, herror, hall⟩ :=
          ih (s := s.after x) hr hafter
        rw [take, hnext]
        refine ⟨x :: spans, failure, hspans.cons hm (Nat.le_trans hstart hcx) hle hx, ?_, herror,
          fun hn => ?_⟩
        · rw [List.length_cons]
          omega
        · obtain ⟨hended, hcomplete⟩ := hall (by omega)
          refine ⟨hended, fun hfailure c' hc' => ?_⟩
          cases hc'
          -- The match starts at the first position where one can.
          exact .cons hleast fun hle' => hcomplete hfailure _ (if_pos hle')

end Scan

namespace Regex

/-- The successive matches in `haystack`, for any compiled pattern `r`. However many are asked for,
those that `(r.scan haystack).take n` gives are a `Succession`, which come in order; there are no
more items than positions, and an error is the last one, if it occurs; it occurs only when a search
fails. Asking for as many as there are positions comes to the end. When no search has failed, the
matches are complete then: each position `p` where `t.Starts` in the whole text is the start of one
of the `spans`, or lies strictly inside one. After the end and after an error `next` gives nothing
more. -/
theorem scan_spec {pattern : List UInt8} {o : Options} {r : Regex}
    (hr : compile pattern o = .ok r) (haystack : Array UInt8) :
    ∃ t, Expr.parse pattern = .ok t ∧
      (∀ n, ∃ spans failure,
        Scan.Succession 0 haystack.size ((r.scan haystack).take n).1 spans failure ∧
          ((r.scan haystack).take n).1.length ≤ haystack.size + 1 ∧
          (∀ e ∈ failure, ∃ start, r.matchFrom haystack start {} = .error e) ∧
          (haystack.size + 1 ≤ n →
            ((r.scan haystack).take n).2.next = (none, ((r.scan haystack).take n).2) ∧
              (failure = none → ∀ p, t.Starts ⟨haystack, o, {}⟩ 0 p →
                ∃ x ∈ spans, x.start = p ∨ x.start < p ∧ p < x.stop))) ∧
      ∀ s s' : Scan, (s.next = (none, s') ∨ ∃ e, s.next = (some (.error e), s')) →
        s'.next = (none, s') := by
  obtain ⟨t, ht, -⟩ := search_outcome hr
  refine ⟨t, ht, fun n => ?_, fun s s' h => Scan.next_fused h⟩
  have hcursor : ∀ c ∈ (r.scan haystack).cursor, 0 ≤ c ∧ c ≤ haystack.size := by
    intro c hc
    cases hc
    exact ⟨Nat.le_refl 0, Nat.zero_le _⟩
  obtain ⟨spans, failure, hspans, hlength, herror, hall⟩ :=
    Scan.take_spec (s := r.scan haystack) hr ht hcursor n
  refine ⟨spans, failure, hspans, hlength, herror, fun hn => ?_⟩
  obtain ⟨hended, hcomplete⟩ := hall hn
  exact ⟨Scan.next_of_cursor hended, fun hfailure p hp => hcomplete hfailure 0 rfl p hp⟩

/-- The matches of `a*` in `baa`: an empty one, one of two letters, and an empty one at the end. -/
theorem scan_spec_star :
    let t : Expr := .loop (.literal 97) 0 none
    let r : Regex := ⟨[97, 42], {}, .automaton (.ofExpr {} t)⟩
    let text : Array UInt8 := #[98, 97, 97]
    compile [97, 42] {} = .ok r ∧
      (r.scan text).toList =
        [.ok ⟨text, [⟨some 0, some 0⟩]⟩, .ok ⟨text, [⟨some 1, some 3⟩]⟩,
          .ok ⟨text, [⟨some 3, some 3⟩]⟩] ∧
      ∃ spans, Scan.Succession 0 3 (r.scan text).toList spans none ∧
        ∀ p, t.Starts ⟨text, {}, {}⟩ 0 p →
          ∃ x ∈ spans, x.start = p ∨ x.start < p ∧ p < x.stop := by
  intro t r text
  have hparse : Expr.parse [97, 42] = .ok t := rfl
  have hcompile : compile [97, 42] {} = .ok r :=
    compile_eq_automaton hparse rfl (by decide)
  have hitems : (r.scan text).toList = [.ok ⟨text, [⟨some 0, some 0⟩]⟩,
      .ok ⟨text, [⟨some 1, some 3⟩]⟩, .ok ⟨text, [⟨some 3, some 3⟩]⟩] := by decide +kernel
  obtain ⟨u, hu, hscan, -⟩ := scan_spec hcompile text
  cases hparse.symm.trans hu
  obtain ⟨spans, failure, hspans, -, -, hall⟩ := hscan 4
  cases failure with
  | none =>
    exact ⟨hcompile, hitems, spans, hspans, fun p hp => (hall (Nat.le_refl 4)).2 rfl p hp⟩
  | some e =>
    -- An error would be the last item.
    obtain ⟨found, heq, -⟩ := hspans.items_eq
    have hlast := congrArg List.getLast? (hitems.symm.trans heq)
    simp at hlast

end Regex

end PosixRegex
