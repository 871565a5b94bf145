import PosixRegex.Grep.Run
import PosixRegex.Proofs.Printing
import PosixRegex.Proofs.Succession

/-!
# Which lines are selected

Which lines of a text are selected depends on the pattern, on whether a match has to cover the whole
line, and on nothing else: the first match in a line tells, and it is the same whether all matches
are looked for or only the first one, and whatever is printed. Under inversion the other lines are
selected. So the two selections share no line, and put together in the order of the lines they are
all of them.

Where a match has to cover the whole line, only the first match is looked at, and no search for
another one is made. That is enough, because no match is preferred to one of the whole line.

- `finds`: whether the first match in a line counts.
- `Settings.isEmpty_spans`: the three ways to search a line agree on that.
- `selection`: the lines that are selected, and `select_eq`: a search selects them.
- `Settings.exists_spans_wholeLine`: a line that some derivation covers has a match that counts.
- `merge_selection`: both selections together are all lines.
- `searchText_selection`: what is selected, and what is printed and reported of it.
-/

namespace PosixRegex

/-! ### The first of the successive matches -/

namespace Scan

variable {r : Regex} {text : Array UInt8} {found : List Match}

/-- The search for successive matches begins with the first match; it ends there when that has no
span. -/
theorem next_scan (r : Regex) (text : Array UInt8) :
    (r.scan text).next =
      match r.firstMatch text with
      | .error e => (some (.error e), (r.scan text).ended)
      | .ok none => (none, (r.scan text).ended)
      | .ok (some first) => (some (.ok first), { r.scan text with
          cursor := first.whole?.bind fun span =>
            if resume span ≤ text.size then some (resume span) else none }) := rfl

/-- When no search fails the first of the successive matches is the first match, and it has no
successor unless it has a span. -/
theorem head?_of_toExcept (h : (r.scan text).toExcept = .ok found) :
    r.firstMatch text = .ok found.head? ∧
      ∀ first ∈ found.head?, first.whole? = none → found = [first] := by
  rw [toExcept, toList, bound, take, next_scan] at h
  cases hfirst : r.firstMatch text with
  | error e =>
    rw [hfirst] at h
    cases h
  | ok first =>
    rw [hfirst] at h
    cases first with
    | none =>
      cases h
      refine ⟨rfl, fun x hx => ?_⟩
      cases hx
    | some first =>
      simp only [List.mapM_cons, id_eq, bind, Except.bind, pure, Except.pure] at h
      split at h
      · cases h
      · rename_i others hrest
        cases h
        refine ⟨rfl, fun x hx hnone => ?_⟩
        cases hx
        -- Without a span there is no position to go on from.
        rw [hnone, Option.bind_none, take_of_cursor rfl] at hrest
        cases hrest
        rfl

end Scan

namespace Grep

variable {s : Settings} {r : Regex} {line text : List UInt8} {name : Option String}

/-! ### Lines -/

/-- The lines of a text, each with its number, counted from 1. -/
def numberedLines (text : List UInt8) : List (Nat × List UInt8) :=
  ((lines text).zipIdx 1).map Prod.swap

/-- Whether the pattern matches in a line; where a match has to cover the line, whether the first
match does. -/
def finds (wholeLine : Bool) (r : Regex) (line : List UInt8) : Bool :=
  match r.firstSpan line.toArray with
  | .ok first => first.any fun span => !wholeLine || span.bounds == (0, line.length)
  | .error _ => false

theorem finds_eq {first : Option Span} (h : r.firstSpan line.toArray = .ok first)
    (wholeLine : Bool) : finds wholeLine r line =
      first.any fun span => !wholeLine || span.bounds == (0, line.length) := by
  rw [finds, h]

/-- Whichever way a line is searched, there is a match that counts just when the first one does. -/
theorem Settings.isEmpty_spans {spans : List (Nat × Nat)} (h : s.spans r line = .ok spans) :
    spans.isEmpty = !finds s.wholeLine r line := by
  simp only [Settings.spans, bind, Except.bind, pure, Except.pure] at h
  split at h
  · -- Only the first match is looked for, and it has to cover the line.
    rename_i hwhole
    split at h
    · cases h
    · rename_i first hfirst
      cases h
      rw [finds_eq hfirst, hwhole]
      cases first with
      | none => rfl
      | some span =>
        simp only [Option.toList_some, List.map_cons, List.map_nil, List.filter_cons,
          List.filter_nil, List.size_toArray, Option.any_some, Bool.not_true, Bool.false_or]
        cases span.bounds == (0, line.length) <;> rfl
  · rename_i hwhole
    split at h
    · -- All matches are looked for.
      split at h
      · cases h
      · rename_i found hfound
        cases h
        obtain ⟨hfirst, hlast⟩ := Scan.head?_of_toExcept hfound
        have hspan : r.firstSpan line.toArray = .ok (found.head?.bind Match.whole?) := by
          rw [Regex.firstSpan, hfirst]
          rfl
        rw [finds_eq hspan]
        cases found with
        | nil => rfl
        | cons first others =>
          cases hshape : first.whole? with
          | none =>
            cases hlast first rfl hshape
            simp [hshape]
          | some span => simp [hshape, hwhole]
    · split at h
      · cases h
      · rename_i first hfirst
        cases h
        rw [finds_eq hfirst]
        cases first <;> simp [hwhole]

/-- The first match covers a line just when some derivation does. -/
theorem finds_wholeLine_iff {pattern : List UInt8} {t : Expr} {o : Options}
    (ht : Expr.parse pattern = .ok t) (hr : Regex.compile pattern o = .ok r) {first : Option Span}
    (hfirst : r.firstSpan line.toArray = .ok first) :
    finds true r line = true ↔
      ∃ v, t.Derives ⟨line.toArray, o, {}⟩ (t.origin 0) ⟨line.length, v⟩ := by
  obtain ⟨found, hmatch, rfl⟩ : ∃ found, r.matchFrom line.toArray 0 {} = .ok found ∧
      first = found.bind Match.whole? := by
    simp only [Regex.firstSpan, Regex.firstMatch, bind, Except.bind, pure, Except.pure] at hfirst
    split at hfirst
    · cases hfirst
    · rename_i found hmatch
      cases hfirst
      exact ⟨found, hmatch, rfl⟩
  -- From the front the longest match is found, so it covers the line if any match does.
  obtain ⟨t', ht', -, houtcome⟩ := Regex.search_outcome hr
  cases ht.symm.trans ht'
  obtain ⟨best, hsearch, rfl⟩ := Regex.exists_search_of_matchFrom hmatch
  refine Iff.trans ?_
    (Expr.covers_iff_of_outcome (Expr.orderly_of_parse ht) (houtcome _ _ _ _ hsearch))
  rw [finds_eq hfirst]
  cases best with
  | none => simp
  | some w =>
    simp only [Option.map_some, Option.bind_some, Match.whole?, Match.group?]
    cases hspan : w.span? 0 with
    | none => simp [hspan]
    | some span => simp [hspan, Span.bounds, Prod.ext_iff, Subject.size]

/-- Where a match has to cover the whole `line`, as `s.wholeLine` asks for, there are `spans` in it
just when some derivation of the tree `t` covers the line, whatever else the pattern matches in
it. -/
theorem Settings.exists_spans_wholeLine {pattern : List UInt8} {t : Expr} {o : Options}
    (ht : Expr.parse pattern = .ok t) (hr : Regex.compile pattern o = .ok r)
    (hwhole : s.wholeLine = true) {first : Option Span}
    (hfirst : r.firstSpan line.toArray = .ok first) :
    ∃ spans, s.spans r line = .ok spans ∧
      (spans ≠ [] ↔ ∃ v, t.Derives ⟨line.toArray, o, {}⟩ (t.origin 0) ⟨line.length, v⟩) := by
  obtain ⟨spans, hspans⟩ : ∃ spans, s.spans r line = .ok spans := by
    simp only [Settings.spans, hwhole, if_true, hfirst, bind, Except.bind, pure, Except.pure]
    exact ⟨_, rfl⟩
  refine ⟨spans, hspans, ?_⟩
  have hempty := Settings.isEmpty_spans hspans
  rw [hwhole] at hempty
  rw [← finds_wholeLine_iff ht hr hfirst, ← List.isEmpty_eq_false_iff, hempty,
    Bool.not_eq_false_eq_eq_true]

/-- The line `abc` is covered by the second branch of `ab|abc`, although the first one matches in it
as well. -/
theorem Settings.exists_spans_wholeLine_branches :
    let t : Expr := .alternation [.concat [.literal 97, .literal 98],
      .concat [.literal 97, .literal 98, .literal 99]]
    let r : Regex := ⟨[97, 98, 124, 97, 98, 99], {}, .automaton (.ofExpr {} t)⟩
    let s : Settings := { wholeLine := true }
    Expr.parse [97, 98, 124, 97, 98, 99] = .ok t ∧
      Regex.compile [97, 98, 124, 97, 98, 99] {} = .ok r ∧
      r.firstSpan #[97, 98, 99] = .ok (some ⟨#[97, 98, 99], 0, 3⟩) ∧
      s.spans r [97, 98, 99] = .ok [(0, 3)] ∧
      ∃ v, t.Derives ⟨#[97, 98, 99], {}, {}⟩ (t.origin 0) ⟨3, v⟩ := by
  intro t r s
  have hparse : Expr.parse [97, 98, 124, 97, 98, 99] = .ok t := rfl
  have hcompile : Regex.compile [97, 98, 124, 97, 98, 99] {} = .ok r :=
    Regex.compile_eq_automaton hparse rfl (by decide)
  have hfirst : r.firstSpan #[97, 98, 99] = .ok (some ⟨#[97, 98, 99], 0, 3⟩) := by decide +kernel
  have hspans : s.spans r [97, 98, 99] = .ok [(0, 3)] := by decide +kernel
  obtain ⟨spans, hspans', hcovers⟩ :=
    exists_spans_wholeLine (s := s) hparse hcompile rfl hfirst
  cases hspans.symm.trans hspans'
  exact ⟨hparse, hcompile, hfirst, hspans, hcovers.1 (List.cons_ne_nil _ _)⟩

/-- The lines in which the pattern matches, or under inversion the other ones. -/
def selection (wholeLine invert : Bool) (r : Regex) (text : List UInt8) :
    List (Nat × List UInt8) :=
  (numberedLines text).filter fun p => finds wholeLine r p.2 != invert

/-- When no search fails every line is examined. -/
theorem examine_eq {number : Nat} {ls : List (List UInt8)}
    (h : (examine s r number ls).2 = none) :
    (examine s r number ls).1.map (fun e => (e.number, e.line)) =
        (ls.zipIdx number).map Prod.swap ∧
      ∀ e ∈ (examine s r number ls).1, s.spans r e.line = .ok e.spans := by
  induction ls generalizing number with
  | nil => exact ⟨rfl, nofun⟩
  | cons line ls ih =>
    rw [examine] at h ⊢
    split at h
    · cases h
    · rename_i spans hspans
      obtain ⟨hlines, hothers⟩ := ih h
      refine ⟨?_, fun e he => ?_⟩
      · simpa [List.zipIdx_cons] using hlines
      · rcases List.mem_cons.1 he with rfl | he
        · exact hspans
        · exact hothers e he

/-- When no search fails the lines of the selection are selected. -/
theorem select_eq (h : (select s r text).2 = none) :
    (select s r text).1.map (fun e => (e.number, e.line)) =
      selection s.wholeLine s.invert r text := by
  have hexamine : (examine s r 1 (lines text)).2 = none := h
  obtain ⟨hlines, hspans⟩ := examine_eq hexamine
  rw [selection, numberedLines, ← hlines, List.filter_map]
  refine congrArg _ (List.filter_congr fun e he => ?_)
  show (e.spans.isEmpty == s.invert) = (finds s.wholeLine r e.line != s.invert)
  rw [Settings.isEmpty_spans (hspans e he)]
  cases finds s.wholeLine r e.line <;> cases s.invert <;> rfl

/-! ### Both selections -/

/-- The numbers of the lines grow. -/
theorem pairwise_numberedLines (text : List UInt8) :
    (numberedLines text).Pairwise fun p q => p.1 < q.1 := by
  rw [numberedLines, List.pairwise_map]
  generalize 1 = number
  induction lines text generalizing number with
  | nil => exact List.Pairwise.nil
  | cons line ls ih =>
    rw [List.zipIdx_cons, List.pairwise_cons]
    refine ⟨fun p hp => ?_, ih (number + 1)⟩
    exact List.le_snd_of_mem_zipIdx hp

/-- What a filter keeps and what it leaves out, put together in their order. -/
theorem merge_filter_not {ps : List (Nat × List UInt8)} (h : ps.Pairwise fun p q => p.1 < q.1)
    (f : Nat × List UInt8 → Bool) :
    (ps.filter f).merge (ps.filter fun p => !f p) (fun p q => p.1 ≤ q.1) = ps := by
  -- The first pair goes to one side, and comes before all that is on the other one.
  induction ps with
  | nil => simp
  | cons p ps ih =>
    obtain ⟨hp, hps⟩ := List.pairwise_cons.1 h
    have ih := ih hps
    cases hf : f p with
    | true =>
      rw [List.filter_cons_of_pos hf, List.filter_cons_of_neg (by simp [hf])]
      cases hout : ps.filter fun p => !f p with
      | nil =>
        rw [hout] at ih
        simpa using ih
      | cons q out =>
        have hq : q ∈ ps := List.mem_of_mem_filter (hout ▸ List.mem_cons_self)
        rw [List.cons_merge_cons_pos _ _ _ (by simpa using Nat.le_of_lt (hp q hq)), ← hout, ih]
    | false =>
      rw [List.filter_cons_of_neg (by simp [hf]), List.filter_cons_of_pos (by simp [hf])]
      cases hin : ps.filter f with
      | nil =>
        rw [hin] at ih
        simpa using ih
      | cons q inside =>
        have hq : q ∈ ps := List.mem_of_mem_filter (hin ▸ List.mem_cons_self)
        rw [List.cons_merge_cons_neg _ _ _ (by simpa using hp q hq), ← hin, ih]

/-- The two selections together are all lines. -/
theorem merge_selection (wholeLine : Bool) (r : Regex) (text : List UInt8) :
    (selection wholeLine false r text).merge (selection wholeLine true r text)
      (fun p q => p.1 ≤ q.1) = numberedLines text := by
  simpa [selection] using
    merge_filter_not (pairwise_numberedLines text) fun p => finds wholeLine r p.2

/-- The two selections have no line in common. -/
theorem disjoint_selection (wholeLine : Bool) (r : Regex) (text : List UInt8) :
    (selection wholeLine false r text).Disjoint (selection wholeLine true r text) := by
  intro p hp hp'
  simp only [selection, List.mem_filter, Bool.bne_false, Bool.bne_true] at hp hp'
  rw [hp.2] at hp'
  exact Bool.false_ne_true hp'.2

/-- Which lines are selected, and what is printed and reported of them. A search that does not fail
selects the lines of `selection` for `wholeLine` and `s.invert`, whatever else the settings `s` ask
for; without and with `invert` these are two sequences of `numberedLines text` that have no line in
common and merge by number into all of them. The selected lines are printed in full unless matches
or the count are asked for, each behind the `heading` for the `name` and, if lines are `numbered`,
the `decimal` digits of its number. With `countOnly` the output is one line with the `decimal`
digits of the number of selected lines. The verdict, hence the exit status, is whether there are
any, also when nothing is printed of them. -/
theorem searchText_selection (r : Regex) (wholeLine : Bool) (text : List UInt8) :
    let chosen (invert : Bool) := selection wholeLine invert r text
    (chosen false).Sublist (numberedLines text) ∧ (chosen true).Sublist (numberedLines text) ∧
      (chosen false).Disjoint (chosen true) ∧
      (chosen false).merge (chosen true) (fun p q => p.1 ≤ q.1) = numberedLines text ∧
      ∀ (s : Settings) (name : Option String), s.wholeLine = wholeLine →
        (searchText s r name text).failure = none →
          (select s r text).1.map (fun e => (e.number, e.line)) = chosen s.invert ∧
          (s.countOnly = true → (searchText s r name text).output =
            heading name ++ (decimal (chosen s.invert).length ++ [lineFeed])) ∧
          (s.countOnly = false → s.matchesOnly = false → (searchText s r name text).output =
            (chosen s.invert).flatMap fun p =>
              heading name ++ ((if s.numbered then decimal p.1 ++ [':'.toUInt8] else []) ++
                (p.2 ++ [lineFeed]))) ∧
          (searchText s r name text).toResult.verdict = .ok (!(chosen s.invert).isEmpty) ∧
          (searchText s r name text).toResult.status =
            if (chosen s.invert).isEmpty then 1 else 0 := by
  intro chosen
  refine ⟨List.filter_sublist, List.filter_sublist, disjoint_selection wholeLine r text,
    merge_selection wholeLine r text, fun s name hwhole hfailure => ?_⟩
  subst hwhole
  have hselect : (select s r text).1.map (fun e => (e.number, e.line)) = chosen s.invert :=
    select_eq hfailure
  have hverdict : (searchText s r name text).toResult.verdict =
      .ok (!(chosen s.invert).isEmpty) := by
    rw [Outcome.toResult, hfailure, ← hselect, List.isEmpty_map]
    rfl
  have hreport : (searchText s r name text).output =
      (select s r text).1.flatMap (lineReport s name) ++
        if s.countOnly then countReport name (chosen s.invert).length else [] := by
    have hnone : (select s r text).2 = none := hfailure
    rw [← hselect, List.length_map]
    simp only [searchText, hnone, Option.isNone_none, Bool.and_true]
  refine ⟨hselect, fun hcount => ?_, fun hcount hmatches => ?_, hverdict, ?_⟩
  · -- With the count nothing is printed of the lines themselves.
    rw [hreport, if_pos hcount, countReport_eq]
    simp [lineReport, hcount]
  · have hline : lineReport s name = fun e => heading name ++
        ((if s.numbered then decimal e.number ++ [':'.toUInt8] else []) ++
          (e.line ++ [lineFeed])) := by
      ext1 e
      rw [lineReport, linePrefix_eq, List.append_assoc]
      simp [hcount, hmatches, terminated]
    rw [hreport, ← hselect, List.flatMap_map, hcount, if_neg Bool.false_ne_true, List.append_nil,
      hline]
  · rw [Result.status, hverdict]
    cases (chosen s.invert).isEmpty <;> rfl

/-- In the line `b` the pattern `a*` has only empty matches: the line is selected, although nothing
is printed when only matches are. Of the lines `a`, `b` and `a` the pattern `a` selects 2, and
leaves 1 out. -/
theorem searchText_selection_empty :
    let loop : Regex := ⟨[97, 42], {}, .automaton (.ofExpr {} (.loop (.literal 97) 0 none))⟩
    let letter : Regex := ⟨[97], {}, .automaton (.ofExpr {} (.literal 97))⟩
    let alone : Settings := { matchesOnly := true }
    let count : Settings := { countOnly := true }
    let rest : Settings := { countOnly := true, invert := true }
    let text : List UInt8 := [97, 10, 98, 10, 97, 10]
    (searchText alone loop none [98, 10]).failure = none ∧
      (searchText alone loop none [98, 10]).output = [] ∧
      (searchText alone loop none [98, 10]).toResult.status = 0 ∧
      (searchText count letter none text).failure = none ∧
      (searchText count letter none text).output = ['2'.toUInt8, 10] ∧
      (searchText rest letter none text).failure = none ∧
      (searchText rest letter none text).output = ['1'.toUInt8, 10] := by
  intro loop letter alone count rest text
  have hloop : (searchText alone loop none [98, 10]).failure = none := by decide +kernel
  have hnothing : (searchText alone loop none [98, 10]).output = [] := by decide +kernel
  have hchosen : (selection false false loop [98, 10]).isEmpty = false := by decide +kernel
  have hcount : (searchText count letter none text).failure = none := by decide +kernel
  have htwo : (selection false false letter text).length = 2 := by decide +kernel
  have hrest : (searchText rest letter none text).failure = none := by decide +kernel
  have hone : (selection false true letter text).length = 1 := by decide +kernel
  -- What is printed follows from how many lines there are to count.
  obtain ⟨-, -, -, -, hselection⟩ := searchText_selection loop false [98, 10]
  obtain ⟨-, -, -, -, hstatus⟩ := hselection alone none rfl hloop
  obtain ⟨-, -, -, -, hselection'⟩ := searchText_selection letter false text
  have houtput := (hselection' count none rfl hcount).2.1 rfl
  have houtput' := (hselection' rest none rfl hrest).2.1 rfl
  rw [show (selection false count.invert letter text).length = 2 from htwo,
    decimal_of_lt (by decide)] at houtput
  rw [show (selection false rest.invert letter text).length = 1 from hone,
    decimal_of_lt (by decide)] at houtput'
  refine ⟨hloop, hnothing, ?_, hcount, houtput, hrest, houtput'⟩
  rw [hstatus, show (selection false alone.invert loop [98, 10]).isEmpty = false from hchosen]
  rfl

end Grep

end PosixRegex
