import PosixRegex.Proofs.CaseFolding

/-!
# Line by line

Under the newline option a tree that names no line feed cannot see beyond the line that it looks at:
its leaves do not read line feeds, the anchors hold at the ends of the line, and no span of the line
can occur again across its end. So each line is a window of the text, and the first match in the
text is the first match of the first line that has one.

- `Expr.NamesNoLineFeed`: no literal, bracket expression or class of a tree asks for a line feed.
- `Subject.isWindow_line`: a line is a window of the text.
- `Regex.matchInLines`: searching the lines one after the other.
- `Regex.matchFrom_lines`: the search in the text does so.
-/

namespace PosixRegex

namespace Expr

/-- No literal, and no bracket expression or class that is not negated, stands for a line feed. -/
structure NamesNoLineFeed (t : Expr) : Prop where
  /-- No literal is a line feed. -/
  literal : ∀ b, (Expr.literal b).IsPart t → b ≠ '\n'.toUInt8
  /-- No bracket expression lists a line feed. -/
  set : ∀ s, (Expr.set s false).IsPart t → s.contains '\n'.toUInt8 = false
  /-- No class has a line feed. -/
  named : ∀ cls, (Expr.named cls false).IsPart t → cls.contains '\n'.toUInt8 = false

variable {o : Options} {t : Expr} {s : ByteSet}

/-- Case folding adds no line feed. -/
theorem contains_fold_lineFeed (o : Options) (h : s.contains '\n'.toUInt8 = false) :
    (o.fold s).contains '\n'.toUInt8 = false := by
  have hself : Byte.swapCase '\n'.toUInt8 = '\n'.toUInt8 := (Byte.swapCase_eq_lineFeed_iff _).2 rfl
  unfold Options.fold
  split
  · rw [ByteSet.contains_foldCase, hself, h]
    rfl
  · exact h

/-- No leaf of a tree that names no line feed reads one when line feeds separate lines. -/
theorem NamesNoLineFeed.contains_lineFeed (h : t.NamesNoLineFeed) (hnewline : o.newline = true)
    (hs : t.Reads o s) : s.contains '\n'.toUInt8 = false := by
  have hwithin (s : ByteSet) : (o.withinLine s).contains '\n'.toUInt8 = false := by
    rw [Options.withinLine, if_pos hnewline, ByteSet.contains_erase, bne_self_eq_false,
      Bool.and_false]
  have hbracket {s : ByteSet} {negated : Bool}
      (h : negated = false → s.contains '\n'.toUInt8 = false) :
      (o.bracketSet s negated).contains '\n'.toUInt8 = false := by
    cases negated with
    | false => exact contains_fold_lineFeed o (h rfl)
    | true => exact hwithin _
  -- Only the leaves that are not negated depend on what the pattern names.
  obtain ⟨u, hu, hset⟩ := hs
  cases u with
  | literal b =>
    cases hset
    refine contains_fold_lineFeed o ?_
    rw [ByteSet.contains_single]
    exact beq_eq_false_iff_ne.2 (h.literal b hu)
  | any =>
    cases hset
    exact hwithin _
  | set bytes negated =>
    cases hset
    refine hbracket fun hnegated => ?_
    subst hnegated
    exact h.set bytes hu
  | named cls negated =>
    cases hset
    refine hbracket fun hnegated => ?_
    subst hnegated
    rw [CharClass.contains_toSet]
    exact h.named cls hu
  | empty | concat | alternation | loop | group | anchor | backref => cases hset

end Expr

namespace Subject

variable {o : Options} {t : Expr} {before content after : List UInt8}

/-- A byte that is no line feed does not count as one. -/
theorem sameByte_lineFeed (subject : Subject) {b : UInt8} (h : b ≠ '\n'.toUInt8) :
    subject.sameByte b '\n'.toUInt8 = false := by
  unfold sameByte
  split
  · -- No other byte has the line feed for its small letter.
    refine beq_eq_false_iff_ne.2 fun hlower => h ?_
    rw [← UInt8.toNat_inj, Byte.toNat_toLower, Byte.toNat_toLower,
      show '\n'.toUInt8.toNat = 10 from rfl] at hlower
    rw [← UInt8.toNat_inj, show '\n'.toUInt8.toNat = 10 from rfl]
    split_ifs at hlower <;> omega
  · exact beq_eq_false_iff_ne.2 h

theorem byteAt?_behind (o : Options) (flags : SearchFlags) (before rest : List UInt8) (pos : Nat) :
    (⟨(before ++ rest).toArray, o, flags⟩ : Subject).byteAt? (pos + before.length) =
      rest[pos]? := by
  rw [byteAt?, List.getElem?_toArray, List.getElem?_append_right (Nat.le_add_left _ _),
    Nat.add_sub_cancel]

section Line

variable (hnewline : o.newline = true) (hcontent : '\n'.toUInt8 ∉ content)

include hcontent

/-- There is no line feed in a line. -/
theorem ne_lineFeed_of_byteAt? {pos : Nat} {b : UInt8}
    (hb : (⟨content.toArray, o, {}⟩ : Subject).byteAt? pos = some b) : b ≠ '\n'.toUInt8 := by
  rw [byteAt?, List.getElem?_toArray] at hb
  exact ne_of_mem_of_not_mem (List.mem_of_getElem? hb) hcontent

theorem isLineFeed_line (pos : Nat) :
    (⟨content.toArray, o, {}⟩ : Subject).isLineFeed pos = false := by
  rw [isLineFeed_eq_any]
  cases hb : (⟨content.toArray, o, {}⟩ : Subject).byteAt? pos with
  | none => rfl
  | some b => exact beq_eq_false_iff_ne.2 (ne_lineFeed_of_byteAt? hcontent hb)

/-- Nor is there one in the text where the line stands. -/
theorem isLineFeed_inside {pos : Nat} (hpos : pos < content.length) (before after : List UInt8) :
    (⟨(before ++ (content ++ after)).toArray, o, {}⟩ : Subject).isLineFeed (pos + before.length) =
      false := by
  have hline := isLineFeed_line (o := o) hcontent pos
  rw [isLineFeed, byteAt?, List.getElem?_toArray] at hline
  rw [isLineFeed, byteAt?_behind, List.getElem?_append_left hpos]
  exact hline

include hnewline

/-- A line starts in the text where it starts alone. -/
theorem holds_lineStart_line (hbefore : before = [] ∨ before.getLast? = some '\n'.toUInt8)
    {pos : Nat} (hpos : pos ≤ content.length) (after : List UInt8) :
    (⟨(before ++ (content ++ after)).toArray, o, {}⟩ : Subject).holds (pos + before.length)
        .lineStart =
      (⟨content.toArray, o, {}⟩ : Subject).holds pos .lineStart := by
  cases pos with
  | zero =>
    rcases hbefore with rfl | hlast
    · rfl
    · -- The byte before the line is the last one in front.
      have hpositive : 0 < before.length := by
        refine List.length_pos_iff.2 ?_
        rintro rfl
        cases hlast
      have hfeed : (⟨(before ++ (content ++ after)).toArray, o, {}⟩ : Subject).isLineFeed
          (0 + before.length - 1) = true := by
        rw [isLineFeed, byteAt?, List.getElem?_toArray, Nat.zero_add,
          List.getElem?_append_left (by omega), ← List.getLast?_eq_getElem?, hlast]
        rfl
      rw [holds, hfeed]
      simp [holds, hnewline, hpositive]
  | succ pos =>
    have hpred : pos + 1 + before.length - 1 = pos + before.length := by omega
    rw [holds, holds, hpred, Nat.add_sub_cancel, isLineFeed_line hcontent,
      isLineFeed_inside hcontent hpos]
    simp

/-- A line ends in the text where it ends alone. -/
theorem holds_lineEnd_line (hafter : after = [] ∨ after.head? = some '\n'.toUInt8) {pos : Nat}
    (hpos : pos ≤ content.length) (before : List UInt8) :
    (⟨(before ++ (content ++ after)).toArray, o, {}⟩ : Subject).holds (pos + before.length)
        .lineEnd =
      (⟨content.toArray, o, {}⟩ : Subject).holds pos .lineEnd := by
  rw [holds, holds, isLineFeed_line hcontent]
  rcases Nat.lt_or_eq_of_le hpos with hlt | rfl
  · rw [isLineFeed_inside hcontent hlt]
    have hne : pos + before.length ≠ before.length + (content.length + after.length) := by omega
    simp [size, hne, Nat.ne_of_lt hlt]
  · rcases hafter with rfl | hhead
    · simp [size, Nat.add_comm]
    · have hfeed : (⟨(before ++ (content ++ after)).toArray, o, {}⟩ : Subject).isLineFeed
          (content.length + before.length) = true := by
        rw [isLineFeed, byteAt?_behind, List.getElem?_append_right (Nat.le_refl _), Nat.sub_self,
          ← List.head?_eq_getElem?, hhead]
        rfl
      rw [hfeed]
      simp [size, hnewline]

/-- A line is a window of the text for a tree that names no line feed, when line feeds separate
lines. -/
theorem isWindow_line (ht : t.NamesNoLineFeed)
    (hbefore : before = [] ∨ before.getLast? = some '\n'.toUInt8)
    (hafter : after = [] ∨ after.head? = some '\n'.toUInt8) :
    (⟨content.toArray, o, {}⟩ : Subject).IsWindow ⟨(before ++ (content ++ after)).toArray, o, {}⟩
      before.length t := by
  -- In the line the bytes are the same, and behind it comes a line feed or nothing.
  have hinside {pos : Nat} (hpos : pos < content.length) :
      (⟨(before ++ (content ++ after)).toArray, o, {}⟩ : Subject).byteAt? (pos + before.length) =
        (⟨content.toArray, o, {}⟩ : Subject).byteAt? pos := by
    rw [byteAt?_behind, byteAt?, List.getElem?_toArray, List.getElem?_append_left hpos]
  have hend : (⟨(before ++ (content ++ after)).toArray, o, {}⟩ : Subject).byteAt?
      (content.length + before.length) = after.head? := by
    rw [byteAt?_behind, List.getElem?_append_right (Nat.le_refl _), Nat.sub_self,
      List.head?_eq_getElem?]
  have hnone : (⟨content.toArray, o, {}⟩ : Subject).byteAt? content.length = none :=
    Array.getElem?_eq_none (Nat.le_refl _)
  refine ⟨rfl, by simp [size, Nat.add_comm], fun kind pos hpos => ?_, fun s hs pos hpos => ?_,
    fun p hp q hq => ?_⟩
  · cases kind with
    | lineStart => exact holds_lineStart_line hnewline hcontent hbefore hpos after
    | lineEnd => exact holds_lineEnd_line hnewline hcontent hafter hpos before
  · rcases Nat.lt_or_eq_of_le hpos with hlt | rfl
    · rw [hinside hlt]
    · show Option.any s.contains (byteAt? _ (content.length + before.length)) =
        Option.any s.contains (byteAt? _ content.length)
      rw [hnone, hend]
      rcases hafter with rfl | hhead
      · rfl
      · rw [hhead]
        exact ht.contains_lineFeed hnewline hs
  · rw [sameAt_eq_any, sameAt_eq_any, hinside hp]
    rcases Nat.lt_or_eq_of_le hq with hlt | rfl
    · rw [hinside hlt]
      rfl
    · show (byteAt? _ p).any (fun a => (byteAt? _ (content.length + before.length)).any _) =
        (byteAt? _ p).any fun a => (byteAt? _ content.length).any _
      rw [hend, hnone]
      rcases hafter with rfl | hhead
      · rfl
      · -- A byte of the line is no line feed.
        rw [hhead]
        cases hb : (⟨content.toArray, o, {}⟩ : Subject).byteAt? p with
        | none => rfl
        | some b => exact sameByte_lineFeed _ (ne_lineFeed_of_byteAt? hcontent hb)

end Line

end Subject

namespace Regex

variable {pattern : List UInt8} {o : Options} {r : Regex} {t : Expr}

/-- The first match of the first of several lines that has one, as a match in a text where the lines
follow each other from a position on, with a line feed between two of them. -/
def matchInLines (r : Regex) (haystack : Array UInt8) (offset : Nat) :
    List (List UInt8) → Except Error (Option Match)
  | [] => return none
  | line :: lines => do
    match ← r.matchFrom line.toArray 0 {} with
    | some m => return some (m.movedInto haystack offset)
    | none => matchInLines r haystack (offset + (line.length + 1)) lines

/-- Where each of several lines stands: behind those before it and the line feeds that end them. -/
def lineOffset (lines : List (List UInt8)) (i : Nat) : Nat :=
  ((lines.take i).map (·.length + 1)).sum

/-- What is found in lines is what is found in the first of them where the search does not come back
empty. -/
theorem matchInLines_eq (r : Regex) (haystack : Array UInt8) (lines : List (List UInt8))
    (offset : Nat) {i : Nat} {line : List UInt8} (hline : lines[i]? = some line)
    (hbefore : ∀ j < i, ∀ l ∈ lines[j]?, r.matchFrom l.toArray 0 {} = .ok none)
    (hfound : r.matchFrom line.toArray 0 {} ≠ .ok none) :
    r.matchInLines haystack offset lines =
      Option.map (·.movedInto haystack (offset + lineOffset lines i)) <$>
        r.matchFrom line.toArray 0 {} := by
  -- The lines in front of the one that decides are passed over, and the offset grows by each.
  induction lines generalizing i offset with
  | nil => cases hline
  | cons first lines ih =>
    cases i with
    | zero =>
      cases hline
      rw [matchInLines]
      cases hmatch : r.matchFrom line.toArray 0 {} with
      | error e => rfl
      | ok found =>
        cases found with
        | none => exact absurd hmatch hfound
        | some m => rfl
    | succ i =>
      have hfirst := hbefore 0 (Nat.succ_pos i) first rfl
      have hoffset : offset + (first.length + 1) + lineOffset lines i =
          offset + lineOffset (first :: lines) (i + 1) := by
        simp only [lineOffset, List.take_succ_cons, List.map_cons, List.sum_cons]
        omega
      rw [matchInLines, hfirst, ← hoffset]
      exact ih _ hline fun j hj => hbefore (j + 1) (Nat.succ_lt_succ hj)

/-- Nothing is found in lines in none of which anything is found. -/
theorem matchInLines_eq_none (r : Regex) (haystack : Array UInt8) {lines : List (List UInt8)}
    (h : ∀ line ∈ lines, r.matchFrom line.toArray 0 {} = .ok none) (offset : Nat) :
    r.matchInLines haystack offset lines = .ok none := by
  induction lines generalizing offset with
  | nil => rfl
  | cons line lines ih =>
    rw [matchInLines, h line List.mem_cons_self]
    exact ih (fun l hl => h l (List.mem_cons_of_mem line hl)) _

/-- A search from the start of a line goes from one line to the next. -/
theorem matchFrom_eq_matchInLines (hr : compile pattern o = .ok r)
    (ht : Expr.parse pattern = .ok t) (hnewline : o.newline = true) (hnames : t.NamesNoLineFeed)
    (haystack : Array UInt8) {before rest : List UInt8} (hsplit : haystack.toList = before ++ rest)
    (hbefore : before = [] ∨ before.getLast? = some '\n'.toUInt8) :
    r.matchFrom haystack before.length {} =
      r.matchInLines haystack before.length (rest.splitOn '\n'.toUInt8) := by
  -- The induction is on the bytes that are left; each line is a window.
  induction hlength : rest.length using Nat.strong_induction_on generalizing before rest with
  | _ n ih =>
    have hwindow {content after : List UInt8} (hcontent : '\n'.toUInt8 ∉ content)
        (hrest : rest = content ++ after) (hafter : after = [] ∨ after.head? = some '\n'.toUInt8) :
        r.matchFrom haystack before.length {} = (do
          match ← r.matchFrom content.toArray 0 {} with
          | some m => return some (m.movedInto haystack before.length)
          | none => r.matchFrom haystack (content.length + before.length + 1) {}) := by
      have hhaystack : haystack = (before ++ (content ++ after)).toArray := by
        rw [← hrest, ← hsplit]
      have := Subject.isWindow_line (o := o) hnewline hcontent hnames hbefore hafter
      rw [← hhaystack] at this
      have hmatch := matchFrom_window hr ht this (Nat.zero_le _)
      rwa [Nat.zero_add] at hmatch
    by_cases hfeed : '\n'.toUInt8 ∈ rest
    -- The line ends at the first line feed, and the next one starts behind it.
    · obtain ⟨content, after, hrest, hcontent⟩ := List.eq_append_cons_of_mem hfeed
      have hnext : haystack.toList = (before ++ (content ++ ['\n'.toUInt8])) ++ after := by
        rw [hsplit, hrest]
        simp
      have hlast : (before ++ (content ++ ['\n'.toUInt8])).length =
          before.length + (content.length + 1) := by
        simp
      have hrec :=
        ih after.length (by rw [← hlength, hrest]; simp; omega) hnext (.inr (by simp)) rfl
      rw [hwindow hcontent hrest (.inr rfl), hrest,
        List.splitOn_append_cons_self_of_not_mem hcontent, matchInLines, ← hlast, ← hrec, hlast,
        show content.length + before.length + 1 = before.length + (content.length + 1) by omega]
    · -- The last line reaches to the end of the text.
      rw [hwindow hfeed (List.append_nil rest).symm (.inl rfl), List.splitOn_eq_singleton hfeed,
        matchInLines, matchInLines]
      have hsize : haystack.size < rest.length + before.length + 1 := by
        rw [← Array.length_toList, hsplit, List.length_append]
        omega
      have hend : r.matchFrom haystack (rest.length + before.length + 1) {} = .ok none := by
        rw [matchFrom, search_of_size_lt r hsize]
        rfl
      rw [hend]
      rfl

/-- Searching under the newline option goes line by line. Let no literal, bracket expression or
class of the tree `t` stand for a line feed unless it is negated, as `NamesNoLineFeed` says, and let
`lines` be what `haystack` is cut into at its line feeds. The first of the `lines` where the search
does not come back empty decides: a search in `haystack` finds the match that is found in this
`line` alone, moved on by its `lineOffset`, or fails as that one does. When there is no such line,
nothing is found. -/
theorem matchFrom_lines (hr : compile pattern o = .ok r) (ht : Expr.parse pattern = .ok t)
    (hnewline : o.newline = true) (hnames : t.NamesNoLineFeed) (haystack : Array UInt8) :
    let lines := haystack.toList.splitOn '\n'.toUInt8
    (∀ i line, lines[i]? = some line →
      (∀ j < i, ∀ l ∈ lines[j]?, r.matchFrom l.toArray 0 {} = .ok none) →
        r.matchFrom line.toArray 0 {} ≠ .ok none →
          r.matchFrom haystack 0 {} =
            Option.map (·.movedInto haystack (lineOffset lines i)) <$>
              r.matchFrom line.toArray 0 {}) ∧
      ((∀ line ∈ lines, r.matchFrom line.toArray 0 {} = .ok none) →
        r.matchFrom haystack 0 {} = .ok none) := by
  have hmatch := matchFrom_eq_matchInLines hr ht hnewline hnames haystack (List.nil_append _).symm
    (.inl rfl)
  rw [List.length_nil] at hmatch
  refine ⟨fun i line hline hbefore hfound => ?_, fun h => ?_⟩
  · rw [hmatch, matchInLines_eq r haystack _ 0 hline hbefore hfound, Nat.zero_add]
  · rw [hmatch, matchInLines_eq_none r haystack h]

/-- Of the lines `a`, `ab` and `b` the second one is the first that `^.*b$` matches. It stands at 2,
and the dot does not reach back into the first one. -/
theorem matchFrom_lines_second :
    let t : Expr :=
      .concat [.anchor .lineStart, .loop .any 0 none, .literal 98, .anchor .lineEnd]
    let o : Options := { newline := true }
    let r : Regex := ⟨[94, 46, 42, 98, 36], o, .automaton (.ofExpr o t)⟩
    let text : Array UInt8 := #[97, 10, 97, 98, 10, 98]
    compile [94, 46, 42, 98, 36] o = .ok r ∧ t.NamesNoLineFeed ∧
      text.toList.splitOn '\n'.toUInt8 = [[97], [97, 98], [98]] ∧
      r.matchFrom #[97] 0 {} = .ok none ∧
      r.matchFrom #[97, 98] 0 {} = .ok (some ⟨#[97, 98], [⟨some 0, some 2⟩]⟩) ∧
      r.matchFrom text 0 {} = .ok (some ⟨text, [⟨some 2, some 4⟩]⟩) := by
  intro t o r text
  have hparse : Expr.parse [94, 46, 42, 98, 36] = .ok t := rfl
  have hcompile : compile [94, 46, 42, 98, 36] o = .ok r :=
    compile_eq_automaton hparse rfl (by decide)
  -- Of the leaves only the letter has a set of its own.
  have hleaf {u : Expr} (hu : u.IsPart t) (h : u.isLeaf = true) : u = .any ∨ u = .literal 98 := by
    simp only [t] at hu
    cases hu with
    | refl => cases h
    | item hmem hu =>
      simp only [List.mem_cons, List.not_mem_nil, or_false] at hmem
      rcases hmem with rfl | rfl | rfl | rfl
      · cases hu
        cases h
      · cases hu with
        | refl => cases h
        | body hu =>
          cases hu
          exact .inl rfl
      · cases hu
        exact .inr rfl
      · cases hu
        cases h
  have hnames : t.NamesNoLineFeed := by
    refine ⟨fun b h => ?_, fun s h => ?_, fun cls h => ?_⟩
    · obtain h | h := hleaf h rfl <;> cases h
      decide
    · obtain h | h := hleaf h rfl <;> cases h
    · obtain h | h := hleaf h rfl <;> cases h
  have hlines : text.toList.splitOn '\n'.toUInt8 = [[97], [97, 98], [98]] := by decide
  have hfirst : r.matchFrom #[97] 0 {} = .ok none := by decide +kernel
  have hsecond : r.matchFrom #[97, 98] 0 {} = .ok (some ⟨#[97, 98], [⟨some 0, some 2⟩]⟩) := by
    decide +kernel
  refine ⟨hcompile, hnames, hlines, hfirst, hsecond, ?_⟩
  -- Nothing is found in the first line, so the second one decides.
  have hmatch :=
    (matchFrom_lines hcompile hparse rfl hnames text).1 1 [97, 98] (by rw [hlines]; rfl)
    (fun j hj l hl => ?_) (by simp [hsecond])
  · rw [hmatch, hlines, hsecond]
    rfl
  · obtain rfl : j = 0 := Nat.lt_one_iff.1 hj
    rw [hlines] at hl
    cases hl
    exact hfirst

end Regex

end PosixRegex
