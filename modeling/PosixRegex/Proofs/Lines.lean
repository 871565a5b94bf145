import Mathlib.Data.List.Induction
import PosixRegex.Grep.Lines

/-!
# The lines of a text

The lines of a text are determined by what they are for: none of them contains a line feed, and each
with its line feed, one after the other, they are the text again, to which a line feed is added when
it ends in the middle of a line.

All of this follows from how a text is read off its front: it is empty, or one line that is not
ended, or a line that is ended with a text behind it (`induction_on_lines`).

- `lines_append`: the lines of two texts, the first of which ends with a line.
- `lines_flatMap_terminated`, `flatMap_terminated_lines`: putting lines together and taking the text
  apart.
- `lines_unique`: the lines of a text are the only ones that give the text.
-/

namespace PosixRegex.Grep

variable {line before : List UInt8} {ls : List (List UInt8)}

/-- A text that does not end in the middle of a line. -/
def EndsLine (text : List UInt8) : Prop := text = [] ∨ text.getLast? = some lineFeed

instance (text : List UInt8) : Decidable (EndsLine text) := by
  unfold EndsLine
  infer_instance

/-- A text with a line feed behind it when it ends in the middle of a line. -/
def completed (text : List UInt8) : List UInt8 :=
  if EndsLine text then text else terminated text

/-! ### Reading a text off its front -/

theorem linesFrom_append (h : lineFeed ∉ line) (begun rest : List UInt8) :
    linesFrom begun (line ++ rest) = linesFrom (line.reverse ++ begun) rest := by
  induction line generalizing begun with
  | nil => rfl
  | cons b line ih =>
    have hb : b ≠ lineFeed := Ne.symm (List.ne_of_not_mem_cons h)
    rw [List.cons_append, linesFrom, if_neg hb, ih (List.not_mem_of_not_mem_cons h),
      List.reverse_cons, List.append_assoc, List.singleton_append]

@[simp]
theorem lines_nil : lines [] = [] := rfl

/-- A line feed ends a line, and the next line begins behind it. -/
theorem lines_append_cons (h : lineFeed ∉ line) (rest : List UInt8) :
    lines (line ++ lineFeed :: rest) = line :: lines rest := by
  rw [lines, linesFrom_append h, linesFrom, if_pos rfl, List.append_nil, List.reverse_reverse,
    lines]

/-- What has no line feed is one line, if it is not empty. -/
theorem lines_of_not_mem (h : lineFeed ∉ line) (hne : line ≠ []) : lines line = [line] := by
  have hlines := linesFrom_append h [] []
  rw [List.append_nil, List.append_nil] at hlines
  rw [lines, hlines, linesFrom, List.reverse_reverse]
  simp [hne]

/-- A text is empty, or one line that is not ended, or a line that is ended with a text behind
it. -/
theorem induction_on_lines {P : List UInt8 → Prop} (nil : P [])
    (last : ∀ line, lineFeed ∉ line → line ≠ [] → P line)
    (ended : ∀ line rest, lineFeed ∉ line → P rest → P (line ++ lineFeed :: rest))
    (text : List UInt8) : P text := by
  induction hlength : text.length using Nat.strongRecOn generalizing text with
  | ind n ih =>
    by_cases hfeed : lineFeed ∈ text
    · obtain ⟨line, rest, rfl, hline⟩ := List.eq_append_cons_of_mem hfeed
      refine ended line rest hline (ih rest.length ?_ rest rfl)
      rw [← hlength, List.length_append, List.length_cons]
      omega
    · by_cases hne : text = []
      · rw [hne]
        exact nil
      · exact last text hfeed hne

/-! ### Texts that end with a line -/

theorem not_endsLine (h : lineFeed ∉ line) (hne : line ≠ []) : ¬EndsLine line := by
  rintro (hnil | hlast)
  · exact hne hnil
  · exact h (List.mem_of_getLast? hlast)

theorem endsLine_append_cons (line rest : List UInt8) :
    EndsLine (line ++ lineFeed :: rest) ↔ EndsLine rest := by
  have hnil : line ++ lineFeed :: rest ≠ [] := by simp
  rw [EndsLine, or_iff_right hnil, EndsLine, List.getLast?_append, List.getLast?_cons,
    Option.some_or, Option.some.injEq]
  cases rest using List.reverseRecOn with
  | nil => simp
  | append_singleton rest b => simp

theorem endsLine_terminated (line : List UInt8) : EndsLine (terminated line) :=
  .inr List.getLast?_concat

/-- Whatever is needed to complete a text is needed at its end. -/
theorem completed_append_cons (line rest : List UInt8) :
    completed (line ++ lineFeed :: rest) = line ++ lineFeed :: completed rest := by
  unfold completed
  simp only [endsLine_append_cons]
  split
  · rfl
  · rw [terminated, terminated, List.append_assoc, List.cons_append]

/-- The lines of two texts, the first of which ends with a line, are those of one and of the
other. -/
theorem lines_append (h : EndsLine before) (rest : List UInt8) :
    lines (before ++ rest) = lines before ++ lines rest := by
  induction before using induction_on_lines with
  | nil => rfl
  | last line hline hne => exact absurd h (not_endsLine hline hne)
  | ended line behind hline ih =>
    rw [List.append_assoc, List.cons_append, lines_append_cons hline, lines_append_cons hline,
      ih ((endsLine_append_cons line behind).1 h), List.cons_append]

/-! ### Putting lines together and taking the text apart -/

theorem lineFeed_not_mem_of_mem_lines {text : List UInt8} (h : line ∈ lines text) :
    lineFeed ∉ line := by
  induction text using induction_on_lines with
  | nil => cases h
  | last text htext hne =>
    rw [lines_of_not_mem htext hne, List.mem_singleton] at h
    rwa [h]
  | ended first rest hfirst ih =>
    rw [lines_append_cons hfirst] at h
    rcases List.mem_cons.1 h with rfl | h
    · exact hfirst
    · exact ih h

/-- The lines of a text, each with its line feed, are the completed text. -/
theorem flatMap_terminated_lines (text : List UInt8) :
    (lines text).flatMap terminated = completed text := by
  induction text using induction_on_lines with
  | nil => rfl
  | last line hline hne =>
    rw [lines_of_not_mem hline hne, List.flatMap_singleton, completed,
      if_neg (not_endsLine hline hne)]
  | ended line rest hline ih =>
    rw [lines_append_cons hline, List.flatMap_cons, ih, completed_append_cons, terminated,
      List.append_assoc, List.singleton_append]

/-- Lines that are put together, each with its line feed, are the lines of the text. -/
theorem lines_flatMap_terminated (h : ∀ line ∈ ls, lineFeed ∉ line) :
    lines (ls.flatMap terminated) = ls := by
  induction ls with
  | nil => rfl
  | cons line ls ih =>
    obtain ⟨hline, hls⟩ := List.forall_mem_cons.1 h
    rw [List.flatMap_cons, terminated, List.append_assoc, List.singleton_append,
      lines_append_cons hline, ih hls]

/-- Completing a text begins no further line. -/
theorem lines_completed (text : List UInt8) : lines (completed text) = lines text := by
  rw [← flatMap_terminated_lines]
  exact lines_flatMap_terminated fun _ => lineFeed_not_mem_of_mem_lines

/-- The `lines` of a `text` are the only ones without a line feed in them that, each `terminated` by
its line feed, give the completed text: `text` itself when it is empty or ends in a line feed, and
`text` with a line feed behind it otherwise. So between two line feeds there is an empty line, and a
line feed at the end ends the last line of the text if that is not ended, and an empty line if it
is. -/
theorem lines_unique :
    (∀ (text : List UInt8) (ls : List (List UInt8)), ls = lines text ↔
      (∀ line ∈ ls, lineFeed ∉ line) ∧ ls.flatMap terminated =
        if text = [] ∨ text.getLast? = some lineFeed then text else text ++ [lineFeed]) ∧
      (∀ before rest : List UInt8, lines (before ++ lineFeed :: lineFeed :: rest) =
        lines (before ++ [lineFeed]) ++ [] :: lines rest) ∧
      ∀ text : List UInt8, lines (text ++ [lineFeed]) =
        if text = [] ∨ text.getLast? = some lineFeed then lines text ++ [[]] else lines text := by
  refine ⟨fun text ls => ?_, fun before rest => ?_, fun text => ?_⟩
  · constructor
    · rintro rfl
      exact ⟨fun _ => lineFeed_not_mem_of_mem_lines, flatMap_terminated_lines text⟩
    · rintro ⟨hfree, htext⟩
      calc
        ls = lines (ls.flatMap terminated) := (lines_flatMap_terminated hfree).symm
        _ = lines (completed text) := congrArg lines htext
        _ = lines text := lines_completed text
  · have hsplit : before ++ lineFeed :: lineFeed :: rest =
        terminated before ++ ([] ++ lineFeed :: rest) := by
      simp [terminated]
    rw [hsplit, lines_append (endsLine_terminated before), lines_append_cons List.not_mem_nil,
      terminated]
  · split
    · -- The line feed ends a line of its own.
      rename_i hends
      rw [lines_append hends]
      rfl
    · rename_i hmiddle
      rw [← lines_completed text, completed, if_neg (show ¬EndsLine text from hmiddle), terminated]

/-- A text that begins with an empty line, has another one in the middle, and ends in the middle of
a line. -/
theorem lines_unique_blank : lines [10, 97, 10, 10, 98] = [[], [97], [], [98]] :=
  ((lines_unique.1 [10, 97, 10, 10, 98] [[], [97], [], [98]]).2 ⟨by decide, by decide⟩).symm

end PosixRegex.Grep
