import PosixRegex.Proofs.WindowSearch

/-!
# Searching behind other bytes

A search that starts behind the first bytes of a text sees of these bytes no more than whether they
end a line: it finds what a search in the rest of the text finds when the flags say whether a line
starts there.

- `SearchFlags.behind`: the flags that say so.
- `Subject.isWindow_append`: the rest of a text is a window of the text.
- `Regex.matchFrom_append`: searching in the rest of a text.
-/

namespace PosixRegex

/-- The flags for a text that stands behind other bytes: a line starts there when these bytes end
one. -/
def SearchFlags.behind (flags : SearchFlags) (o : Options) (before : Array UInt8) : SearchFlags :=
  { flags with notBol := !(o.newline && before.back? == some '\n'.toUInt8) }

namespace Subject

variable {before text : Array UInt8} {o : Options} {flags : SearchFlags}

theorem byteAt?_append (before text : Array UInt8) (o : Options) (flags flags' : SearchFlags)
    (pos : Nat) : (⟨before ++ text, o, flags⟩ : Subject).byteAt? (pos + before.size) =
      (⟨text, o, flags'⟩ : Subject).byteAt? pos := by
  show (before ++ text)[pos + before.size]? = text[pos]?
  rw [Array.getElem?_append_right (Nat.le_add_left _ _), Nat.add_sub_cancel]

/-- The rest of a text is a window of the text, for any tree. -/
theorem isWindow_append (o : Options) (flags : SearchFlags) (hbefore : before ≠ #[])
    (text : Array UInt8) (t : Expr) :
    (⟨text, o, flags.behind o before⟩ : Subject).IsWindow ⟨before ++ text, o, flags⟩
      before.size t where
  options_eq := rfl
  size_le := Nat.le_of_eq (by simp [size, Nat.add_comm])
  holds_eq kind pos hpos := by
    have hpositive : 0 < before.size := Array.size_pos_iff.2 hbefore
    have hlineFeed (pos : Nat) :
        (⟨before ++ text, o, flags⟩ : Subject).isLineFeed (pos + before.size) =
          (⟨text, o, flags.behind o before⟩ : Subject).isLineFeed pos := by
      rw [isLineFeed, isLineFeed, byteAt?_append]
    cases kind with
    | lineStart =>
      have hzero : (pos + before.size == 0) = false := by
        rw [beq_eq_false_iff_ne]
        omega
      cases pos with
      | zero =>
        -- The byte before the window is the last of those in front.
        have hlast : (⟨before ++ text, o, flags⟩ : Subject).isLineFeed (0 + before.size - 1) =
            (before.back? == some '\n'.toUInt8) := by
          rw [isLineFeed, byteAt?, Nat.zero_add, Array.back?_eq_getElem?,
            Array.getElem?_append_left (Nat.sub_one_lt (Nat.ne_of_gt hpositive))]
        rw [holds, holds, hzero, hlast, SearchFlags.behind]
        simp [hpositive]
      | succ pos =>
        have hpred : pos + 1 + before.size - 1 = pos + before.size := by omega
        rw [holds, holds, hzero, hpred, hlineFeed]
        simp
    | lineEnd =>
      have hsize : (pos + before.size == (before ++ text).size) = (pos == text.size) := by
        rw [Array.size_append, Nat.add_comm before.size]
        simp [Bool.beq_eq_decide_eq]
      rw [holds, holds, hlineFeed, size, size, hsize]
      rfl
  reads_eq s _ pos _ := by rw [byteAt?_append]
  same_eq p _ q _ := by
    rw [sameAt, sameAt, byteAt?_append, byteAt?_append]
    rfl

end Subject

namespace Regex

variable {pattern : List UInt8} {o : Options} {r : Regex}

/-- A search behind the bytes `before`, in the `text` that follows them, finds what a search in
`text` alone finds, with all recorded positions moved on by the number of these bytes, or fails as
that one does. Nothing is seen of `before` but whether it ends a line: in `text` alone, under
`flags.behind o before`, a line starts at the front just when the newline option is on and `before`
ends in a line feed. -/
theorem matchFrom_append (hr : compile pattern o = .ok r) {before : Array UInt8}
    (hbefore : before ≠ #[]) (text : Array UInt8) (flags : SearchFlags) :
    r.matchFrom (before ++ text) before.size flags =
      Option.map (·.movedInto (before ++ text) before.size) <$>
        r.matchFrom text 0 (flags.behind o before) := by
  obtain ⟨t, ht, -⟩ := search_outcome hr
  have hwindow := matchFrom_window_end hr ht (Subject.isWindow_append o flags hbefore text t)
    (Nat.le_of_eq (by rw [Array.size_append, Nat.add_comm])) (Nat.zero_le _)
  rwa [Nat.zero_add] at hwindow

/-- Behind `x` and a line feed `^a` matches at once, as it does in the rest `ab` when a line may
start there, although the flags of the search deny that the text starts a line. -/
theorem matchFrom_append_line :
    let t : Expr := .concat [.anchor .lineStart, .literal 97]
    let o : Options := { newline := true }
    let r : Regex := ⟨[94, 97], o, .automaton (.ofExpr o t)⟩
    let before : Array UInt8 := #[120, 10]
    let text : Array UInt8 := #[97, 98]
    compile [94, 97] o = .ok r ∧ before ≠ #[] ∧
      r.matchFrom text 0 { notBol := false } = .ok (some ⟨text, [⟨some 0, some 1⟩]⟩) ∧
      r.matchFrom (before ++ text) 2 { notBol := true } =
        .ok (some ⟨before ++ text, [⟨some 2, some 3⟩]⟩) := by
  intro t o r before text
  have hparse : Expr.parse [94, 97] = .ok t := rfl
  have hcompile : compile [94, 97] o = .ok r :=
    compile_eq_automaton hparse rfl (by decide)
  have hbefore : before ≠ #[] := by decide
  have halone : r.matchFrom text 0 { notBol := false } = .ok (some ⟨text, [⟨some 0, some 1⟩]⟩) := by
    decide +kernel
  refine ⟨hcompile, hbefore, halone, ?_⟩
  have hmatch := matchFrom_append hcompile hbefore text { notBol := true }
  have hflags : SearchFlags.behind { notBol := true } o before = { notBol := false } := by decide
  rwa [hflags, halone] at hmatch

end Regex

end PosixRegex
