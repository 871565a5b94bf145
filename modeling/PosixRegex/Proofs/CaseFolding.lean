import PosixRegex.Proofs.WindowSearch

/-!
# Case does not count

Under the option that case does not count, nothing in a search tells the two cases of a letter
apart: the set of each leaf holds both cases of its letters or neither, also when it is negated, a
line feed has no case, and back-references compare bytes up to case. So the text with letters in the
other case is, for any tree, a window of the text.

- `Expr.contains_swapCase`: the sets of leaves do not tell cases apart.
- `Subject.isWindow_of_twins`: nor does anything else in a search.
- `Regex.matchFrom_swapCase`: searching in texts that differ in case only.
-/

namespace PosixRegex

/-- A line feed has no case. -/
theorem Byte.swapCase_eq_lineFeed_iff (b : UInt8) :
    swapCase b = '\n'.toUInt8 ↔ b = '\n'.toUInt8 := by
  rw [← UInt8.toNat_inj, ← UInt8.toNat_inj, toNat_swapCase, show '\n'.toUInt8.toNat = 10 from rfl]
  split_ifs <;> omega

variable {o : Options} {t : Expr} {s : ByteSet}

/-- Taking out the line feed does not tell cases apart. -/
theorem Options.contains_withinLine_swapCase (o : Options)
    (h : ∀ b, s.contains (Byte.swapCase b) = s.contains b) (b : UInt8) :
    (o.withinLine s).contains (Byte.swapCase b) = (o.withinLine s).contains b := by
  unfold withinLine
  split
  · have hlineFeed : ('\n'.toUInt8 != Byte.swapCase b) = ('\n'.toUInt8 != b) := by
      rw [Bool.eq_iff_iff, bne_iff_ne, bne_iff_ne, ne_comm, Ne, Byte.swapCase_eq_lineFeed_iff,
        ne_comm]
    rw [ByteSet.contains_erase, ByteSet.contains_erase, h, hlineFeed]
  · exact h b

/-- When case does not count, the set of a leaf does not tell cases apart. -/
theorem Expr.contains_swapCase (hcase : o.caseInsensitive = true) (h : t.Reads o s) (b : UInt8) :
    s.contains (Byte.swapCase b) = s.contains b := by
  have hfold (s : ByteSet) (b : UInt8) :
      (o.fold s).contains (Byte.swapCase b) = (o.fold s).contains b := by
    rw [Options.fold, if_pos hcase, ByteSet.contains_foldCase_swapCase]
  have hbracket (s : ByteSet) (negated : Bool) (b : UInt8) :
      (o.bracketSet s negated).contains (Byte.swapCase b) =
        (o.bracketSet s negated).contains b := by
    cases negated with
    | false => exact hfold s b
    | true =>
      refine o.contains_withinLine_swapCase (fun b => ?_) b
      rw [ByteSet.contains_compl, ByteSet.contains_compl, hfold]
  -- A set is read for a leaf, and was folded before it was negated.
  obtain ⟨u, -, hu⟩ := h
  cases u with
  | literal c =>
    cases hu
    exact hfold _ b
  | any =>
    cases hu
    refine o.contains_withinLine_swapCase (fun b => ?_) b
    rw [ByteSet.contains_full, ByteSet.contains_full]
  | set bytes negated | named cls negated =>
    cases hu
    exact hbracket _ negated b
  | empty | concat | alternation | loop | group | anchor | backref => cases hu

namespace Subject

variable {text twin : Array UInt8}

/-- Two texts that differ at each position at most in the case of a letter. -/
def Twins (text twin : Array UInt8) : Prop :=
  ∀ i : Nat, twin[i]? = text[i]? ∨ twin[i]? = text[i]?.map Byte.swapCase

/-- A test that does not tell cases apart has the same outcome for the bytes of both texts. -/
theorem Twins.any_eq (h : Twins text twin) {f : UInt8 → Bool}
    (hf : ∀ b, f (Byte.swapCase b) = f b) (i : Nat) : twin[i]?.any f = text[i]?.any f := by
  rcases h i with heq | heq
  · rw [heq]
  · rw [heq, Option.any_map]
    exact congrArg (text[i]?.any ·) (funext hf)

theorem Twins.size_eq (h : Twins text twin) : twin.size = text.size := by
  have hlt (i : Nat) : i < twin.size ↔ i < text.size := by
    rw [← not_iff_not, Nat.not_lt, Nat.not_lt, ← Array.getElem?_eq_none_iff,
      ← Array.getElem?_eq_none_iff]
    rcases h i with heq | heq <;> simp [heq]
  exact Nat.le_antisymm (Nat.le_of_not_lt fun hlt' => Nat.lt_irrefl _ ((hlt _).1 hlt'))
    (Nat.le_of_not_lt fun hlt' => Nat.lt_irrefl _ ((hlt _).2 hlt'))

theorem isLineFeed_eq_any (subject : Subject) (pos : Nat) :
    subject.isLineFeed pos = (subject.byteAt? pos).any (· == '\n'.toUInt8) := by
  rw [isLineFeed]
  cases subject.byteAt? pos <;> rfl

theorem sameAt_eq_any (subject : Subject) (p q : Nat) :
    subject.sameAt p q =
      (subject.byteAt? p).any fun a => (subject.byteAt? q).any (subject.sameByte a ·) := by
  unfold sameAt
  cases subject.byteAt? p <;> cases subject.byteAt? q <;> rfl

/-- A text is, for any tree, a window of one that differs from it in case only. -/
theorem isWindow_of_twins (hcase : o.caseInsensitive = true) (h : Twins text twin) (t : Expr)
    (flags : SearchFlags) :
    (⟨text, o, flags⟩ : Subject).IsWindow ⟨twin, o, flags⟩ 0 t := by
  have hlineFeed (pos : Nat) : (⟨twin, o, flags⟩ : Subject).isLineFeed pos =
      (⟨text, o, flags⟩ : Subject).isLineFeed pos := by
    rw [isLineFeed_eq_any, isLineFeed_eq_any]
    refine h.any_eq (fun b => ?_) pos
    rw [Bool.eq_iff_iff, beq_iff_eq, beq_iff_eq, Byte.swapCase_eq_lineFeed_iff]
  refine ⟨rfl, Nat.le_of_eq h.size_eq.symm, fun kind pos _ => ?_, fun s hs pos _ => ?_,
    fun p _ q _ => ?_⟩
  · cases kind with
    | lineStart => rw [holds, holds, hlineFeed, Nat.add_zero]
    | lineEnd => rw [holds, holds, hlineFeed, size, size, h.size_eq, Nat.add_zero]
  · exact h.any_eq (Expr.contains_swapCase hcase hs) pos
  · -- Two bytes are compared by their small letters.
    have hsame (text : Array UInt8) (a b : UInt8) : (⟨text, o, flags⟩ : Subject).sameByte a b =
        (Byte.toLower a == Byte.toLower b) := by
      rw [sameByte, if_pos hcase, Byte.eqIgnoreCase]
    simp only [sameAt_eq_any, hsame, byteAt?, Nat.add_zero]
    have hinner (a : UInt8) : twin[q]?.any (Byte.toLower a == Byte.toLower ·) =
        text[q]?.any (Byte.toLower a == Byte.toLower ·) :=
      h.any_eq (fun b => by rw [Byte.toLower_swapCase]) q
    simp only [hinner]
    exact h.any_eq (fun b => by rw [Byte.toLower_swapCase]) p

end Subject

namespace Regex

variable {pattern : List UInt8} {r : Regex}

/-- When case does not count, searches in `text` and in its `twin`, which differ at each position at
most in the case of a letter, have the same outcome: the same record for a match, or none, or the
same error. -/
theorem matchFrom_swapCase (hr : compile pattern o = .ok r) (hcase : o.caseInsensitive = true)
    {text twin : Array UInt8} (htwin : Subject.Twins text twin) (start : Nat)
    (flags : SearchFlags) :
    r.matchFrom twin start flags =
      Option.map (fun m => ⟨twin, m.slots⟩) <$> r.matchFrom text start flags := by
  obtain ⟨t, ht, -⟩ := search_outcome hr
  have hsize := htwin.size_eq
  rcases Nat.lt_or_ge text.size start with hlt | hle
  · -- Behind the end of both texts there is nothing to find.
    rw [matchFrom, matchFrom, search_of_size_lt r hlt, search_of_size_lt r (hsize ▸ hlt)]
    rfl
  · have hwindow := matchFrom_window_end hr ht
      (Subject.isWindow_of_twins hcase htwin t flags) (Nat.le_of_eq hsize) hle
    simpa only [Nat.add_zero, Match.movedInto, Slots.shift_zero] using hwindow

/-- The bracket expression of `(a)[^a]` leaves out both cases of the letter: in `aAB` and in `AaB`
the match starts at 1. -/
theorem matchFrom_swapCase_bracket :
    let t : Expr := .concat [.group 1 (.literal 97), .set (.single 97) true]
    let o : Options := { caseInsensitive := true }
    let r : Regex := ⟨[40, 97, 41, 91, 94, 97, 93], o, .automaton (.ofExpr o t)⟩
    let text : Array UInt8 := #[97, 65, 66]
    let twin : Array UInt8 := #[65, 97, 66]
    compile [40, 97, 41, 91, 94, 97, 93] o = .ok r ∧ Subject.Twins text twin ∧
      r.matchFrom text 0 {} = .ok (some ⟨text, [⟨some 1, some 3⟩, ⟨some 1, some 2⟩]⟩) ∧
      r.matchFrom twin 0 {} = .ok (some ⟨twin, [⟨some 1, some 3⟩, ⟨some 1, some 2⟩]⟩) := by
  intro t o r text twin
  have hparse : Expr.parse [40, 97, 41, 91, 94, 97, 93] = .ok t := rfl
  have hcompile : compile [40, 97, 41, 91, 94, 97, 93] o = .ok r :=
    compile_eq_automaton hparse rfl (by decide)
  have htwin : Subject.Twins text twin := by
    rintro (_ | _ | i)
    · exact .inr (by decide)
    · exact .inr (by decide)
    · exact .inl rfl
  have hmatch : r.matchFrom text 0 {} =
      .ok (some ⟨text, [⟨some 1, some 3⟩, ⟨some 1, some 2⟩]⟩) := by decide +kernel
  refine ⟨hcompile, htwin, hmatch, ?_⟩
  rw [matchFrom_swapCase hcompile rfl htwin 0 {}, hmatch]
  rfl

end Regex

end PosixRegex
