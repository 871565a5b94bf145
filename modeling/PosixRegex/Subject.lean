import PosixRegex.Options
import PosixRegex.Expr.Basic

/-!
# Texts to be searched

A search reads a byte string under the options of its pattern and the flags of the call. Positions
count the bytes before them, so a text of `n` bytes has the positions from `0` to `n`.
-/

namespace PosixRegex

/-- A text under the settings that decide what matches in it. -/
structure Subject where
  /-- The bytes of the text. -/
  haystack : Array UInt8
  /-- The options of the pattern. -/
  options : Options := {}
  /-- The flags of the search. -/
  flags : SearchFlags := {}
deriving Repr, Inhabited

namespace Subject

/-- The last position. -/
def size (subject : Subject) : Nat := subject.haystack.size

/-- The byte that follows a position. -/
@[inline]
def byteAt? (subject : Subject) (pos : Nat) : Option UInt8 := subject.haystack[pos]?

/-- Whether the byte that follows a position is a line feed. -/
def isLineFeed (subject : Subject) (pos : Nat) : Bool :=
  subject.byteAt? pos == some '\n'.toUInt8

/-- Whether an anchor holds at a position. A line starts at the start of the text unless the flags
deny it, and under the newline option after each line feed; it ends accordingly. -/
def holds (subject : Subject) (pos : Nat) : Anchor → Bool
  | .lineStart =>
    pos == 0 && !subject.flags.notBol ||
      subject.options.newline && 0 < pos && subject.isLineFeed (pos - 1)
  | .lineEnd =>
    pos == subject.size && !subject.flags.notEol ||
      subject.options.newline && subject.isLineFeed pos

/-- Whether two bytes count as equal: up to the case of letters when case does not count. -/
@[inline]
def sameByte (subject : Subject) (a b : UInt8) : Bool :=
  if subject.options.caseInsensitive then Byte.eqIgnoreCase a b else a == b

/-- Whether the `length` bytes from one position on are followed in step by those from another
one. -/
def agree (subject : Subject) : (length : Nat) → (first second : Nat) → Bool
  | 0, _, _ => true
  | length + 1, first, second =>
    match subject.byteAt? first, subject.byteAt? second with
    | some a, some b =>
      if subject.sameByte a b then subject.agree length (first + 1) (second + 1) else false
    | _, _ => false

/-- Runs of bytes agree when they do so byte by byte. -/
theorem agree_eq_true_iff (subject : Subject) (length first second : Nat) :
    subject.agree length first second = true ↔
      ∀ i < length, ∃ a b, subject.byteAt? (first + i) = some a ∧
        subject.byteAt? (second + i) = some b ∧ subject.sameByte a b = true := by
  induction length generalizing first second with
  | zero => exact ⟨fun _ i hi => absurd hi (Nat.not_lt_zero i), fun _ => rfl⟩
  | succ length ih =>
    constructor
    · intro h
      unfold agree at h
      split at h
      · rename_i a b ha hb
        split at h
        · rename_i hab
          intro i hi
          cases i with
          | zero => exact ⟨a, b, ha, hb, hab⟩
          | succ i =>
            have := (ih _ _).1 h i (Nat.lt_of_succ_lt_succ hi)
            rwa [Nat.add_right_comm first, Nat.add_right_comm second] at this
        · exact absurd h Bool.false_ne_true
      · exact absurd h Bool.false_ne_true
    · intro h
      obtain ⟨a, b, ha, hb, hab⟩ := h 0 (Nat.succ_pos length)
      rw [Nat.add_zero] at ha hb
      rw [agree, ha, hb]
      simp only [hab, if_true]
      refine (ih _ _).2 fun i hi => ?_
      have := h (i + 1) (Nat.succ_lt_succ hi)
      rwa [← Nat.add_assoc, ← Nat.add_assoc, Nat.add_right_comm first,
        Nat.add_right_comm second] at this

/-- Whether the bytes from `start` to `stop` occur again at a position. -/
def repeats (subject : Subject) (start stop pos : Nat) : Bool :=
  decide (pos + (stop - start) ≤ subject.size) && subject.agree (stop - start) start pos

end Subject

end PosixRegex
