import PosixRegex.Proofs.Derivation
import PosixRegex.Proofs.Shift

/-!
# Windows of a text

A text is a window of another one for a tree when the tree cannot tell the two apart: from a
position of the one and from the same position further on in the other, its leaves read alike, its
anchors hold alike, and the same spans occur again. The longer text may go on behind the window, as
long as no leaf and no repeated span leads out of it.

- `Expr.Reads`: the sets of bytes that the leaves of a tree read.
- `Subject.IsWindow`: windows of a text.
- `Candidate.Within`: places and records within a text; derivations do not leave them.
- `Subject.IsWindow.leafCandidates_shift`, `Subject.IsWindow.backrefCandidates_shift`: the single
  steps of a search in a window.
-/

namespace PosixRegex

namespace Expr

/-- A set of bytes that some leaf of a tree reads. -/
def Reads (o : Options) (t : Expr) (s : ByteSet) : Prop :=
  ∃ u : Expr, u.IsPart t ∧ u.byteSet? o = some s

variable {o : Options} {t : Expr} {ts : List Expr} {s : ByteSet} {index min : Nat}
  {max : Option Nat}

theorem Reads.leaf (h : t.byteSet? o = some s) : t.Reads o s := ⟨t, .refl t, h⟩

theorem Reads.item (hmem : t ∈ ts) (h : t.Reads o s) : (concat ts).Reads o s := by
  obtain ⟨u, hu, hs⟩ := h
  exact ⟨u, .item hmem hu, hs⟩

theorem Reads.branch (hmem : t ∈ ts) (h : t.Reads o s) : (alternation ts).Reads o s := by
  obtain ⟨u, hu, hs⟩ := h
  exact ⟨u, .branch hmem hu, hs⟩

theorem Reads.body (h : t.Reads o s) : (loop t min max).Reads o s := by
  obtain ⟨u, hu, hs⟩ := h
  exact ⟨u, .body hu, hs⟩

theorem Reads.inside (h : t.Reads o s) : (group index t).Reads o s := by
  obtain ⟨u, hu, hs⟩ := h
  exact ⟨u, .inside hu, hs⟩

end Expr

namespace Subject

/-- Whether the bytes that follow two positions count as equal. -/
def sameAt (subject : Subject) (p q : Nat) : Bool :=
  match subject.byteAt? p, subject.byteAt? q with
  | some a, some b => subject.sameByte a b
  | _, _ => false

theorem sameAt_eq_true_iff (subject : Subject) (p q : Nat) :
    subject.sameAt p q = true ↔ ∃ a b, subject.byteAt? p = some a ∧ subject.byteAt? q = some b ∧
      subject.sameByte a b = true := by
  unfold sameAt
  cases subject.byteAt? p <;> cases subject.byteAt? q <;> simp

/-- A text that stands in another one from the position `d` on, as far as a tree can tell. -/
structure IsWindow (near far : Subject) (d : Nat) (t : Expr) : Prop where
  /-- Both are read under the same options. -/
  options_eq : far.options = near.options
  /-- The window ends where the other text ends, or before. -/
  size_le : near.size + d ≤ far.size
  /-- An anchor holds in the window where it holds in the other text. -/
  holds_eq : ∀ kind, ∀ pos ≤ near.size, far.holds (pos + d) kind = near.holds pos kind
  /-- A leaf reads what it reads in the other text, and nothing at the end of the window. -/
  reads_eq : ∀ s, t.Reads near.options s → ∀ pos ≤ near.size,
    (far.byteAt? (pos + d)).any s.contains = (near.byteAt? pos).any s.contains
  /-- Two bytes of the window count as equal where they do in the other text, and no byte of the
  window counts as equal to the one behind its end. -/
  same_eq : ∀ p < near.size, ∀ q ≤ near.size, far.sameAt (p + d) (q + d) = near.sameAt p q

namespace IsWindow

variable {near far : Subject} {d index min : Nat} {max : Option Nat} {t u : Expr} {ts : List Expr}

/-- What is a window for a tree is one for a tree that reads no other sets. -/
theorem mono (h : near.IsWindow far d t)
    (hreads : ∀ s, u.Reads near.options s → t.Reads near.options s) : near.IsWindow far d u :=
  { h with reads_eq := fun s hs => h.reads_eq s (hreads s hs) }

/-- A span of the window occurs again where it does in the other text, and not beyond the end. -/
theorem repeats_eq (h : near.IsWindow far d t) (start : Nat) {stop pos : Nat}
    (hstop : stop ≤ near.size) (hpos : pos ≤ near.size) :
    far.repeats (start + d) (stop + d) (pos + d) = near.repeats start stop pos := by
  have hsize := h.size_le
  rw [Bool.eq_iff_iff]
  simp only [repeats, Bool.and_eq_true, decide_eq_true_eq, agree_eq_true_iff,
    ← sameAt_eq_true_iff, Nat.add_sub_add_right, Nat.add_right_comm _ d]
  constructor
  · rintro ⟨-, hsame⟩
    have hle : pos + (stop - start) ≤ near.size := by
      -- Otherwise the span would have to go on with the byte behind the end of the window.
      refine Nat.le_of_not_lt fun hlt => ?_
      have hend := hsame (near.size - pos) (by omega)
      rw [h.same_eq _ (by omega) _ (by omega), Nat.add_sub_cancel' hpos, sameAt_eq_true_iff] at hend
      obtain ⟨-, b, -, hb, -⟩ := hend
      exact absurd (lt_size_of_byteAt? hb) (Nat.lt_irrefl _)
    refine ⟨hle, fun i hi => ?_⟩
    rw [← h.same_eq _ (by omega) _ (by omega)]
    exact hsame i hi
  · rintro ⟨hle, hsame⟩
    refine ⟨by omega, fun i hi => ?_⟩
    rw [h.same_eq _ (by omega) _ (by omega)]
    exact hsame i hi

theorem item (h : near.IsWindow far d (.concat ts)) (hmem : t ∈ ts) : near.IsWindow far d t :=
  h.mono fun _ => .item hmem

theorem branch (h : near.IsWindow far d (.alternation ts)) (hmem : t ∈ ts) :
    near.IsWindow far d t :=
  h.mono fun _ => .branch hmem

theorem body (h : near.IsWindow far d (.loop t min max)) : near.IsWindow far d t :=
  h.mono fun _ => .body

theorem inside (h : near.IsWindow far d (.group index t)) : near.IsWindow far d t :=
  h.mono fun _ => .inside

end IsWindow

end Subject

/-- A group with a span was entered where the span starts, and left where it ends. -/
theorem Slots.mark_of_span? {v : Slots} {g p q : Nat} (h : v.span? g = some (p, q)) :
    v.mark g = ⟨some p, some q⟩ := by
  rw [span?, Mark.span?] at h
  split at h
  · rename_i hstart hstop
    cases h
    exact congr (congrArg Mark.mk hstart) hstop
  · cases h

/-! ### Places within a text -/

namespace Candidate

/-- A candidate lies within a text: its place does, and so do the ends that it has recorded. -/
structure Within (subject : Subject) (c : Candidate) : Prop where
  /-- The place is not beyond the end. -/
  stop_le : c.stop ≤ subject.size
  /-- No group ends beyond the end. -/
  recorded_le : ∀ g, ∀ p ∈ (c.slots.mark g).stop?, p ≤ subject.size

namespace Within

variable {subject : Subject} {c d : Candidate}

/-- A match starts within the text when its position is one of the text. -/
theorem origin {t : Expr} {pos : Nat} (h : pos ≤ subject.size) :
    Within subject ⟨pos, .initial t.groupCount pos⟩ := by
  refine ⟨h, fun g p hp => ?_⟩
  cases g with
  | zero => exact nomatch hp
  | succ g =>
    rw [Slots.mark_initial_of_pos _ _ (Nat.succ_pos g)] at hp
    exact nomatch hp

/-- A step within the text changes no mark. -/
theorem of_slots_eq (h : Within subject c) (hstop : d.stop ≤ subject.size)
    (hslots : d.slots = c.slots) : Within subject d :=
  ⟨hstop, hslots ▸ h.recorded_le⟩

/-- Entering a group records no end. -/
theorem enter (h : Within subject c) (group lastNested : Nat) :
    Within subject ⟨c.stop, c.slots.enter group lastNested c.stop⟩ := by
  refine ⟨h.stop_le, fun g p hp => ?_⟩
  rw [Slots.stop?_mark_enter, Slots.mark_forget] at hp
  split at hp
  · exact nomatch hp
  · exact h.recorded_le g p hp

/-- Leaving a group records the present place. -/
theorem leave (h : Within subject c) (group : Nat) :
    Within subject ⟨c.stop, c.slots.leave group c.stop⟩ := by
  refine ⟨h.stop_le, fun g p hp => ?_⟩
  by_cases hg : g = group
  · subst hg
    by_cases hlen : g < c.slots.length
    · rw [Slots.mark_leave_self hlen] at hp
      cases hp
      exact h.stop_le
    · rw [Slots.mark_of_length_le (by simpa using hlen)] at hp
      exact nomatch hp
  · rw [Slots.mark_leave_of_ne hg] at hp
    exact h.recorded_le g p hp

end Within

end Candidate

namespace Expr

variable {subject : Subject}

/-- A leaf leads from a place to one within the text. -/
theorem Consumes.stop_le {s : Option ByteSet} {pos next : Nat} (h : Consumes subject s pos next) :
    next ≤ subject.size := by
  obtain ⟨bytes, b, -, hb, -, rfl⟩ := h
  exact Subject.lt_size_of_byteAt? hb

mutual

/-- Derivations do not leave the text. -/
theorem Derives.within {t : Expr} {c d : Candidate} (h : t.Derives subject c d)
    (hc : c.Within subject) : d.Within subject := by
  cases t with
  | empty =>
    obtain rfl : d = c := h
    exact hc
  | literal | any | set | named => exact hc.of_slots_eq h.1.stop_le h.2
  | concat items => exact DerivesAll.within h hc
  | alternation branches => exact DerivesAny.within h hc
  | loop body min max =>
    obtain ⟨n, -, -, h⟩ := h
    exact h.preserves (fun a b ha hab => Derives.within hab ha) hc
  | group index body =>
    obtain ⟨e, he, rfl⟩ := h
    exact (Derives.within he (hc.enter index _)).leave index
  | anchor kind =>
    obtain ⟨-, rfl⟩ := h
    exact hc
  | backref index =>
    obtain ⟨start, stop, -, hecho, rfl⟩ := h
    exact hc.of_slots_eq hecho.1 rfl
termination_by structural t

theorem DerivesAll.within {ts : List Expr} {c d : Candidate} (h : DerivesAll subject ts c d)
    (hc : c.Within subject) : d.Within subject := by
  cases ts with
  | nil =>
    obtain rfl : d = c := h
    exact hc
  | cons t ts =>
    obtain ⟨e, he, hd⟩ := h
    exact DerivesAll.within hd (Derives.within he hc)
termination_by structural ts

theorem DerivesAny.within {ts : List Expr} {c d : Candidate} (h : DerivesAny subject ts c d)
    (hc : c.Within subject) : d.Within subject := by
  cases ts with
  | nil => exact h.elim
  | cons t ts =>
    rcases h with h | h
    · exact Derives.within h hc
    · exact DerivesAny.within h hc
termination_by structural ts

end

end Expr

/-! ### Single steps -/

/-- A leaf leads on when the next byte belongs to its set. -/
theorem Expr.leafCandidates_some (subject : Subject) (s : ByteSet) (c : Candidate) :
    leafCandidates subject (some s) c =
      if (subject.byteAt? c.stop).any s.contains then [⟨c.stop + 1, c.slots⟩] else [] := by
  unfold leafCandidates
  cases subject.byteAt? c.stop <;> rfl

namespace Subject.IsWindow

variable {near far : Subject} {d : Nat} {t : Expr} {c : Candidate}

/-- A leaf leads on in the window as it does in the other text. -/
theorem leafCandidates_shift (h : near.IsWindow far d t) (hc : c.Within near) :
    Expr.leafCandidates far (t.byteSet? far.options) (c.shift d) =
      (Expr.leafCandidates near (t.byteSet? near.options) c).map (·.shift d) := by
  rw [h.options_eq]
  cases hs : t.byteSet? near.options with
  | none => rfl
  | some s =>
    -- At the end of the window there may be a byte, but not one of the set.
    have hreads := h.reads_eq s (.leaf hs) c.stop hc.stop_le
    have hnext : (⟨c.stop + d + 1, c.slots.shift d⟩ : Candidate) =
        Candidate.shift d ⟨c.stop + 1, c.slots⟩ := by
      simp only [Candidate.shift, Nat.add_right_comm]
    rw [Expr.leafCandidates_some, Expr.leafCandidates_some, Candidate.shift, hreads, hnext]
    split <;> rfl

/-- A back-reference leads on in the window as it does in the other text. -/
theorem backrefCandidates_shift (h : near.IsWindow far d t) (hc : c.Within near) (index : Nat) :
    Expr.backrefCandidates far index (c.shift d) =
      (Expr.backrefCandidates near index c).map (·.shift d) := by
  unfold Expr.backrefCandidates
  rw [show (c.shift d).slots = c.slots.shift d from rfl, Slots.span?_shift]
  cases hspan : c.slots.span? index with
  | none => rfl
  | some span =>
    obtain ⟨start, stop⟩ := span
    have hstop : stop ≤ near.size := by
      refine hc.recorded_le index stop ?_
      rw [Slots.mark_of_span? hspan]
      rfl
    have hrepeats := h.repeats_eq start hstop hc.stop_le
    have hnext : (⟨c.stop + d + (stop + d - (start + d)), c.slots.shift d⟩ : Candidate) =
        Candidate.shift d ⟨c.stop + (stop - start), c.slots⟩ := by
      simp only [Candidate.shift, Nat.add_sub_add_right, Nat.add_right_comm]
    simp only [Option.map_some, Candidate.shift, hrepeats, hnext]
    split <;> rfl

end Subject.IsWindow

end PosixRegex
