import PosixRegex.Expr.Candidates
import PosixRegex.Proofs.Orderly
import PosixRegex.Proofs.Slots

/-!
# Derivations

What it means for a tree to match, said without any search. A derivation leads from a place in the
text with a record of the groups to another such place: it spells out which branch is taken where
there is a choice, how often each loop goes round, and what every group records on the way.

- `Expr.Derives`: derivations with records.
- `Expr.Matches`: the spans that a tree without back-references can match, without records.
- `Expr.matches_iff_exists_derives`: records never stand in the way of a match.
- `Expr.Derives.mark_eq`: a derivation changes the marks of its own groups only.
- `Expr.Derives.absorb`: a pass of a loop that consumes nothing can be left out before another one.
-/

namespace PosixRegex

/-! ### Relations taken several times -/

/-- A relation taken a given number of times. -/
def Iterates {α : Type} (R : α → α → Prop) : Nat → α → α → Prop
  | 0, a, b => a = b
  | n + 1, a, c => ∃ b, R a b ∧ Iterates R n b c

namespace Iterates

variable {α : Type} {R S : α → α → Prop} {m n : Nat} {a b c : α}

theorem one (h : R a b) : Iterates R 1 a b := ⟨b, h, rfl⟩

theorem append (h : Iterates R m a b) (h' : Iterates R n b c) : Iterates R (m + n) a c := by
  induction m generalizing a with
  | zero =>
    obtain rfl : a = b := h
    rwa [Nat.zero_add]
  | succ m ih =>
    obtain ⟨d, had, hdb⟩ := h
    rw [Nat.add_right_comm]
    exact ⟨d, had, ih hdb⟩

/-- The last of several times can be split off, as well as the first. -/
theorem succ_iff : Iterates R (n + 1) a c ↔ ∃ b, Iterates R n a b ∧ R b c := by
  constructor
  · intro h
    induction n generalizing a with
    | zero =>
      obtain ⟨b, hab, rfl⟩ := h
      exact ⟨a, rfl, hab⟩
    | succ n ih =>
      obtain ⟨b, hab, hbc⟩ := h
      obtain ⟨d, hbd, hdc⟩ := ih hbc
      exact ⟨d, ⟨b, hab, hbd⟩, hdc⟩
  · rintro ⟨b, hab, hbc⟩
    exact hab.append (one hbc)

/-- Several times in all can be cut after any number of times. -/
theorem split (h : Iterates R (m + n) a c) : ∃ b, Iterates R m a b ∧ Iterates R n b c := by
  induction m generalizing a with
  | zero => exact ⟨a, rfl, by rwa [Nat.zero_add] at h⟩
  | succ m ih =>
    rw [Nat.add_right_comm] at h
    obtain ⟨d, had, hdc⟩ := h
    obtain ⟨b, hdb, hbc⟩ := ih hdc
    exact ⟨b, ⟨d, had, hdb⟩, hbc⟩

/-- What every time preserves is preserved by any number of times. -/
theorem preserves {P : α → Prop} (hstep : ∀ a b, P a → R a b → P b) (h : Iterates R n a b)
    (ha : P a) : P b := by
  induction n generalizing a with
  | zero => exact h ▸ ha
  | succ n ih =>
    obtain ⟨d, had, hdb⟩ := h
    exact ih hdb (hstep a d ha had)

/-- What is taken several times is, seen through a function, a relation taken as often. -/
theorem map {β : Type} {S : β → β → Prop} (f : α → β) (hf : ∀ a b, R a b → S (f a) (f b))
    (h : Iterates R n a b) : Iterates S n (f a) (f b) := by
  induction n generalizing a with
  | zero => exact congrArg f h
  | succ n ih =>
    obtain ⟨d, had, hdb⟩ := h
    exact ⟨f d, hf a d had, ih hdb⟩

/-- A relation that can be followed with additional data, whatever the data at the start, can be
followed as often. -/
theorem lift {β γ : Type} {S : β → β → Prop} (f : α → γ → β)
    (hf : ∀ a b, R a b → ∀ v, ∃ w, S (f a v) (f b w)) (h : Iterates R n a b) (v : γ) :
    ∃ w, Iterates S n (f a v) (f b w) := by
  induction n generalizing a v with
  | zero => exact ⟨v, congrArg (f · v) h⟩
  | succ n ih =>
    obtain ⟨d, had, hdb⟩ := h
    obtain ⟨u, hu⟩ := hf a d had v
    obtain ⟨w, hw⟩ := ih hdb u
    exact ⟨w, f d u, hu, hw⟩

end Iterates

namespace Subject

/-- The bytes from `start` to `stop` stand again at a position, byte for byte as the options compare
them. -/
def Echoes (subject : Subject) (start stop pos : Nat) : Prop :=
  pos + (stop - start) ≤ subject.size ∧
    ∀ i < stop - start, ∃ a b, subject.byteAt? (start + i) = some a ∧
      subject.byteAt? (pos + i) = some b ∧ subject.sameByte a b = true

theorem repeats_eq_true_iff (subject : Subject) (start stop pos : Nat) :
    subject.repeats start stop pos = true ↔ subject.Echoes start stop pos := by
  rw [repeats, Bool.and_eq_true, decide_eq_true_eq, agree_eq_true_iff, Echoes]

/-- A byte stands only before the end of a text. -/
theorem lt_size_of_byteAt? {subject : Subject} {pos : Nat} {b : UInt8}
    (h : subject.byteAt? pos = some b) : pos < subject.size := by
  obtain ⟨hpos, -⟩ := Array.getElem?_eq_some_iff.1 h
  exact hpos

end Subject

namespace Expr

/-- A place and the next one, when the byte between them belongs to a set. -/
def Consumes (subject : Subject) (s : Option ByteSet) (pos next : Nat) : Prop :=
  ∃ bytes b, s = some bytes ∧ subject.byteAt? pos = some b ∧ bytes.contains b = true ∧
    next = pos + 1

mutual

/-- A tree leads from one place and record to another one.

A group forgets what it and the groups inside it have recorded, records where it starts, and on the
way out where it ends. A back-reference needs the span of its group. A loop goes round any number of
times that its bounds allow, also without consuming anything. -/
def Derives (subject : Subject) : Expr → Candidate → Candidate → Prop
  | empty, c, d => d = c
  | literal b, c, d =>
    Consumes subject ((literal b).byteSet? subject.options) c.stop d.stop ∧ d.slots = c.slots
  | any, c, d => Consumes subject (any.byteSet? subject.options) c.stop d.stop ∧ d.slots = c.slots
  | set s negated, c, d =>
    Consumes subject ((set s negated).byteSet? subject.options) c.stop d.stop ∧ d.slots = c.slots
  | named cls negated, c, d =>
    Consumes subject ((named cls negated).byteSet? subject.options) c.stop d.stop ∧
      d.slots = c.slots
  | concat items, c, d => DerivesAll subject items c d
  | alternation branches, c, d => DerivesAny subject branches c d
  | loop body min max, c, d =>
    ∃ n, min ≤ n ∧ (∀ m ∈ max, n ≤ m) ∧ Iterates (body.Derives subject) n c d
  | group index body, c, d =>
    ∃ e, body.Derives subject
        ⟨c.stop, c.slots.enter index (index + body.groupCount) c.stop⟩ e ∧
      d = ⟨e.stop, e.slots.leave index e.stop⟩
  | anchor kind, c, d => subject.holds c.stop kind = true ∧ d = c
  | backref index, c, d =>
    ∃ start stop, c.slots.span? index = some (start, stop) ∧ subject.Echoes start stop c.stop ∧
      d = ⟨c.stop + (stop - start), c.slots⟩
termination_by structural t => t

/-- Trees lead from one place and record to another one, one after the other. -/
def DerivesAll (subject : Subject) : List Expr → Candidate → Candidate → Prop
  | [], c, d => d = c
  | t :: ts, c, d => ∃ e, t.Derives subject c e ∧ DerivesAll subject ts e d
termination_by structural ts => ts

/-- One of several trees leads from one place and record to another one. -/
def DerivesAny (subject : Subject) : List Expr → Candidate → Candidate → Prop
  | [], _, _ => False
  | t :: ts, c, d => t.Derives subject c d ∨ DerivesAny subject ts c d
termination_by structural ts => ts

end

mutual

/-- A tree without back-references matches the bytes between two positions. -/
def Matches (subject : Subject) : Expr → (start stop : Nat) → Prop
  | empty, i, j => j = i
  | literal b, i, j => Consumes subject ((literal b).byteSet? subject.options) i j
  | any, i, j => Consumes subject (any.byteSet? subject.options) i j
  | set s negated, i, j => Consumes subject ((set s negated).byteSet? subject.options) i j
  | named cls negated, i, j => Consumes subject ((named cls negated).byteSet? subject.options) i j
  | concat items, i, j => MatchesAll subject items i j
  | alternation branches, i, j => MatchesAny subject branches i j
  | loop body min max, i, j =>
    ∃ n, min ≤ n ∧ (∀ m ∈ max, n ≤ m) ∧ Iterates (body.Matches subject) n i j
  | group _ body, i, j => body.Matches subject i j
  | anchor kind, i, j => subject.holds i kind = true ∧ j = i
  | backref _, _, _ => False
termination_by structural t => t

/-- Trees match consecutive pieces of the bytes between two positions. -/
def MatchesAll (subject : Subject) : List Expr → (start stop : Nat) → Prop
  | [], i, j => j = i
  | t :: ts, i, j => ∃ k, t.Matches subject i k ∧ MatchesAll subject ts k j
termination_by structural ts => ts

/-- One of several trees matches the bytes between two positions. -/
def MatchesAny (subject : Subject) : List Expr → (start stop : Nat) → Prop
  | [], _, _ => False
  | t :: ts, i, j => t.Matches subject i j ∨ MatchesAny subject ts i j
termination_by structural ts => ts

end

variable {subject : Subject} {t body : Expr} {ts : List Expr} {c d e : Candidate}

/-- One of several trees leads on when some tree among them does. -/
theorem derivesAny_iff : DerivesAny subject ts c d ↔ ∃ t ∈ ts, t.Derives subject c d := by
  induction ts with
  | nil => exact ⟨False.elim, fun ⟨_, hmem, _⟩ => nomatch hmem⟩
  | cons t ts ih => simp only [DerivesAny, ih, List.mem_cons, exists_eq_or_imp]

/-! ### Places and lengths -/

end Expr

/-- A candidate that lies further on: its place is not before that of the other one, nor beyond the
text unless it is the same, and its record has as many marks. -/
structure Candidate.Extends (subject : Subject) (c d : Candidate) : Prop where
  /-- Derivations do not go backwards. -/
  stop_le : c.stop ≤ d.stop
  /-- Derivations do not leave the text. -/
  within : d.stop = c.stop ∨ d.stop ≤ subject.size
  /-- Derivations keep the number of marks. -/
  length_eq : d.slots.length = c.slots.length

namespace Candidate.Extends

variable {subject : Subject} {c d e : Candidate}

theorem refl (subject : Subject) (c : Candidate) : c.Extends subject c :=
  ⟨Nat.le_refl _, .inl rfl, rfl⟩

theorem trans (h : c.Extends subject d) (h' : d.Extends subject e) : c.Extends subject e := by
  refine ⟨Nat.le_trans h.stop_le h'.stop_le, ?_, h'.length_eq.trans h.length_eq⟩
  rcases h'.within with heq | hle
  · exact heq ▸ h.within
  · exact .inr hle

theorem of_consumes {s : Option ByteSet} (h : Expr.Consumes subject s c.stop d.stop)
    (hslots : d.slots = c.slots) : c.Extends subject d := by
  obtain ⟨bytes, b, -, hb, -, hstop⟩ := h
  refine ⟨by omega, .inr ?_, by rw [hslots]⟩
  have := Subject.lt_size_of_byteAt? hb
  omega

end Candidate.Extends

namespace Expr

variable {subject : Subject} {t body : Expr} {ts : List Expr} {c d e : Candidate}

mutual

/-- Derivations lead further on in the text. -/
theorem Derives.extends {t : Expr} {c d : Candidate} (h : t.Derives subject c d) :
    c.Extends subject d := by
  cases t with
  | empty =>
    obtain rfl : d = c := h
    exact .refl subject d
  -- A leaf moves on by one byte.
  | literal | any | set | named => exact .of_consumes h.1 h.2
  | concat items => exact DerivesAll.extends h
  | alternation branches => exact DerivesAny.extends h
  | loop body min max =>
    obtain ⟨n, -, -, h⟩ := h
    -- Every pass starts where the one before it ended.
    refine h.preserves (P := fun e => c.Extends subject e) (fun a b ha hab => ?_) (.refl subject c)
    exact ha.trans (Derives.extends hab)
  | group index body =>
    obtain ⟨e, he, rfl⟩ := h
    -- Entering and leaving change the marks in place.
    have hext := Derives.extends he
    refine ⟨hext.stop_le, hext.within, ?_⟩
    rw [Slots.length_leave, hext.length_eq, Slots.length_enter]
  | anchor kind =>
    obtain ⟨-, rfl⟩ := h
    exact .refl subject d
  | backref index =>
    obtain ⟨start, stop, -, hecho, rfl⟩ := h
    exact ⟨Nat.le_add_right _ _, .inr hecho.1, rfl⟩
termination_by structural t

theorem DerivesAll.extends {ts : List Expr} {c d : Candidate} (h : DerivesAll subject ts c d) :
    c.Extends subject d := by
  cases ts with
  | nil =>
    obtain rfl : d = c := h
    exact .refl subject d
  | cons t ts =>
    obtain ⟨e, he, hd⟩ := h
    exact (Derives.extends he).trans (DerivesAll.extends hd)
termination_by structural ts

theorem DerivesAny.extends {ts : List Expr} {c d : Candidate} (h : DerivesAny subject ts c d) :
    c.Extends subject d := by
  cases ts with
  | nil => exact h.elim
  | cons t ts =>
    rcases h with h | h
    · exact Derives.extends h
    · exact DerivesAny.extends h
termination_by structural ts

end

/-! ### Marks -/

mutual

/-- A derivation changes the marks of the groups of its tree only. -/
theorem Derives.mark_eq {t : Expr} {c d : Candidate} {before g : Nat}
    (h : t.Derives subject c d) (ht : t.Orderly before)
    (hg : g ≤ before ∨ before + t.groupCount < g) : d.slots.mark g = c.slots.mark g := by
  cases t with
  | empty =>
    obtain rfl : d = c := h
    rfl
  | literal | any | set | named => rw [h.2]
  | concat items => exact DerivesAll.mark_eq h ht hg
  | alternation branches => exact DerivesAny.mark_eq h ht hg
  | loop body min max =>
    obtain ⟨n, -, -, h⟩ := h
    -- No pass changes the mark.
    refine h.preserves (P := fun e => e.slots.mark g = c.slots.mark g) (fun a b ha hab => ?_) rfl
    exact (Derives.mark_eq hab ht.2.2 hg).trans ha
  | group index body =>
    obtain ⟨e, he, rfl⟩ := h
    obtain ⟨rfl, hbody⟩ := ht
    rw [groupCount] at hg
    -- The mark is that of no group that is entered, forgotten or left.
    rw [Slots.mark_leave_of_ne (by omega), Derives.mark_eq he hbody (by omega),
      Slots.mark_enter_of_outside (by omega) (by omega)]
  | anchor kind =>
    obtain ⟨-, rfl⟩ := h
    rfl
  | backref index =>
    obtain ⟨start, stop, -, -, rfl⟩ := h
    rfl
termination_by structural t

theorem DerivesAll.mark_eq {ts : List Expr} {c d : Candidate} {before g : Nat}
    (h : DerivesAll subject ts c d) (hts : OrderlyAll ts before)
    (hg : g ≤ before ∨ before + groupCountAll ts < g) : d.slots.mark g = c.slots.mark g := by
  cases ts with
  | nil =>
    obtain rfl : d = c := h
    rfl
  | cons t ts =>
    obtain ⟨e, he, hd⟩ := h
    rw [groupCountAll] at hg
    rw [DerivesAll.mark_eq hd hts.2 (by omega), Derives.mark_eq he hts.1 (by omega)]
termination_by structural ts

theorem DerivesAny.mark_eq {ts : List Expr} {c d : Candidate} {before g : Nat}
    (h : DerivesAny subject ts c d) (hts : OrderlyAll ts before)
    (hg : g ≤ before ∨ before + groupCountAll ts < g) : d.slots.mark g = c.slots.mark g := by
  cases ts with
  | nil => exact h.elim
  | cons t ts =>
    rw [groupCountAll] at hg
    rcases h with h | h
    · exact Derives.mark_eq h hts.1 (by omega)
    · exact DerivesAny.mark_eq h hts.2 (by omega)
termination_by structural ts

end

/-- A pass over an atom that consumes nothing can be left out when another pass follows: what it has
recorded is forgotten when the atom, if it is a group, is entered again. -/
theorem Derives.absorb {before : Nat} (hatom : body.isAtom = true) (hbody : body.Orderly before)
    (h : body.Derives subject c d) (hstop : d.stop = c.stop) (h' : body.Derives subject d e) :
    body.Derives subject c e := by
  -- Only a group changes the record, so elsewhere the pass does not lead away from its place.
  have hsame (hslots : d.slots = c.slots) : body.Derives subject c e := by
    obtain rfl : d = c := by
      obtain ⟨stop, slots⟩ := d
      obtain rfl : stop = c.stop := hstop
      obtain rfl : slots = c.slots := hslots
      rfl
    exact h'
  cases body with
  | group index body =>
    obtain ⟨x, hx, rfl⟩ := h
    obtain ⟨y, hy, rfl⟩ := h'
    obtain ⟨rfl, hbody⟩ := hbody
    refine ⟨y, ?_, rfl⟩
    -- Entering the group again finds the record as it was before the first pass, but for marks
    -- that it overwrites.
    have hlen := hx.extends.length_eq
    rw [Slots.length_enter] at hlen
    have henter : (x.slots.leave (before + 1) x.stop).enter (before + 1)
        (before + 1 + body.groupCount) x.stop =
          c.slots.enter (before + 1) (before + 1 + body.groupCount) x.stop := by
      refine Slots.enter_congr (by rw [Slots.length_leave, hlen]) fun g hg => ?_
      rw [Slots.mark_leave_of_ne (by omega), hx.mark_eq hbody (by omega),
        Slots.mark_enter_of_outside hg (by omega)]
    dsimp only at hstop hy
    rwa [henter, hstop] at hy
  | literal | any | set | named => exact hsame h.2
  | anchor kind =>
    obtain ⟨-, rfl⟩ := h
    exact h'
  | backref index =>
    obtain ⟨start, stop, -, -, rfl⟩ := h
    exact hsame rfl
  | empty | concat | alternation | loop => exact absurd hatom Bool.false_ne_true

/-! ### Matching without records -/

mutual

/-- Forgetting the records of a derivation leaves a match. -/
theorem Derives.matches {t : Expr} {c d : Candidate} (ht : t.hasBackref = false)
    (h : t.Derives subject c d) : t.Matches subject c.stop d.stop := by
  cases t with
  | empty => exact congrArg Candidate.stop h
  | literal | any | set | named => exact h.1
  | concat items => exact DerivesAll.matches ht h
  | alternation branches => exact DerivesAny.matches ht h
  | loop body min max =>
    obtain ⟨n, hmin, hmax, h⟩ := h
    refine ⟨n, hmin, hmax, ?_⟩
    exact h.map Candidate.stop fun a b hab => Derives.matches ht hab
  | group index body =>
    obtain ⟨e, he, rfl⟩ := h
    -- What a group records does not matter without back-references.
    have hbody : body.hasBackref = false := ht
    have hmatch := Derives.matches hbody he
    exact hmatch
  | anchor kind => exact ⟨h.1, congrArg Candidate.stop h.2⟩
  | backref index => exact absurd ht.symm Bool.false_ne_true
termination_by structural t

theorem DerivesAll.matches {ts : List Expr} {c d : Candidate} (hts : hasBackrefAny ts = false)
    (h : DerivesAll subject ts c d) : MatchesAll subject ts c.stop d.stop := by
  cases ts with
  | nil => exact congrArg Candidate.stop h
  | cons t ts =>
    rw [hasBackrefAny, Bool.or_eq_false_iff] at hts
    obtain ⟨e, he, hd⟩ := h
    exact ⟨e.stop, Derives.matches hts.1 he, DerivesAll.matches hts.2 hd⟩
termination_by structural ts

theorem DerivesAny.matches {ts : List Expr} {c d : Candidate} (hts : hasBackrefAny ts = false)
    (h : DerivesAny subject ts c d) : MatchesAny subject ts c.stop d.stop := by
  cases ts with
  | nil => exact h.elim
  | cons t ts =>
    rw [hasBackrefAny, Bool.or_eq_false_iff] at hts
    rcases h with h | h
    · exact .inl (Derives.matches hts.1 h)
    · exact .inr (DerivesAny.matches hts.2 h)
termination_by structural ts

end

mutual

/-- Whatever the record, a match is that of a derivation. -/
theorem Matches.exists_derives {t : Expr} {i j : Nat} (h : t.Matches subject i j) (v : Slots) :
    ∃ w, t.Derives subject ⟨i, v⟩ ⟨j, w⟩ := by
  cases t with
  | empty =>
    obtain rfl : j = i := h
    exact ⟨v, rfl⟩
  | literal | any | set | named => exact ⟨v, h, rfl⟩
  | concat items => exact MatchesAll.exists_derives h v
  | alternation branches => exact MatchesAny.exists_derives h v
  | loop body min max =>
    obtain ⟨n, hmin, hmax, h⟩ := h
    -- The passes are derived one after the other, each with the record that the last one left.
    obtain ⟨w, hw⟩ := h.lift Candidate.mk (fun i j hij v => Matches.exists_derives hij v) v
    exact ⟨w, n, hmin, hmax, hw⟩
  | group index body =>
    have hbody : body.Matches subject i j := h
    obtain ⟨w, hw⟩ := Matches.exists_derives hbody (v.enter index (index + body.groupCount) i)
    exact ⟨w.leave index j, ⟨j, w⟩, hw, rfl⟩
  | anchor kind =>
    obtain ⟨hi, rfl⟩ := h
    exact ⟨v, hi, rfl⟩
  | backref index => exact h.elim
termination_by structural t

theorem MatchesAll.exists_derives {ts : List Expr} {i j : Nat} (h : MatchesAll subject ts i j)
    (v : Slots) : ∃ w, DerivesAll subject ts ⟨i, v⟩ ⟨j, w⟩ := by
  cases ts with
  | nil =>
    obtain rfl : j = i := h
    exact ⟨v, rfl⟩
  | cons t ts =>
    obtain ⟨k, hik, hkj⟩ := h
    obtain ⟨u, hu⟩ := Matches.exists_derives hik v
    obtain ⟨w, hw⟩ := MatchesAll.exists_derives hkj u
    exact ⟨w, ⟨k, u⟩, hu, hw⟩
termination_by structural ts

theorem MatchesAny.exists_derives {ts : List Expr} {i j : Nat} (h : MatchesAny subject ts i j)
    (v : Slots) : ∃ w, DerivesAny subject ts ⟨i, v⟩ ⟨j, w⟩ := by
  cases ts with
  | nil => exact h.elim
  | cons t ts =>
    rcases h with h | h
    · obtain ⟨w, hw⟩ := Matches.exists_derives h v
      exact ⟨w, .inl hw⟩
    · obtain ⟨w, hw⟩ := MatchesAny.exists_derives h v
      exact ⟨w, .inr hw⟩
termination_by structural ts

end

/-- A tree without back-references matches a span just when it has a derivation over it, whatever
the record at the start. -/
theorem matches_iff_exists_derives (ht : t.hasBackref = false) (i j : Nat) (v : Slots) :
    t.Matches subject i j ↔ ∃ w, t.Derives subject ⟨i, v⟩ ⟨j, w⟩ :=
  ⟨fun h => h.exists_derives v, fun ⟨_, hw⟩ => hw.matches ht⟩

end Expr

end PosixRegex
