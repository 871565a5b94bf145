import PosixRegex.Automaton.Exploration
import PosixRegex.Proofs.Derivation

/-!
# Runs of an automaton

What an automaton does, said without any search: from a state, a place in the text and a record a
thread takes one step after the other. Only the states for bytes lead on in the text; an assertion
is crossed only where its anchor holds, and the states of groups change the record.

- `Automaton.Step`: one step, with one rule for each kind of state.
- `Automaton.Path`: any number of steps.
- `Automaton.step_iff`: a step is one of the moves of a state, which stay in place, or the reading
  of a byte.
-/

namespace PosixRegex.Automaton

/-- A thread: the state that it is in, and its place in the text with its record. -/
structure Thread where
  /-- The state. -/
  state : Nat
  /-- The place in the text and the record. -/
  place : Candidate
deriving DecidableEq, Repr, Inhabited

/-- One step of a thread. -/
inductive Step (a : Automaton) (subject : Subject) : Thread → Thread → Prop
  | byte {q next : Nat} {b : UInt8} {c : Candidate} :
      a.states[q]? = some (.byte b next) → subject.byteAt? c.stop = some b →
        Step a subject ⟨q, c⟩ ⟨next, ⟨c.stop + 1, c.slots⟩⟩
  | set {q next : Nat} {s : ByteSet} {b : UInt8} {c : Candidate} :
      a.states[q]? = some (.set s next) → subject.byteAt? c.stop = some b → s.contains b = true →
        Step a subject ⟨q, c⟩ ⟨next, ⟨c.stop + 1, c.slots⟩⟩
  | branch {q target : Nat} {targets : List Nat} {c : Candidate} :
      a.states[q]? = some (.branch targets) → target ∈ targets →
        Step a subject ⟨q, c⟩ ⟨target, c⟩
  | enterGroup {q group lastNested next : Nat} {c : Candidate} :
      a.states[q]? = some (.enterGroup group lastNested next) →
        Step a subject ⟨q, c⟩ ⟨next, ⟨c.stop, c.slots.enter group lastNested c.stop⟩⟩
  | leaveGroup {q group next : Nat} {c : Candidate} :
      a.states[q]? = some (.leaveGroup group next) →
        Step a subject ⟨q, c⟩ ⟨next, ⟨c.stop, c.slots.leave group c.stop⟩⟩
  | assertion {q next : Nat} {anchor : Anchor} {c : Candidate} :
      a.states[q]? = some (.assertion anchor next) → subject.holds c.stop anchor = true →
        Step a subject ⟨q, c⟩ ⟨next, c⟩
  | skip {q next : Nat} {c : Candidate} :
      a.states[q]? = some (.skip next) → Step a subject ⟨q, c⟩ ⟨next, c⟩

/-- Some number of steps leads from one thread to another one. -/
def Path (a : Automaton) (subject : Subject) (x y : Thread) : Prop :=
  ∃ n, Iterates (Step a subject) n x y

namespace Path

variable {a : Automaton} {subject : Subject} {x y z : Thread}

theorem refl (a : Automaton) (subject : Subject) (x : Thread) : a.Path subject x x := ⟨0, rfl⟩

theorem trans (h : a.Path subject x y) (h' : a.Path subject y z) : a.Path subject x z := by
  obtain ⟨m, hm⟩ := h
  obtain ⟨n, hn⟩ := h'
  exact ⟨m + n, hm.append hn⟩

theorem head (h : Step a subject x y) (h' : a.Path subject y z) : a.Path subject x z := by
  obtain ⟨n, hn⟩ := h'
  exact ⟨n + 1, y, h, hn⟩

theorem tail (h : a.Path subject x y) (h' : Step a subject y z) : a.Path subject x z :=
  h.trans ⟨1, Iterates.one h'⟩

/-- What every step preserves holds along a path. -/
theorem preserves {P : Thread → Prop} (hstep : ∀ x y, P x → Step a subject x y → P y)
    (h : a.Path subject x y) (hx : P x) : P y := by
  obtain ⟨n, hn⟩ := h
  exact hn.preserves hstep hx

end Path

/-! ### Moves and readings -/

namespace State

/-- Where a state leads without reading a byte, and with which record. -/
def moves (subject : Subject) (pos : Nat) (v : Slots) : State → List (Nat × Slots)
  | byte _ _ | set _ _ | accept => []
  | skip next => [(next, v)]
  | branch targets => targets.map (·, v)
  | assertion anchor next => if subject.holds pos anchor then [(next, v)] else []
  | enterGroup group lastNested next => [(next, v.enter group lastNested pos)]
  | leaveGroup group next => [(next, v.leave group pos)]

/-- What a state does to the record of a thread that moves on. -/
def effect (pos : Nat) : State → Slots → Slots
  | enterGroup group lastNested _, v => v.enter group lastNested pos
  | leaveGroup group _, v => v.leave group pos
  | _, v => v

/-- A move has the effect of its state, and where it leads does not depend on the record. -/
theorem mem_moves {subject : Subject} {pos r : Nat} {v w : Slots} {st : State}
    (h : (r, w) ∈ st.moves subject pos v) :
    w = st.effect pos v ∧ ∀ v', (r, st.effect pos v') ∈ st.moves subject pos v' := by
  cases st with
  | byte | set | accept => exact absurd h List.not_mem_nil
  | skip | enterGroup | leaveGroup =>
    cases List.mem_singleton.1 h
    exact ⟨rfl, fun v' => List.mem_singleton_self _⟩
  | branch targets =>
    obtain ⟨target, htarget, heq⟩ := List.mem_map.1 h
    cases heq
    exact ⟨rfl, fun v' => List.mem_map.2 ⟨r, htarget, rfl⟩⟩
  | assertion anchor next =>
    -- The anchor looks at the text only.
    rw [moves] at h
    split at h
    · rename_i hholds
      cases List.mem_singleton.1 h
      refine ⟨rfl, fun v' => ?_⟩
      rw [moves, if_pos hholds]
      exact List.mem_singleton_self _
    · exact absurd h List.not_mem_nil

end State

variable {a : Automaton} {subject : Subject} {q pos : Nat} {v : Slots}

/-- A step is a move, or the reading of a byte. -/
theorem step_iff {st : State} (hq : a.states[q]? = some st) (y : Thread) :
    Step a subject ⟨q, ⟨pos, v⟩⟩ y ↔
      (∃ r w, (r, w) ∈ st.moves subject pos v ∧ y = ⟨r, ⟨pos, w⟩⟩) ∨
        ∃ b next, subject.byteAt? pos = some b ∧ st.step? b = some next ∧
          y = ⟨next, ⟨pos + 1, v⟩⟩ := by
  constructor
  · intro h
    -- Each rule is a move or a reading, according to the kind of its state.
    cases h with
    | byte h hb =>
      cases hq.symm.trans h
      exact .inr ⟨_, _, hb, by simp [State.step?], rfl⟩
    | set h hb hs =>
      cases hq.symm.trans h
      exact .inr ⟨_, _, hb, by simp [State.step?, hs], rfl⟩
    | branch h hmem =>
      cases hq.symm.trans h
      exact .inl ⟨_, _, List.mem_map.2 ⟨_, hmem, rfl⟩, rfl⟩
    | enterGroup h | leaveGroup h | skip h =>
      cases hq.symm.trans h
      exact .inl ⟨_, _, List.mem_singleton_self _, rfl⟩
    | assertion h hholds =>
      cases hq.symm.trans h
      exact .inl ⟨_, _, by simp [State.moves, hholds], rfl⟩
  · -- Each move of a state, and each byte that it reads, has its rule.
    rintro (⟨r, w, hmem, rfl⟩ | ⟨b, next, hb, hstep, rfl⟩)
    · cases st with
      | byte | set | accept => exact absurd hmem List.not_mem_nil
      | skip next =>
        cases List.mem_singleton.1 hmem
        exact .skip hq
      | branch targets =>
        obtain ⟨target, htarget, heq⟩ := List.mem_map.1 hmem
        cases heq
        exact .branch hq htarget
      | assertion anchor next =>
        rw [State.moves] at hmem
        split at hmem
        · rename_i hholds
          cases List.mem_singleton.1 hmem
          exact .assertion hq hholds
        · exact absurd hmem List.not_mem_nil
      | enterGroup group lastNested next =>
        cases List.mem_singleton.1 hmem
        exact .enterGroup hq
      | leaveGroup group next =>
        cases List.mem_singleton.1 hmem
        exact .leaveGroup hq
    · cases st with
      | byte b' next' =>
        rw [State.step?] at hstep
        split at hstep <;> cases hstep
        rename_i hbb
        exact .byte (hbb ▸ hq) hb
      | set s next' =>
        rw [State.step?] at hstep
        split at hstep <;> cases hstep
        rename_i hs
        exact .set hq hb hs
      | skip | branch | assertion | enterGroup | leaveGroup | accept => cases hstep

/-- A thread takes a step only from a state of the automaton. -/
theorem Step.exists_state {x y : Thread} (h : Step a subject x y) :
    ∃ st, a.states[x.state]? = some st := by
  cases h <;> exact ⟨_, ‹_›⟩

/-- No step leads on from an accepting state. -/
theorem not_step_of_accept (hq : a.states[q]? = some .accept) (c : Candidate) (y : Thread) :
    ¬Step a subject ⟨q, c⟩ y := by
  rw [step_iff hq]
  rintro (⟨r, w, hmem, -⟩ | ⟨b, next, -, hstep, -⟩)
  · exact List.not_mem_nil hmem
  · cases hstep

end PosixRegex.Automaton
