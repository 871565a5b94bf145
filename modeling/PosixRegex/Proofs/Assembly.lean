import PosixRegex.Engine

/-!
# Automata state by state

An automaton is assembled one state after the other, with targets that are filled in later and a
limit that is looked at for each state. What comes of it is told by the number of states alone: when
they are no more than allowed it is the automaton that is laid out at once, and otherwise the
automaton is refused, whichever state was one too many.

- `Assembly.Lays`: how many states a step lays down, and what comes of it.
- `Assembly.Open`: states of which one is still to be led on.
- `Assembly.Builds`: a step lays down the fragment of a part.
- `Expr.builds_assemble`: a tree is laid down as its fragment.
- `Engine.ofExpr_eq`, `Engine.ofExpr_stateLimit`: when an expression is refused.
-/

namespace PosixRegex

namespace Automaton

namespace State

/-- The state for a set is led on as it is made. -/
theorem connect_consume (s : ByteSet) (target next : Nat) :
    (consume s target).connect next = consume s next := by
  unfold consume
  split <;> rfl

end State

namespace Assembly

variable {α β : Type} {limit n k : Nat} {before after last : List State} {a : α} {b : β}

/-- A step that adds `n` states: what it yields, and the states after it, when there may be as many;
otherwise it refuses the automaton. -/
structure Lays (limit : Nat) (m : Assembly α) (n : Nat) (before : List State) (a : α)
    (after : List State) : Prop where
  /-- There are `n` more states. -/
  length_eq : after.length = before.length + n
  /-- It depends on their number alone whether the step is refused. -/
  run_eq : before.length ≤ limit → m before.toArray =
    if before.length + n ≤ limit then .ok (a, after.toArray) else .error .tooComplex

namespace Lays

/-- What is added behind the states before. -/
theorem length_part {m : Assembly α} {part : List State}
    (h : Lays limit m n before a (before ++ part)) : part.length = n := by
  have hlength := h.length_eq
  rw [List.length_append] at hlength
  omega

theorem pure (limit : Nat) (a : α) (before : List State) :
    Lays limit (pure a) 0 before a before where
  length_eq := rfl
  run_eq h := by
    rw [Nat.add_zero, if_pos h]
    rfl

/-- The states of one step and those of the next. -/
theorem bind {m : Assembly α} {f : α → Assembly β} (h : Lays limit m n before a after)
    (hf : Lays limit (f a) k after b last) : Lays limit (m >>= f) (n + k) before b last where
  length_eq := by rw [hf.length_eq, h.length_eq, Nat.add_assoc]
  run_eq hle := by
    have hbind : (m >>= f) before.toArray = m before.toArray >>= fun p => f p.1 p.2 := rfl
    rw [hbind, h.run_eq hle]
    -- When the first step is refused there is no room for both of them.
    by_cases hfits : before.length + n ≤ limit
    · rw [if_pos hfits, ← Nat.add_assoc, ← h.length_eq]
      exact hf.run_eq (h.length_eq ▸ hfits)
    · rw [if_neg hfits, if_neg (by omega)]
      rfl

/-- What is yielded may be computed from what the step yields. -/
theorem yield {m : Assembly α} (h : Lays limit m n before a after) (f : α → β) :
    Lays limit (do return f (← m)) n before (f a) after := by
  rw [← Nat.add_zero n]
  exact h.bind (Lays.pure limit (f a) after)

theorem lay (limit : Nat) (st : State) (before : List State) :
    Lays limit (lay limit st) 1 before before.length (before ++ [st]) where
  length_eq := by simp
  run_eq _ := by
    simp only [Assembly.lay, List.size_toArray, List.push_toArray, Nat.lt_iff_add_one_le]

theorem connect (limit id target : Nat) (before : List State) :
    Lays limit (connect id target) 0 before () (before.modify id (State.connect target)) where
  length_eq := by simp
  run_eq h := by simp [Assembly.connect, h]

/-- The state behind `before` is led on. -/
theorem connect_state (limit target : Nat) (before : List State) (st : State)
    (more : List State) :
    Lays limit (Assembly.connect before.length target) 0 (before ++ st :: more) ()
      (before ++ st.connect target :: more) := by
  have hmodify : (before ++ st :: more).modify before.length (State.connect target) =
      before ++ st.connect target :: more := by
    induction before with
    | nil => rfl
    | cons _ before ih => simpa using ih
  exact hmodify ▸ connect limit before.length target (before ++ st :: more)

end Lays

/-! ### States that are still to be led on -/

/-- States of which one is still to be led on. When it is led on to a state they are as given. -/
structure Open (part : List State) (exit : Nat) (led : Nat → List State) : Prop where
  /-- The state is one of them. -/
  lt : exit < part.length
  /-- What they are when it is led on. -/
  modify_eq : ∀ next, part.modify exit (State.connect next) = led next

namespace Open

variable {part more : List State} {exit : Nat} {led : Nat → List State}

theorem length_eq (h : Open part exit led) (next : Nat) : (led next).length = part.length := by
  rw [← h.modify_eq, List.length_modify]

theorem single (st : State) : Open [st] 0 fun next => [st.connect next] where
  lt := by simp
  modify_eq _ := rfl

/-- Other states stand before the part. -/
theorem prepend (h : Open part exit led) (before : List State) :
    Open (before ++ part) (before.length + exit) fun next => before ++ led next where
  lt := by
    rw [List.length_append]
    exact Nat.add_lt_add_left h.lt _
  modify_eq next := by
    rw [← h.modify_eq]
    induction before with
    | nil => simp
    | cons st before ih => simpa [Nat.add_right_comm] using ih

/-- Other states stand behind the part. -/
theorem append (h : Open part exit led) (more : List State) :
    Open (part ++ more) exit fun next => led next ++ more where
  lt := by
    rw [List.length_append]
    exact Nat.lt_add_right _ h.lt
  modify_eq next := by
    rw [← h.modify_eq]
    apply List.ext_getElem?
    intro i
    -- The state that changes is in front of the others.
    have hlt := h.lt
    simp only [List.getElem?_modify, List.getElem?_append, List.length_modify]
    by_cases hi : i < part.length
    · simp only [hi, if_true]
    · have hne : exit ≠ i := by omega
      simp [hi, hne]

/-- The part is led on while other states stand around it. -/
theorem lays_connect (h : Open part exit led) (limit target : Nat) (before more : List State) :
    Lays limit (connect (before.length + exit) target) 0 (before ++ (part ++ more)) ()
      (before ++ (led target ++ more)) := by
  have hconnect := Lays.connect limit (before.length + exit) target (before ++ (part ++ more))
  rwa [((h.append more).prepend before).modify_eq] at hconnect

end Open

/-- A step lays down a fragment of `size` states wherever it is taken. It yields the first of them
as the entry, and leaves a state to be led on to what follows the fragment. -/
def Builds (limit : Nat) (m : Assembly Segment) (size : Nat) (fragment : Expr.Fragment) : Prop :=
  ∀ before : List State, ∃ part exit,
    Lays limit m size before ⟨before.length, before.length + exit⟩ (before ++ part) ∧
      Open part exit (fragment before.length)

/-- A single state is laid down as it will be when it is led on. -/
theorem builds_single (limit : Nat) (st : State) {fragment : Expr.Fragment}
    (h : ∀ base next, fragment base next = [st.connect next]) :
    Builds limit (single limit st) 1 fragment := by
  intro before
  rw [show fragment before.length = fun next => [st.connect next] from funext (h _)]
  exact ⟨[st], 0, (Lays.lay limit st before).yield fun id => Segment.mk id id, Open.single st⟩

/-! ### Chains of copies -/

section Copies

variable {m : Assembly Segment} {size : Nat} {fragment : Expr.Fragment}

/-- A fragment is laid down behind a part, and the part is led on to it. Together they are a part
that is still to be led on. -/
theorem Builds.follow (h : Builds limit m size fragment) (before : List State) {part : List State}
    {exit : Nat} {led : Nat → List State} (hopen : Open part exit led) :
    ∃ copy last, copy.length = size ∧
      Lays limit m size (before ++ part)
        ⟨before.length + part.length, before.length + (part.length + last)⟩
        (before ++ (part ++ copy)) ∧
      Lays limit (connect (before.length + exit) (before.length + part.length)) 0
        (before ++ (part ++ copy)) () (before ++ (led (before.length + part.length) ++ copy)) ∧
      Open (led (before.length + part.length) ++ copy) (part.length + last) fun next =>
        led (before.length + part.length) ++ fragment (before.length + part.length) next := by
  obtain ⟨copy, last, hcopy, hlast⟩ := h (before ++ part)
  have hlength := hcopy.length_part
  simp only [List.length_append, List.append_assoc, Nat.add_assoc] at hcopy hlast
  refine ⟨copy, last, hlength, hcopy, hopen.lays_connect limit _ before copy, ?_⟩
  simpa only [hopen.length_eq] using hlast.prepend (led (before.length + part.length))

/-- Copies are laid down behind a part that is led on to the first of them. -/
theorem lays_copies (h : Builds limit m size fragment) (n : Nat) (before : List State)
    {part : List State} {exit : Nat} {led : Nat → List State} (hopen : Open part exit led) :
    ∃ part' exit',
      Lays limit (copies m n (before.length + exit)) (n * size) (before ++ part)
        (before.length + exit') (before ++ part') ∧
      Open part' exit' fun next =>
        led (Expr.Fragment.entry (n == 0) (before.length + part.length) next) ++
          Expr.Fragment.copies fragment size n (before.length + part.length) next := by
  induction n generalizing part exit led with
  | zero =>
    refine ⟨part, exit, ?_, by simpa [Expr.Fragment.entry, Expr.Fragment.copies] using hopen⟩
    rw [copies, Nat.zero_mul]
    exact Lays.pure limit _ _
  | succ n ih =>
    obtain ⟨copy, last, hsize, hcopy, hconnect, hnext⟩ := h.follow before hopen
    obtain ⟨part', exit', hrest, hopen'⟩ := ih hnext
    refine ⟨part', exit', ?_, ?_⟩
    · rw [copies, show (n + 1) * size = size + (0 + n * size) by rw [Nat.add_mul]; omega]
      exact hcopy.bind (hconnect.bind hrest)
    · rw [List.length_append, hopen.length_eq, hsize, ← Nat.add_assoc] at hopen'
      simpa [Expr.Fragment.entry, Expr.Fragment.copies] using hopen'

/-- Copies that may be left before each of them are laid down behind a part. Leaving them leads to
the state where the last of them is led on to. -/
theorem lays_optionals (h : Builds limit m size fragment) (join n : Nat) (before : List State)
    {part : List State} {exit : Nat} {led : Nat → List State} (hopen : Open part exit led) :
    ∃ part' exit',
      Lays limit (optionals limit m join n (before.length + exit)) (n * (1 + size)) (before ++ part)
        (before.length + exit') (before ++ part') ∧
      ∃ led', Open part' exit' led' ∧
        led' join = led (Expr.Fragment.entry (n == 0) (before.length + part.length) join) ++
          Expr.Fragment.optionals fragment size n (before.length + part.length) join := by
  induction n generalizing part exit led with
  | zero =>
    refine ⟨part, exit, ?_, led, hopen, by simp [Expr.Fragment.entry, Expr.Fragment.optionals]⟩
    rw [optionals, Nat.zero_mul]
    exact Lays.pure limit _ _
  | succ n ih =>
    have hlay := Lays.lay limit (.branch []) (before ++ part)
    have hconnect := hopen.lays_connect limit (before.length + part.length) before [.branch []]
    obtain ⟨copy, last, hcopy, hlast⟩ :=
      h (before ++ (led (before.length + part.length) ++ [.branch []]))
    have hlength := hcopy.length_eq
    simp only [List.length_append, List.append_assoc, List.length_singleton, hopen.length_eq,
      ← Nat.add_assoc] at hlay hcopy hlast hlength
    -- The branching state gets the copy as its first target, and then the way out.
    have hbranch (targets : List Nat) (target : Nat) :
        Lays limit (connect (before.length + part.length) target) 0
          (before ++ (led (before.length + part.length) ++ (.branch targets :: copy))) ()
          (before ++ (led (before.length + part.length) ++
            (.branch (targets ++ [target]) :: copy))) := by
      simpa [hopen.length_eq, State.connect] using Lays.connect_state limit target
        (before ++ led (before.length + part.length)) (.branch targets) copy
    have hnext := hlast.prepend (led (before.length + part.length) ++
      [.branch [before.length + part.length + 1, join]])
    obtain ⟨part', exit', hrest, led', hopen', hled⟩ := ih hnext
    refine ⟨part', exit', ?_, led', hopen', ?_⟩
    · simp only [List.length_append, List.length_singleton, hopen.length_eq, ← Nat.add_assoc,
        List.append_assoc, List.singleton_append] at hrest hcopy
      rw [optionals, show (n + 1) * (1 + size) = 1 + (0 + (size + (0 + (0 + n * (1 + size))))) by
        rw [Nat.add_mul]; omega]
      exact hlay.bind (hconnect.bind (hcopy.bind ((hbranch [] _).bind
        ((hbranch _ join).bind hrest))))
    · rw [hled]
      have hbase : before.length + (led (before.length + part.length) ++
          [State.branch [before.length + part.length + 1, join]] ++ copy).length =
            before.length + part.length + 1 + size := by
        simp only [List.length_append, List.length_singleton, hopen.length_eq]
        omega
      rw [hbase]
      simp [Expr.Fragment.entry, Expr.Fragment.optionals]

/-! ### Repetitions -/

/-- A loop that may be left at once. -/
theorem builds_star (h : Builds limit m size fragment) :
    Builds limit (repeated limit m 0 none) (2 + size) fun base next =>
      .skip (base + 1) :: .branch [base + 2, next] :: fragment (base + 2) (base + 1) := by
  intro before
  have hentry := Lays.lay limit (.skip unconnected) before
  have hbranch := Lays.lay limit (.branch []) (before ++ [.skip unconnected])
  have hskip := Lays.connect_state limit (before.length + 1) before (.skip unconnected) [.branch []]
  obtain ⟨copy, last, hcopy, hlast⟩ := h (before ++ [.skip (before.length + 1), .branch []])
  have hpass := Lays.connect_state limit (before.length + 2) (before ++ [.skip (before.length + 1)])
    (.branch []) copy
  have hloop := hlast.lays_connect limit (before.length + 1)
    (before ++ [.skip (before.length + 1), .branch [before.length + 2]]) []
  refine ⟨.skip (before.length + 1) :: .branch [before.length + 2] ::
    fragment (before.length + 2) (before.length + 1), 1, ?_, by simp, fun next => by
      simp [State.connect]⟩
  simp only [List.length_append, List.length_cons, List.length_nil, List.append_assoc,
    List.cons_append, List.nil_append, List.append_nil, State.connect, Nat.zero_add,
    Nat.reduceAdd] at *
  rw [repeated, show 2 + size = 1 + (1 + (0 + (size + (0 + 0)))) by omega]
  exact hentry.bind (hbranch.bind (hskip.bind (hcopy.bind (hpass.bind
    (hloop.yield fun _ => Segment.mk before.length (before.length + 1))))))

/-- Before a chain of copies its first state is entered, also when the chain is empty and leads on
to what comes behind it. -/
theorem entry_mul (n base size : Nat) :
    Expr.Fragment.entry (n == 0) base (base + n * size) = base := by
  cases n <;> simp [Expr.Fragment.entry]

/-- A body is laid down behind a part, with a branching state after it that leads back to it. -/
theorem lays_loop (h : Builds limit m size fragment) (before : List State) {part : List State}
    {exit : Nat} {led : Nat → List State} (hopen : Open part exit led) (entry : Nat) :
    ∃ part' exit',
      Lays limit (do
          let body ← m
          connect (before.length + exit) body.entry
          let branch ← lay limit (.branch [])
          connect body.exit branch
          connect branch body.entry
          return Segment.mk entry branch) (size + 1) (before ++ part)
        ⟨entry, before.length + exit'⟩ (before ++ part') ∧
      Open part' exit' fun next =>
        led (before.length + part.length) ++
          (fragment (before.length + part.length) (before.length + part.length + size) ++
            [.branch [before.length + part.length, next]]) := by
  obtain ⟨copy, last, hsize, hcopy, hconnect, hlast⟩ := h.follow before hopen
  -- The copy begins at `body`, where the branch behind it leads back to.
  generalize hbody : before.length + part.length = body at *
  have hbranch := Lays.lay limit (.branch []) (before ++ (led body ++ copy))
  have hleave := hlast.lays_connect limit (body + size) before [.branch []]
  have hback := Lays.connect_state limit body (before ++ (led body ++ fragment body (body + size)))
    (.branch []) []
  have hlength : (fragment body (body + size)).length = size := by
    have := hlast.length_eq (body + size)
    simp only [List.length_append] at this
    omega
  refine ⟨led body ++ (fragment body (body + size) ++ [.branch [body]]), part.length + size, ?_, ?_⟩
  · simp only [List.length_append, List.append_assoc, hopen.length_eq, hsize, hlength,
      ← Nat.add_assoc, hbody, State.connect, List.nil_append] at hcopy hbranch hleave hback
    rw [← Nat.add_assoc before.length, hbody,
      show size + 1 = size + (0 + (1 + (0 + 0))) by omega]
    exact hcopy.bind (hconnect.bind (hbranch.bind (hleave.bind
      (hback.yield fun _ => Segment.mk entry (body + size)))))
  · have hopen' := ((Open.single (.branch [body])).prepend
      (fragment body (body + size))).prepend (led body)
    simpa [hopen.length_eq, hlength, State.connect] using hopen'

/-- A loop whose body is taken at least once; it is the last of the copies that must be taken. -/
theorem builds_plus (h : Builds limit m size fragment) (n : Nat) :
    Builds limit (repeated limit m (n + 1) none) (2 + (n + 1) * size) fun base next =>
      .skip (base + 1) :: (Expr.Fragment.copies fragment size n (base + 1) (base + 1 + n * size) ++
        fragment (base + 1 + n * size) (base + 1 + n * size + size) ++
          [.branch [base + 1 + n * size, next]]) := by
  intro before
  have hentry := Lays.lay limit (.skip unconnected) before
  obtain ⟨chain, exit, hchain, hexit⟩ := lays_copies h n before
    (Open.single (.skip unconnected))
  obtain ⟨part, last, hloop, hlast⟩ := lays_loop h before hexit before.length
  refine ⟨part, last, ?_, ?_⟩
  · rw [repeated, show 2 + (n + 1) * size = 1 + (n * size + (size + 1)) by rw [Nat.add_mul]; omega]
    exact hentry.bind (hchain.bind hloop)
  · have hlength := hchain.length_eq
    simp only [List.length_append, List.length_singleton] at hlength hlast
    rw [hlength, entry_mul] at hlast
    simpa [State.connect] using hlast

/-- Copies that must be taken and copies that may be taken. All ways out lead through one state,
which is laid down between them. -/
theorem builds_bounded (h : Builds limit m size fragment) {min max : Nat} (hlt : min < max) :
    Builds limit (repeated limit m min (some max)) (2 + min * size + (max - min) * (1 + size))
      fun base next =>
        .skip (Expr.Fragment.entry (min == 0) (base + 1) (base + 1 + min * size + 1)) ::
          (Expr.Fragment.copies fragment size min (base + 1) (base + 1 + min * size + 1) ++
            .skip next :: Expr.Fragment.optionals fragment size (max - min)
              (base + 1 + min * size + 1) (base + 1 + min * size)) := by
  intro before
  -- In the order in which they are laid: a first state, the copies up to the minimum, a join, and
  -- the copies that may be passed over.
  have hentry := Lays.lay limit (.skip unconnected) before
  obtain ⟨chain, exit, hchain, hexit⟩ := lays_copies h min before
    (Open.single (.skip unconnected))
  have hlength := hchain.length_eq
  simp only [List.length_append, List.length_singleton] at hlength hexit
  have hjoin := Lays.lay limit (.skip unconnected) (before ++ chain)
  obtain ⟨part, last, hoptionals, led, hlast, hled⟩ := lays_optionals h (before ++ chain).length
    (max - min) before (hexit.append [.skip unconnected])
  have hconnect := hlast.lays_connect limit (before ++ chain).length before []
  simp only [List.length_append, List.length_singleton, hlength, ← Nat.add_assoc,
    List.append_assoc, List.append_nil, Expr.Fragment.entry, Nat.sub_eq_zero_iff_le, beq_iff_eq,
    Nat.not_le.2 hlt, if_false] at hjoin hoptionals hconnect hled
  refine ⟨led (before.length + 1 + min * size), chain.length, ?_, ?_⟩
  · rw [repeated, hlength, show 2 + min * size + (max - min) * (1 + size) =
      1 + (min * size + (1 + ((max - min) * (1 + size) + 0))) by omega]
    simp only [hlt, if_true]
    exact hentry.bind (hchain.bind (hjoin.bind (hoptionals.bind
      (hconnect.yield fun _ => Segment.mk before.length (before.length + 1 + min * size)))))
  -- What is left open is the join, to which all copies beyond the minimum can leave.
  · have hopen := ((Open.single (.skip unconnected)).append
      (Expr.Fragment.optionals fragment size (max - min) (before.length + 1 + min * size + 1)
        (before.length + 1 + min * size))).prepend
      (.skip (Expr.Fragment.entry (min == 0) (before.length + 1)
        (before.length + 1 + min * size + 1)) ::
        Expr.Fragment.copies fragment size min (before.length + 1)
          (before.length + 1 + min * size + 1))
    have hchainlength := hexit.length_eq (before.length + 1 + min * size + 1)
    simp only [State.connect, List.singleton_append] at hchainlength
    rw [hchainlength] at hopen
    simpa [hled, State.connect, Expr.Fragment.entry] using hopen

/-- A given number of copies. -/
theorem builds_exactly (h : Builds limit m size fragment) {min max : Nat} (hle : ¬min < max) :
    Builds limit (repeated limit m min (some max)) (1 + min * size) fun base next =>
      .skip (Expr.Fragment.entry (min == 0) (base + 1) next) ::
        Expr.Fragment.copies fragment size min (base + 1) next := by
  intro before
  have hentry := Lays.lay limit (.skip unconnected) before
  obtain ⟨chain, exit, hchain, hexit⟩ := lays_copies h min before
    (Open.single (.skip unconnected))
  refine ⟨chain, exit, ?_, by simpa [State.connect] using hexit⟩
  rw [repeated]
  simp only [hle, if_false]
  exact hentry.bind (hchain.yield fun exit => Segment.mk before.length exit)

end Copies

end Assembly

end Automaton

namespace Expr

open Automaton Automaton.Assembly

/-- The copies of a repetition are laid down as its fragment. -/
theorem builds_loop (o : Options) {body : Expr}
    (h : Builds o.stateLimit (body.assemble o) body.stateCount (body.fragment o)) (min : Nat)
    (max : Option Nat) :
    Builds o.stateLimit ((loop body min max).assemble o) (loop body min max).stateCount
      ((loop body min max).fragment o) := by
  rw [assemble]
  cases max with
  | none =>
    cases min with
    | zero => simpa [stateCount, fragment] using builds_star h
    | succ n => simpa [stateCount, fragment] using builds_plus h n
  | some max =>
    by_cases hlt : min < max
    · simpa [stateCount, fragment, hlt] using builds_bounded h hlt
    · simpa [stateCount, fragment, hlt] using builds_exactly h hlt

/-- A group is laid down as its fragment. -/
theorem builds_group (o : Options) (index : Nat) {body : Expr}
    (h : Builds o.stateLimit (body.assemble o) body.stateCount (body.fragment o)) :
    Builds o.stateLimit ((group index body).assemble o) (group index body).stateCount
      ((group index body).fragment o) := by
  intro before
  let enter := State.enterGroup index (index + body.groupCount)
  let leave := State.leaveGroup index
  -- A state is connected once the one that it leads to is there.
  have henter := Lays.lay o.stateLimit (enter unconnected) before
  obtain ⟨copy, last, hcopy, hlast⟩ := h (before ++ [enter unconnected])
  have hsize := hcopy.length_part
  have hleave := Lays.lay o.stateLimit (leave unconnected) (before ++ enter unconnected :: copy)
  have hfirst := Lays.connect_state o.stateLimit (before.length + 1) before (enter unconnected)
    (copy ++ [leave unconnected])
  have hlead := hlast.lays_connect o.stateLimit (before.length + 1 + body.stateCount)
    (before ++ [enter (before.length + 1)]) [leave unconnected]
  have hopen := (Open.single (leave unconnected)).prepend (enter (before.length + 1) ::
    body.fragment o (before.length + 1) (before.length + 1 + body.stateCount))
  simp only [List.length_append, List.length_cons, List.length_nil, List.append_assoc,
    List.cons_append, List.nil_append, Nat.zero_add, hsize, ← Nat.add_assoc, length_fragment]
    at hcopy hleave hlead hopen
  rw [Nat.add_right_comm] at hleave
  refine ⟨_, body.stateCount + 1, ?_, hopen⟩
  rw [assemble, stateCount, Nat.add_comm body.stateCount 1, ← Nat.add_assoc before.length,
    show 2 + body.stateCount = 1 + (body.stateCount + (1 + (0 + 0))) by omega]
  exact henter.bind (hcopy.bind (hleave.bind (hfirst.bind
    (hlead.yield fun _ => Segment.mk before.length (before.length + 1 + body.stateCount)))))

mutual

/-- A tree without back-references is laid down as its fragment. -/
theorem builds_assemble (o : Options) (t : Expr) (h : t.hasBackref = false) :
    Builds o.stateLimit (t.assemble o) t.stateCount (t.fragment o) := by
  cases t with
  | concat items =>
    cases items with
    | nil => exact builds_single _ _ fun _ _ => rfl
    | cons first rest =>
      rw [hasBackref, hasBackrefAny, Bool.or_eq_false_iff] at h
      intro before
      -- The first item is left open for the others.
      obtain ⟨copy, last, hcopy, hlast⟩ := builds_assemble o first h.1 before
      obtain ⟨part, exit, hrest, hexit⟩ := lays_rest o rest h.2 before hlast
      have hlength : before.length + copy.length = before.length + first.stateCount := by
        simpa using hcopy.length_eq
      refine ⟨part, exit, ?_, by simpa [fragment, sequence, hlength] using hexit⟩
      rw [assemble, stateCount]
      exact hcopy.bind (hrest.yield fun exit => Segment.mk before.length exit)
  | alternation branches =>
    intro before
    -- The branch is laid first, and its targets are added as the branches are laid.
    have hbranch := Lays.lay o.stateLimit (.branch []) before
    have hjoin := Lays.lay o.stateLimit (.skip unconnected) (before ++ [.branch []])
    have hbranches := lays_branches o branches h before [] [] unconnected
    simp only [List.length_append, List.length_singleton, List.append_assoc, List.nil_append,
      List.cons_append, List.length_nil, Nat.add_zero] at hjoin hbranches
    refine ⟨.branch (branchStarts (before.length + 2) branches) :: .skip unconnected ::
      choices o branches (before.length + 2) (before.length + 1), 1, ?_, by simp, fun next => by
        simp [fragment, State.connect]⟩
    rw [assemble, stateCount, show 2 = 1 + 1 from rfl, Nat.add_assoc]
    exact hbranch.bind (hjoin.bind (hbranches.yield fun _ =>
      Segment.mk before.length (before.length + 1)))
  | loop body min max => exact builds_loop o (builds_assemble o body h) min max
  | group index body => exact builds_group o index (builds_assemble o body h)
  | backref n => cases h
  | empty => exact builds_single _ _ fun _ _ => rfl
  | anchor kind => exact builds_single _ _ fun _ _ => rfl
  | _ => exact builds_single _ _ fun _ _ => by rw [leafState, State.connect_consume]; rfl
termination_by structural t

/-- Trees are laid down one after the other behind a part that is led on to the first of them. -/
theorem lays_rest (o : Options) (ts : List Expr) (h : hasBackrefAny ts = false)
    (before : List State) {part : List State} {exit : Nat} {led : Nat → List State}
    (hopen : Open part exit led) :
    ∃ part' exit',
      Lays o.stateLimit (assembleRest o ts (before.length + exit)) (stateCountAll ts)
        (before ++ part) (before.length + exit') (before ++ part') ∧
      Open part' exit' fun next =>
        led (Fragment.entry ts.isEmpty (before.length + part.length) next) ++
          sequence o ts (before.length + part.length) next := by
  cases ts with
  | nil => exact ⟨part, exit, Lays.pure _ _ _, by simpa [Fragment.entry, sequence] using hopen⟩
  | cons t ts =>
    rw [hasBackrefAny, Bool.or_eq_false_iff] at h
    obtain ⟨copy, last, hsize, hcopy, hconnect, hlast⟩ :=
      (builds_assemble o t h.1).follow before hopen
    obtain ⟨part', exit', hrest, hopen'⟩ := lays_rest o ts h.2 before hlast
    refine ⟨part', exit', ?_, ?_⟩
    · rw [assembleRest, stateCountAll, ← Nat.zero_add (stateCountAll ts)]
      exact hcopy.bind (hconnect.bind hrest)
    · rw [List.length_append, hopen.length_eq, hsize, ← Nat.add_assoc] at hopen'
      simpa [Fragment.entry, sequence] using hopen'
termination_by structural ts

/-- Trees are laid down behind a branching state and a state after it, and become the targets of
the one and lead on to the other. -/
theorem lays_branches (o : Options) (ts : List Expr) (h : hasBackrefAny ts = false)
    (before rest : List State) (targets : List Nat) (p : Nat) :
    Lays o.stateLimit (assembleBranches o before.length (before.length + 1) ts) (stateCountAll ts)
      (before ++ .branch targets :: .skip p :: rest) ()
      (before ++ .branch (targets ++ branchStarts (before.length + 2 + rest.length) ts) ::
        .skip p ::
          (rest ++ choices o ts (before.length + 2 + rest.length) (before.length + 1))) := by
  cases ts with
  | nil =>
    simp only [branchStarts, choices, List.append_nil]
    exact Lays.pure _ _ _
  | cons t ts =>
    rw [hasBackrefAny, Bool.or_eq_false_iff] at h
    -- Each branch adds its first state to the targets, and is connected to the join.
    have hbase (targets : List Nat) :
        (before ++ .branch targets :: .skip p :: rest).length =
          before.length + 2 + rest.length := by
      simp only [List.length_append, List.length_cons]
      omega
    obtain ⟨copy, last, hcopy, hlast⟩ :=
      builds_assemble o t h.1 (before ++ .branch targets :: .skip p :: rest)
    have htarget := Lays.connect_state o.stateLimit (before.length + 2 + rest.length) before
      (.branch targets) (.skip p :: (rest ++ copy))
    have hjoin := hlast.lays_connect o.stateLimit (before.length + 1) (before ++
      .branch (targets ++ [before.length + 2 + rest.length]) :: .skip p :: rest) []
    have hrest := lays_branches o ts h.2 before
      (rest ++ t.fragment o (before.length + 2 + rest.length) (before.length + 1))
      (targets ++ [before.length + 2 + rest.length]) p
    rw [hbase] at hcopy hjoin
    simp only [hbase, State.connect, List.append_assoc, List.cons_append, List.nil_append,
      List.append_nil, List.length_append, length_fragment, ← Nat.add_assoc]
      at hcopy htarget hjoin hrest
    rw [assembleBranches, stateCountAll, branchStarts, choices,
      ← Nat.zero_add (stateCountAll ts), ← Nat.zero_add (0 + stateCountAll ts)]
    exact hcopy.bind (htarget.bind (hjoin.bind hrest))
termination_by structural ts

end

/-- A tree is laid down with the accepting state behind it, as the states of its automaton. -/
theorem lays_accepting (o : Options) (t : Expr) (h : t.hasBackref = false) :
    Lays o.stateLimit (t.assembleAccepting o) (t.stateCount + 1) [] ⟨0, t.stateCount⟩
      (t.fragment o 0 t.stateCount ++ [.accept]) := by
  obtain ⟨part, exit, hpart, hexit⟩ := builds_assemble o t h []
  have hsize := hpart.length_part
  have haccept := Lays.lay o.stateLimit .accept part
  have hconnect := hexit.lays_connect o.stateLimit t.stateCount [] [.accept]
  simp only [List.nil_append, List.length_nil, Nat.zero_add, hsize] at hpart haccept hconnect
  rw [assembleAccepting, ← Nat.add_zero (t.stateCount + 1), Nat.add_assoc]
  exact hpart.bind (haccept.bind (hconnect.yield fun _ => Segment.mk 0 t.stateCount))

/-! ### The options that do not matter -/

mutual

/-- A fragment depends on the options by the sets of its leaves alone. -/
theorem fragment_congr {o o' : Options} (h : ∀ t : Expr, t.byteSet? o = t.byteSet? o') (t : Expr) :
    t.fragment o = t.fragment o' := by
  ext1 base
  ext1 next
  cases t with
  | concat items => simp only [fragment, sequence_congr h items]
  | alternation branches => simp only [fragment, choices_congr h branches]
  | loop body min max => simp only [fragment, fragment_congr h body]
  | group index body => simp only [fragment, fragment_congr h body]
  | _ => simp only [fragment, leafState, h]
termination_by structural t

theorem sequence_congr {o o' : Options} (h : ∀ t : Expr, t.byteSet? o = t.byteSet? o')
    (ts : List Expr) : sequence o ts = sequence o' ts := by
  ext1 base
  ext1 next
  cases ts with
  | nil => simp only [sequence]
  | cons t ts => simp only [sequence, fragment_congr h t, sequence_congr h ts]
termination_by structural ts

theorem choices_congr {o o' : Options} (h : ∀ t : Expr, t.byteSet? o = t.byteSet? o')
    (ts : List Expr) : choices o ts = choices o' ts := by
  ext1 base
  ext1 next
  cases ts with
  | nil => simp only [choices]
  | cons t ts => simp only [choices, fragment_congr h t, choices_congr h ts]
termination_by structural ts

end

end Expr

/-- Whether an automaton is refused is told by the number of its states. When it is not refused it
is the automaton that is laid out at once. -/
theorem Automaton.assemble_eq (o : Options) (t : Expr) (h : t.hasBackref = false) :
    Automaton.assemble o t =
      if t.stateCount < o.stateLimit then .ok (Automaton.ofExpr o t) else .error .tooComplex := by
  have hrun := (t.lays_accepting o h).run_eq (Nat.zero_le _)
  simp only [List.length_nil, Nat.zero_add, ← Nat.lt_iff_add_one_le] at hrun
  rw [Automaton.assemble, hrun]
  split <;> rfl

/-- An expression with back-references is run as it stands; any other as its automaton, or not at
all. -/
theorem Engine.ofExpr_eq (o : Options) (t : Expr) :
    Engine.ofExpr o t =
      if t.hasBackref then .ok (.enumeration t)
      else if t.stateCount < o.stateLimit then .ok (.automaton (.ofExpr o t))
      else .error .tooComplex := by
  unfold Engine.ofExpr
  split
  · rfl
  · rename_i h
    rw [Automaton.assemble_eq o t (by simpa using h)]
    split <;> rfl

/-- Under one setting of the other options the `limit` decides alone whether an expression `t`
without back-references becomes an automaton: it does just when its states, of which there is one
more than `t.stateCount`, are no more than `limit`, and otherwise it is refused as too complex.
Which automaton `a` it becomes does not depend on the limit. -/
theorem Engine.ofExpr_stateLimit (t : Expr) (h : t.hasBackref = false) (o : Options) :
    ∃ a : Automaton, a.states.size = t.stateCount + 1 ∧
      ∀ limit, Engine.ofExpr { o with stateLimit := limit } t =
        if t.stateCount + 1 ≤ limit then .ok (.automaton a) else .error .tooComplex := by
  refine ⟨.ofExpr o t, Automaton.size_ofExpr o t, fun limit => ?_⟩
  have hfragment : t.fragment { o with stateLimit := limit } = t.fragment o :=
    Expr.fragment_congr (fun t => by cases t <;> rfl) t
  have hautomaton : Automaton.ofExpr { o with stateLimit := limit } t = .ofExpr o t := by
    rw [Automaton.ofExpr, hfragment, Automaton.ofExpr]
  rw [ofExpr_eq, hautomaton, h]
  rfl

/-- `(a){1,3}` has 14 states: it is accepted up to that limit, and 13 are too few. -/
theorem Engine.ofExpr_stateLimit_repeated_group :
    let t : Expr := .loop (.group 1 (.literal 97)) 1 (some 3)
    (∃ a : Automaton, a.states.size = 14 ∧
      Engine.ofExpr { stateLimit := 14 } t = .ok (.automaton a)) ∧
      Engine.ofExpr { stateLimit := 13 } t = .error .tooComplex := by
  intro t
  obtain ⟨a, hsize, hlimit⟩ := Engine.ofExpr_stateLimit t rfl {}
  exact ⟨⟨a, hsize, hlimit 14⟩, hlimit 13⟩

end PosixRegex
