import PosixRegex.Proofs.Recognition

/-!
# Reading on after an error

The state of a reader outlives an error: the next call takes up the pattern where the last one
stopped, with groups still open that are never closed. What holds of the state after any number of
calls is `Parser.Regular`. A call that does not stand in front of a stray closing parenthesis or at
the end of the pattern takes a byte at least, and one that does changes nothing, so the answers stay
the same after as many calls as there are bytes.

Main statement: `Parser.session_spec`.
-/

namespace PosixRegex.Parser

variable {α : Type} {s s' : Parser} {levels : Nat} {group : Reader Expr}

/-! ### Calls that change nothing -/

section Branches

variable (hmoves : Proceeds levels group)

include hmoves

/-- Nothing is read as a branch in front of a byte that ends one; a closing parenthesis is refused
where no group is open. -/
theorem branch_of_stop (h : ∀ b ∈ s.rest.head?, Role.ofByte b = .bar ∨ Role.ofByte b = .close) :
    branch group s =
      if s.depth = 0 ∧ s.rest.head?.map Role.ofByte = some .close then .error .parenthesesBalance s
      else .ok .empty s := by
  have hitems : manyWhile (fun b => Role.ofByte b ≠ .bar ∧ Role.ofByte b ≠ .close) (piece group) s =
      .ok [] s := by
    refine (manyWhile_eq_ok_iff (moves_piece hmoves).2).2 ⟨fun b hb => decide_eq_false ?_, rfl⟩
    rintro ⟨hbar, hclose⟩
    exact (h b hb).elim hbar hclose
  rw [branch, bind_apply_of_ok hitems, get_bind_apply, peek?_bind_apply]
  split <;> rfl

/-- Nothing is read as branches at the end of the pattern or in front of a closing parenthesis. -/
theorem branches_of_stop (h : ∀ b ∈ s.rest.head?, Role.ofByte b = .close) :
    branches group s =
      if s.depth = 0 ∧ s.rest.head?.map Role.ofByte = some .close then .error .parenthesesBalance s
      else .ok .empty s := by
  have hfirst := branch_of_stop hmoves fun b hb => .inr (h b hb)
  have hothers : manyWhile (Role.ofByte · = .bar) (do let _ ← advance?; branch group) s =
      .ok [] s := by
    refine (manyWhile_eq_ok_iff (moves_barBranch hmoves).2).2 ⟨fun b hb => decide_eq_false ?_, rfl⟩
    rw [h b hb]
    exact nofun
  by_cases hrefused : s.depth = 0 ∧ s.rest.head?.map Role.ofByte = some .close
  · rw [if_pos hrefused] at hfirst ⊢
    simp only [branches, Bind.bind, EStateM.bind, hfirst]
  · rw [if_neg hrefused] at hfirst ⊢
    rw [branches, bind_apply_of_ok hfirst, bind_apply_of_ok hothers]
    rfl

end Branches

/-- All levels read branches, with one reader of groups or another. -/
theorem expression_eq_branches (levels : Nat) :
    ∃ group, expression levels = branches group ∧ Proceeds levels group := by
  cases levels with
  | zero => exact ⟨_, rfl, .throw _⟩
  | succ levels => exact ⟨_, rfl, moves_group (moves_expression levels)⟩

/-- At the end of the pattern a call reads the empty expression. -/
theorem parse_of_nil (h : s.rest = []) : parse s = .ok .empty s := by
  obtain ⟨group, heq, hmoves⟩ := expression_eq_branches (maxDepth - s.depth)
  have hread : branches group s = .ok .empty s := by
    rw [branches_of_stop hmoves (by rw [h]; exact nofun), if_neg]
    rw [h]
    exact nofun
  rw [parse, get_bind_apply, heq, bind_apply_of_ok hread, peek?_bind_apply, h]
  rfl

/-- A call stops in front of a closing parenthesis, whether groups are open or not. -/
theorem parse_of_close (h : s.rest.head?.map Role.ofByte = some .close) :
    parse s = .error .parenthesesBalance s := by
  obtain ⟨group, heq, hmoves⟩ := expression_eq_branches (maxDepth - s.depth)
  obtain ⟨b, hb, hclose⟩ := Option.map_eq_some_iff.1 h
  have hread := branches_of_stop (s := s) hmoves fun c hc => by
    cases hb.symm.trans hc
    exact hclose
  rw [parse, get_bind_apply, heq]
  -- Inside a group the branch ends before the parenthesis, and the call refuses what is left.
  split at hread
  · simp only [Bind.bind, EStateM.bind, hread]
  · rw [bind_apply_of_ok hread, peek?_bind_apply, hb]
    rfl

/-! ### Calls that take a byte -/

/-- Where the next byte has a property, it is read. -/
def Takes (p : UInt8 → Prop) (s s' : Parser) : Prop :=
  (∃ b ∈ s.rest.head?, p b) → s'.rest <:+ s.rest.tail

theorem Takes.trans {p : UInt8 → Prop} {s₁ : Parser} (h : Takes p s s₁)
    (h' : s'.rest <:+ s₁.rest) : Takes p s s' := fun hp => h'.trans (h hp)

/-- Repetition takes the byte with which it goes on. -/
theorem takes_manyWhile {x : Reader α} (hx : Proceeds levels x) (hc : Consumes x)
    (continues : UInt8 → Bool) :
    Moves (Takes (continues · = true)) (Takes (continues · = true)) (manyWhile continues x) := by
  have hfirst (allowance : List UInt8) : Consumes (do
      let a ← x
      let others ← many continues x allowance
      return a :: others) :=
    (Moves.after hx hc fun a => .bind (.many hx continues _) fun _ => .pure _).2
  -- With such a byte next the repetition starts with one item, which consumes.
  have hmany {s : Parser} (h : ∃ b ∈ s.rest.head?, continues b = true) :
      manyWhile continues x s = (do
        let a ← x
        let others ← many continues x s.rest.tail
        return a :: others : Reader (List α)) s := by
    obtain ⟨b, hb, hcontinues⟩ := h
    have hrest := (List.cons_head?_tail hb).symm
    rw [manyWhile, hrest, many, peek?_bind_apply, hb]
    dsimp only
    rw [if_pos hcontinues]
    rfl
  constructor
  · intro s s' as h hp
    rw [hmany hp] at h
    exact (hfirst _).of_ok h
  · intro s s' e h hp
    rw [hmany hp] at h
    exact (hfirst _).of_error h

section Branches

variable (hmoves : Proceeds levels group)

include hmoves

theorem takes_branch :
    Moves (Takes fun b => Role.ofByte b ≠ .bar ∧ Role.ofByte b ≠ .close)
      (Takes fun b => Role.ofByte b ≠ .bar ∧ Role.ofByte b ≠ .close) (branch group) := by
  have hitems := takes_manyWhile (moves_piece hmoves).1 (moves_piece hmoves).2
    fun b => Role.ofByte b ≠ .bar ∧ Role.ofByte b ≠ .close
  simp only [decide_eq_true_eq] at hitems
  refine hitems.seq (fun items => (?_ : ReadsOn _)) (fun h h' => h.trans h'.1) id
    fun h h' => h.trans h'.1
  refine .bind .get fun _ => .bind .peek? fun _ => ?_
  dsimp only
  split
  · exact .throw_bind _ _
  · exact .pure _

/-- Branches take the byte that they start with, be it a bar behind an empty one. -/
theorem takes_branches :
    Moves (Takes (Role.ofByte · ≠ .close)) (Takes (Role.ofByte · ≠ .close)) (branches group) := by
  have hbar := takes_manyWhile (moves_barBranch hmoves).1 (moves_barBranch hmoves).2
    (Role.ofByte · = .bar)
  simp only [decide_eq_true_eq] at hbar
  have hothers (t : Expr) : Moves (Takes (Role.ofByte · = .bar)) (Takes (Role.ofByte · = .bar)) (do
      let others ← manyWhile (Role.ofByte · = .bar) do
        let _ ← advance?
        branch group
      return Expr.ofBranches (t :: others)) :=
    hbar.seq (fun _ => (.pure _ : ReadsOn _)) (fun h h' => h.trans h'.1) id
      fun h h' => h.trans h'.1
  have hbehind (t : Expr) : Proceeds levels (do
      let others ← manyWhile (Role.ofByte · = .bar) do
        let _ ← advance?
        branch group
      return Expr.ofBranches (t :: others)) :=
    .bind (.manyWhile (moves_barBranch hmoves).1 _) fun _ => .pure _
  have hempty {s : Parser} {b : UInt8} (hb : b ∈ s.rest.head?) (h : Role.ofByte b = .bar) :
      branch group s = .ok .empty s := by
    have hb : s.rest.head? = some b := hb
    rw [branch_of_stop hmoves, if_neg]
    · rw [hb, Option.map_some, h]
      exact nofun
    · intro c hc
      cases hb.symm.trans hc
      exact .inl h
  -- In front of a bar the first branch is empty, and the bar is taken by what follows it.
  constructor
  · rintro s s' t h ⟨b, hb, hclose⟩
    by_cases hrole : Role.ofByte b = .bar
    · rw [branches, bind_apply_of_ok (hempty hb hrole)] at h
      exact (hothers _).of_ok h ⟨b, hb, hrole⟩
    · obtain ⟨u, s₁, hu, h⟩ := bind_eq_ok_iff.1 h
      have htaken := (takes_branch hmoves).of_ok hu ⟨b, hb, hrole, hclose⟩
      exact ((hbehind u).of_ok h).suffix.trans htaken
  · rintro s s' e h ⟨b, hb, hclose⟩
    by_cases hrole : Role.ofByte b = .bar
    · rw [branches, bind_apply_of_ok (hempty hb hrole)] at h
      exact (hothers _).of_error h ⟨b, hb, hrole⟩
    · rcases bind_eq_error_iff.1 h with hu | ⟨u, s₁, hu, h⟩
      · exact (takes_branch hmoves).of_error hu ⟨b, hb, hrole, hclose⟩
      · have htaken := (takes_branch hmoves).of_ok hu ⟨b, hb, hrole, hclose⟩
        exact ((hbehind u).of_error h).suffix.trans htaken

end Branches

/-- A call reads the byte in front of it unless this is a closing parenthesis. -/
theorem takes_parse :
    Moves (Takes (Role.ofByte · ≠ .close)) (Takes (Role.ofByte · ≠ .close)) parse := by
  have hend (levels : Nat) :
      Moves (Takes (Role.ofByte · ≠ .close)) (Takes (Role.ofByte · ≠ .close)) (do
        let t ← expression levels
        unless (← peek?).isNone do throw .parenthesesBalance
        return t) := by
    obtain ⟨group, heq, hmoves⟩ := expression_eq_branches levels
    rw [heq]
    refine (takes_branches hmoves).seq (fun t => (?_ : ReadsOn _)) (fun h h' => h.trans h'.1) id
      fun h h' => h.trans h'.1
    refine .bind .peek? fun _ => ?_
    dsimp only
    split
    · exact .pure _
    · exact .throw_bind _ _
  exact ⟨fun {s _ _} h => (hend (maxDepth - s.depth)).of_ok h,
    fun {s _ _} h => (hend (maxDepth - s.depth)).of_error h⟩

/-- A call closes the groups that it opens, or stops with no more groups open than may nest. -/
theorem moves_parse :
    Moves (Onward 0) (fun s s' => Onward (maxDepth - s.depth) s s') parse := by
  have hend (levels : Nat) : Proceeds levels (do
      let t ← expression levels
      unless (← peek?).isNone do throw .parenthesesBalance
      return t) := by
    refine .bind (moves_expression levels) fun t => .bind .peek? fun _ => ?_
    dsimp only
    split
    · exact .pure _
    · exact .throw_bind _ _
  exact ⟨fun {s _ _} h => (hend (maxDepth - s.depth)).of_ok h,
    fun {s _ _} h => (hend (maxDepth - s.depth)).of_error h⟩

/-! ### Calls one after the other -/

/-- The state that a call leaves, whatever it answers. -/
def afterCall (s : Parser) : Parser :=
  match parse s with
  | .ok _ s' => s'
  | .error _ s' => s'

/-- The state before the call with a given number, counted from 0. -/
def session (pattern : List UInt8) : Nat → Parser
  | 0 => ofPattern pattern
  | n + 1 => afterCall (session pattern n)

/-- The answer to the call with a given number. -/
def answer (pattern : List UInt8) (n : Nat) : Except Error Expr :=
  match parse (session pattern n) with
  | .ok t _ => .ok t
  | .error e _ => .error e

/-- How many bytes of the pattern have been read before a call. -/
def position (pattern : List UInt8) (n : Nat) : Nat :=
  pattern.length - (session pattern n).rest.length

/-- What holds between any two calls: the text that is left is the end of the pattern, each number
that was given out has its entry, and no more groups are open than may nest. -/
structure Regular (pattern : List UInt8) (s : Parser) : Prop where
  /-- The text that is left is the end of the pattern. -/
  suffix : s.rest <:+ pattern
  /-- Just the numbers that were given out have entries. -/
  size_closed : s.closed.size = s.nextGroup
  /-- No more groups are open than may nest. -/
  depth_le : s.depth ≤ 250

/-- Nothing is read any more: the pattern has ended, or a closing parenthesis is next. -/
def Stuck (s : Parser) : Prop := ∀ b ∈ s.rest.head?, Role.ofByte b = .close

variable {pattern : List UInt8} {t u : Expr} {m n : Nat}

theorem onward_afterCall (s : Parser) : Onward (maxDepth - s.depth) s (afterCall s) := by
  unfold afterCall
  split
  · rename_i h
    exact (moves_parse.of_ok h).mono (Nat.zero_le _)
  · rename_i h
    exact moves_parse.of_error h

theorem takes_afterCall (s : Parser) : Takes (Role.ofByte · ≠ .close) s (afterCall s) := by
  unfold afterCall
  split
  · rename_i h
    exact takes_parse.of_ok h
  · rename_i h
    exact takes_parse.of_error h

theorem Regular.afterCall (h : Regular pattern s) : Regular pattern (afterCall s) where
  suffix := (onward_afterCall s).suffix.trans h.suffix
  size_closed := (onward_afterCall s).size_closed h.size_closed
  depth_le := by
    have hadd : (Parser.afterCall s).depth ≤ s.depth + (250 - s.depth) :=
      (onward_afterCall s).depth_le_add
    have := h.depth_le
    omega

/-- The state is regular after any number of calls. -/
theorem regular_session (pattern : List UInt8) (n : Nat) : Regular pattern (session pattern n) := by
  induction n with
  | zero => exact ⟨List.suffix_refl _, rfl, Nat.zero_le _⟩
  | succ n ih => exact ih.afterCall

theorem answer_eq_ok_iff :
    answer pattern n = .ok t ↔ parse (session pattern n) = .ok t (session pattern (n + 1)) := by
  rw [answer, session, afterCall]
  split <;> rename_i h <;> simp [h]

/-- Numbers are only given out. -/
theorem nextGroup_mono (h : m ≤ n) :
    (session pattern m).nextGroup ≤ (session pattern n).nextGroup := by
  induction n, h using Nat.le_induction with
  | base => exact Nat.le_refl _
  | succ n _ ih => exact Nat.le_trans ih (onward_afterCall _).nextGroup_le

/-- The groups of a tree have the numbers that are given out in its call. -/
theorem numbered_of_answer (h : answer pattern n = .ok t) :
    t.groupIndices = List.range' (session pattern n).nextGroup t.groupCount ∧
      (session pattern (n + 1)).nextGroup = (session pattern n).nextGroup + t.groupCount := by
  have hsize := (regular_session pattern n).size_closed
  obtain ⟨-, hfits, hs'⟩ := (parse_eq_ok_iff hsize).1 (answer_eq_ok_iff.1 h)
  exact ⟨hfits.numbered, congrArg nextGroup hs'⟩

/-- Numbers of different calls are different, and those of the later one are greater. -/
theorem lt_of_answers (hlt : m < n) (ht : answer pattern m = .ok t) (hu : answer pattern n = .ok u)
    {i j : Nat} (hi : i ∈ t.groupIndices) (hj : j ∈ u.groupIndices) : i < j := by
  obtain ⟨ht, hnext⟩ := numbered_of_answer ht
  obtain ⟨hu, -⟩ := numbered_of_answer hu
  have hmono : (session pattern (m + 1)).nextGroup ≤ (session pattern n).nextGroup :=
    nextGroup_mono hlt
  rw [ht, List.mem_range'_1] at hi
  rw [hu, List.mem_range'_1] at hj
  omega

/-- A call that is stuck changes nothing. -/
theorem Stuck.afterCall (h : Stuck s) : afterCall s = s := by
  cases hrest : s.rest with
  | nil => rw [Parser.afterCall, parse_of_nil hrest]
  | cons b rest =>
    have hclose : s.rest.head?.map Role.ofByte = some .close := by
      rw [hrest, List.head?_cons, Option.map_some, h b (by rw [hrest]; rfl)]
    rw [Parser.afterCall, parse_of_close hclose]

theorem Stuck.session (h : Stuck (session pattern m)) (hle : m ≤ n) :
    session pattern n = session pattern m := by
  induction n, hle using Nat.le_induction with
  | base => rfl
  | succ n _ ih => rw [Parser.session, ih, h.afterCall]

/-- Each call takes a byte until one is stuck. -/
theorem stuck_or_le (pattern : List UInt8) (n : Nat) :
    Stuck (session pattern n) ∨ n + (session pattern n).rest.length ≤ pattern.length := by
  induction n with
  | zero => exact .inr (Nat.le_of_eq (Nat.zero_add _))
  | succ n ih =>
    by_cases hstuck : Stuck (session pattern n)
    · refine .inl ?_
      rw [hstuck.session (Nat.le_succ n)]
      exact hstuck
    · -- The next byte is no closing parenthesis, so the call takes it.
      have hle := ih.resolve_left hstuck
      simp only [Stuck, not_forall] at hstuck
      obtain ⟨b, hb, hclose⟩ := hstuck
      have htail := (takes_afterCall _ ⟨b, hb, hclose⟩).length_le
      have hpos := List.length_pos_of_mem (List.mem_of_mem_head? hb)
      rw [List.length_tail] at htail
      rw [session]
      omega

/-- After as many calls as there are bytes, no byte is read any more. -/
theorem stuck_session (pattern : List UInt8) : Stuck (session pattern pattern.length) := by
  refine (stuck_or_le pattern pattern.length).elim id fun hle => ?_
  have hnil : (session pattern pattern.length).rest = [] :=
    List.eq_nil_of_length_eq_zero (by omega)
  intro b hb
  rw [hnil] at hb
  cases hb

/-- From then on all answers are the same: the empty expression at the end of the pattern, and the
refusal of a closing parenthesis in front of one. -/
theorem answer_eventually (pattern : List UInt8) :
    (∀ n, pattern.length ≤ n → answer pattern n = .ok .empty) ∨
      ∀ n, pattern.length ≤ n → answer pattern n = .error .parenthesesBalance := by
  have hstuck := stuck_session pattern
  -- What is left where the calls are stuck decides between the two answers.
  cases hrest : (session pattern pattern.length).rest with
  | nil =>
    refine .inl fun n hn => ?_
    rw [answer, hstuck.session hn, parse_of_nil hrest]
  | cons b rest =>
    refine .inr fun n hn => ?_
    have hclose : (session pattern pattern.length).rest.head?.map Role.ofByte = some .close := by
      rw [hrest, List.head?_cons, Option.map_some, hstuck b (by rw [hrest]; rfl)]
    rw [answer, hstuck.session hn, parse_of_close hclose]

/-- Any number `n` of calls on the same reader, whatever they `answer`. What has been read is the
front of `pattern`, up to `position pattern n`, and never becomes shorter; just the numbers that
were given out have entries in `closed`, and at most 250 groups are open. A call that succeeds reads
to the end and closes the groups it opens; its groups have the numbers from `nextGroup` on, so those
of a later call are greater. After as many calls as the pattern has bytes the `answer` is always the
empty expression, or always that the parentheses are not balanced. -/
theorem session_spec (pattern : List UInt8) :
    (∀ n, (session pattern n).rest = pattern.drop (position pattern n) ∧
      position pattern n ≤ pattern.length ∧ position pattern n ≤ position pattern (n + 1)) ∧
    (∀ n, (session pattern n).closed.size = (session pattern n).nextGroup ∧
      (session pattern n).depth ≤ 250) ∧
    (∀ n t, answer pattern n = .ok t →
      (session pattern (n + 1)).depth = (session pattern n).depth ∧
      position pattern (n + 1) = pattern.length ∧
      t.groupIndices = List.range' (session pattern n).nextGroup t.groupCount) ∧
    (∀ m n t u, m < n → answer pattern m = .ok t → answer pattern n = .ok u →
      ∀ i ∈ t.groupIndices, ∀ j ∈ u.groupIndices, i < j) ∧
    ((∀ n, pattern.length ≤ n → answer pattern n = .ok .empty) ∨
      ∀ n, pattern.length ≤ n → answer pattern n = .error .parenthesesBalance) := by
  refine ⟨fun n => ⟨?_, Nat.sub_le _ _, ?_⟩, fun n => ?_, fun n t h => ⟨?_, ?_, ?_⟩, ?_, ?_⟩
  · exact (List.suffix_iff_eq_drop.1 (regular_session pattern n).suffix)
  · have := (onward_afterCall (session pattern n)).suffix.length_le
    exact Nat.sub_le_sub_left this _
  · exact ⟨(regular_session pattern n).size_closed, (regular_session pattern n).depth_le⟩
  · exact (moves_parse.of_ok (answer_eq_ok_iff.1 h)).depth_eq
  · have hsize := (regular_session pattern n).size_closed
    obtain ⟨-, -, hs'⟩ := (parse_eq_ok_iff hsize).1 (answer_eq_ok_iff.1 h)
    rw [position, hs']
    rfl
  · exact (numbered_of_answer h).1
  · exact fun m n t u hlt ht hu i hi j hj => lt_of_answers hlt ht hu hi hj
  · exact answer_eventually pattern

/-- In `(a{(b)` the first call stops behind the brace with a group open. The second one reads the
rest: its group has the second number, and the first group stays open. -/
theorem session_spec_brace :
    let pattern : List UInt8 := [40, 97, 123, 40, 98, 41]
    answer pattern 0 = .error .braceBalance ∧ answer pattern 1 = .ok (.group 2 (.literal 98)) ∧
      (session pattern 1).depth = 1 ∧ (session pattern 2).depth = 1 ∧ position pattern 2 = 6 := by
  intro pattern
  have hfirst : answer pattern 0 = .error .braceBalance := rfl
  have hsecond : answer pattern 1 = .ok (.group 2 (.literal 98)) := rfl
  have hdepth : (session pattern 1).depth = 1 := rfl
  obtain ⟨-, -, hok, -, -⟩ := session_spec pattern
  obtain ⟨hsame, hend, -⟩ := hok 1 _ hsecond
  exact ⟨hfirst, hsecond, hdepth, hsame.trans hdepth, hend⟩

end PosixRegex.Parser
