import PosixRegex.Automaton.OfExpr
import PosixRegex.Proofs.Orderly

/-!
# Where the states of an automaton come from

Each state of a fragment belongs to a node of the tree: it reads for a leaf, tests an anchor, enters
or leaves a group, or chooses the way through an alternation or a loop. However often the fragment
of a node is copied, its states are of the same kinds. So what is true of the states that each node
has by itself is true of all states of the automaton but the accepting one.

- `Expr.Owns`: the states that a node has by itself.
- `Automaton.exists_owns`: the nodes that the states of an automaton belong to.
- `Automaton.nests_ofExpr`: a state that enters a group forgets the groups from that one on.
-/

namespace PosixRegex

namespace Expr

/-- A state that a node of a tree has in a fragment beside those of its children. -/
inductive Owns (o : Options) : Expr → Automaton.State → Prop
  | byte {t : Expr} {s : ByteSet} {b : UInt8} (next : Nat) :
      t.byteSet? o = some s → s.single? = some b → Owns o t (.byte b next)
  | set {t : Expr} {s : ByteSet} (next : Nat) :
      t.byteSet? o = some s → s.single? = none → Owns o t (.set s next)
  /-- Empty trees, alternations and loops lead on where they are entered or left. -/
  | skip (t : Expr) (next : Nat) : Owns o t (.skip next)
  | choose (branches : List Expr) (base : Nat) :
      Owns o (alternation branches) (.branch (branchStarts base branches))
  | pass (body : Expr) (min : Nat) (max : Option Nat) (again on : Nat) :
      Owns o (loop body min max) (.branch [again, on])
  | enter (index : Nat) (body : Expr) (next : Nat) :
      Owns o (group index body) (.enterGroup index (index + body.groupCount) next)
  | leave (index : Nat) (body : Expr) (next : Nat) :
      Owns o (group index body) (.leaveGroup index next)
  | test (kind : Anchor) (next : Nat) : Owns o (anchor kind) (.assertion kind next)
  | stuck (index : Nat) : Owns o (backref index) (.branch [])

namespace Fragment

variable {fragment : Fragment} {size n base next : Nat} {st : Automaton.State}

/-- The states of a chain of copies are those of the copies. -/
theorem exists_mem_of_mem_copies (h : st ∈ copies fragment size n base next) :
    ∃ base next, st ∈ fragment base next := by
  induction n generalizing base with
  | zero => exact absurd h List.not_mem_nil
  | succ n ih =>
    rcases List.mem_append.1 h with h | h
    · exact ⟨_, _, h⟩
    · exact ih h

/-- The states of a chain of copies that may be left out are those of the copies, and branches. -/
theorem exists_mem_of_mem_optionals (h : st ∈ optionals fragment size n base next) :
    (∃ x y, st = .branch [x, y]) ∨ ∃ base next, st ∈ fragment base next := by
  induction n generalizing base with
  | zero => exact absurd h List.not_mem_nil
  | succ n ih =>
    rcases List.mem_cons.1 h with rfl | h
    · exact .inl ⟨_, _, rfl⟩
    · rcases List.mem_append.1 h with h | h
      · exact .inr ⟨_, _, h⟩
      · exact ih h

end Fragment

variable {o : Options}

/-- The state of a leaf is its own, also when it compares with a single byte. -/
theorem owns_leafState {t : Expr} {s : ByteSet} (h : t.byteSet? o = some s) (next : Nat) :
    t.Owns o (leafState o t next) := by
  rw [leafState, h, Option.getD_some, Automaton.State.consume]
  split
  · rename_i b hb
    exact .byte next h hb
  · rename_i hnone
    exact .set next h hnone

/-- The states of the fragment of a loop are those of the copies of its body, and others that are
there to go round or on. -/
theorem exists_owns_of_mem_loop {body : Expr} {min : Nat} {max : Option Nat}
    {st : Automaton.State}
    (hbody : ∀ {base next}, st ∈ body.fragment o base next →
      ∃ u : Expr, u.IsPart (loop body min max) ∧ u.Owns o st)
    {base next : Nat} (h : st ∈ (loop body min max).fragment o base next) :
    ∃ u : Expr, u.IsPart (loop body min max) ∧ u.Owns o st := by
  have hcopies {size n base next : Nat}
      (h : st ∈ Fragment.copies (body.fragment o) size n base next) :
      ∃ u : Expr, u.IsPart (loop body min max) ∧ u.Owns o st := by
    obtain ⟨_, _, h⟩ := Fragment.exists_mem_of_mem_copies h
    exact hbody h
  -- Without an upper bound a loop is a star or a plus, with one it is an exact count or a range.
  cases max with
  | none =>
    simp only [fragment] at h
    split at h
    · rw [List.mem_cons, List.mem_cons] at h
      rcases h with rfl | rfl | h
      · exact ⟨_, .refl _, .skip _ _⟩
      · exact ⟨_, .refl _, .pass _ _ _ _ _⟩
      · exact hbody h
    · rw [List.mem_cons, List.mem_append, List.mem_append, List.mem_singleton] at h
      rcases h with rfl | (h | h) | rfl
      · exact ⟨_, .refl _, .skip _ _⟩
      · exact hcopies h
      · exact hbody h
      · exact ⟨_, .refl _, .pass _ _ _ _ _⟩
  | some max =>
    simp only [fragment] at h
    split at h
    · rw [List.mem_cons, List.mem_append, List.mem_cons] at h
      rcases h with rfl | h | rfl | h
      · exact ⟨_, .refl _, .skip _ _⟩
      · exact hcopies h
      · exact ⟨_, .refl _, .skip _ _⟩
      · rcases Fragment.exists_mem_of_mem_optionals h with ⟨x, y, rfl⟩ | ⟨_, _, h⟩
        · exact ⟨_, .refl _, .pass _ _ _ x y⟩
        · exact hbody h
    · rcases List.mem_cons.1 h with rfl | h
      · exact ⟨_, .refl _, .skip _ _⟩
      · exact hcopies h

mutual

/-- Each state of a fragment belongs to a part of the tree. -/
theorem exists_owns_of_mem_fragment {t : Expr} {base next : Nat} {st : Automaton.State}
    (h : st ∈ t.fragment o base next) : ∃ u : Expr, u.IsPart t ∧ u.Owns o st := by
  cases t with
  | empty =>
    rw [List.mem_singleton.1 h]
    exact ⟨_, .refl _, .skip _ next⟩
  | anchor kind =>
    rw [List.mem_singleton.1 h]
    exact ⟨_, .refl _, .test kind next⟩
  | backref index =>
    rw [List.mem_singleton.1 h]
    exact ⟨_, .refl _, .stuck index⟩
  | literal | any | set | named =>
    rw [List.mem_singleton.1 h]
    exact ⟨_, .refl _, owns_leafState rfl next⟩
  | concat items =>
    rw [fragment] at h
    split at h
    · rw [List.mem_singleton.1 h]
      exact ⟨_, .refl _, .skip _ next⟩
    · obtain ⟨t, ht, u, hu, howns⟩ := exists_owns_of_mem_sequence h
      exact ⟨u, .item ht hu, howns⟩
  | alternation branches =>
    rw [fragment, List.mem_cons, List.mem_cons] at h
    rcases h with rfl | rfl | h
    · exact ⟨_, .refl _, .choose branches (base + 2)⟩
    · exact ⟨_, .refl _, .skip _ next⟩
    · obtain ⟨t, ht, u, hu, howns⟩ := exists_owns_of_mem_choices h
      exact ⟨u, .branch ht hu, howns⟩
  | loop body min max =>
    refine exists_owns_of_mem_loop (fun hbody => ?_) h
    obtain ⟨u, hu, howns⟩ := exists_owns_of_mem_fragment hbody
    exact ⟨u, .body hu, howns⟩
  | group index body =>
    rw [fragment, List.mem_cons, List.mem_append, List.mem_singleton] at h
    rcases h with rfl | h | rfl
    · exact ⟨_, .refl _, .enter index body _⟩
    · obtain ⟨u, hu, howns⟩ := exists_owns_of_mem_fragment h
      exact ⟨u, .inside hu, howns⟩
    · exact ⟨_, .refl _, .leave index body next⟩
termination_by structural t

/-- The states of several fragments, each leading on to the next, belong to parts of the trees. -/
theorem exists_owns_of_mem_sequence {ts : List Expr} {base next : Nat} {st : Automaton.State}
    (h : st ∈ sequence o ts base next) : ∃ t ∈ ts, ∃ u : Expr, u.IsPart t ∧ u.Owns o st := by
  cases ts with
  | nil => exact absurd h List.not_mem_nil
  | cons t ts =>
    rw [sequence] at h
    rcases List.mem_append.1 h with h | h
    · exact ⟨t, List.mem_cons_self, exists_owns_of_mem_fragment h⟩
    · obtain ⟨u, hu, howns⟩ := exists_owns_of_mem_sequence h
      exact ⟨u, List.mem_cons_of_mem t hu, howns⟩
termination_by structural ts

/-- The states of the fragments of branches belong to parts of the branches. -/
theorem exists_owns_of_mem_choices {ts : List Expr} {base next : Nat} {st : Automaton.State}
    (h : st ∈ choices o ts base next) : ∃ t ∈ ts, ∃ u : Expr, u.IsPart t ∧ u.Owns o st := by
  cases ts with
  | nil => exact absurd h List.not_mem_nil
  | cons t ts =>
    rw [choices] at h
    rcases List.mem_append.1 h with h | h
    · exact ⟨t, List.mem_cons_self, exists_owns_of_mem_fragment h⟩
    · obtain ⟨u, hu, howns⟩ := exists_owns_of_mem_choices h
      exact ⟨u, List.mem_cons_of_mem t hu, howns⟩
termination_by structural ts

end

end Expr

/-- A state of an automaton is the accepting one, or belongs to a part of the tree. -/
theorem Automaton.exists_owns {o : Options} {t : Expr} {q : Nat} {st : State}
    (h : (ofExpr o t).states[q]? = some st) :
    q = (ofExpr o t).accept ∧ st = .accept ∨
      q < (ofExpr o t).accept ∧ ∃ u : Expr, u.IsPart t ∧ u.Owns o st := by
  have hlength := Expr.length_fragment o t 0 t.stateCount
  rw [ofExpr, List.getElem?_toArray] at h
  by_cases hlt : q < t.stateCount
  · rw [List.getElem?_append_left (by rwa [hlength])] at h
    exact .inr ⟨hlt, Expr.exists_owns_of_mem_fragment (List.mem_of_getElem? h)⟩
  · rw [List.getElem?_append_right (by omega), hlength, List.getElem?_singleton] at h
    split at h <;> cases h
    exact .inl ⟨show q = t.stateCount by omega, rfl⟩

/-! ### Ranges of groups -/

namespace Automaton

/-- What a state forgets when it enters a group begins with that group: `lastNested` is not less
than `group`. -/
def State.Nests : State → Prop
  | .enterGroup group lastNested _ => group ≤ lastNested
  | _ => True

/-- All states of an automaton forget the groups that they enter. -/
def Nests (a : Automaton) : Prop := ∀ st ∈ a.states, st.Nests

theorem Nests.state {a : Automaton} (h : a.Nests) {q : Nat} {st : State}
    (hq : a.states[q]? = some st) : st.Nests := h st (Array.mem_of_getElem? hq)

/-- The automaton of a tree forgets with a group those inside it, which are numbered from the group
on. -/
theorem nests_ofExpr (o : Options) (t : Expr) : (ofExpr o t).Nests := by
  intro st hst
  obtain ⟨q, hq⟩ := Array.mem_iff_getElem?.1 hst
  rcases exists_owns hq with ⟨-, rfl⟩ | ⟨-, u, -, howns⟩
  · trivial
  · cases howns with
    | enter index body next => exact Nat.le_add_right index body.groupCount
    | _ => trivial

end Automaton

end PosixRegex
