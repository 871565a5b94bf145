import PosixRegex.Automaton.OfExpr
import PosixRegex.Proofs.Recognition

/-!
# Trees with other group numbers

A tree that is read behind other groups has the numbers of its groups raised, and is otherwise the
tree that it would be by itself. So a pattern in parentheses is read as a group around the tree of
the pattern, with the groups in it raised by one.

In the automaton of such a tree the states are the same ones, further on and for the raised groups.

- `Expr.raise`: a tree with the numbers of its groups raised.
- `Grammar.Expression.raise`: it is written in the same way.
- `Expr.parse_parenthesized`: a pattern in parentheses.
- `Expr.fragment_raise`: its fragment, in terms of `Automaton.State.relocate`.
-/

namespace PosixRegex

namespace Expr

mutual

/-- A tree with the numbers of its groups raised. Back-references name the groups that they did
before. -/
def raise (n : Nat) : Expr → Expr
  | group index body => group (index + n) (body.raise n)
  | concat items => concat (raiseAll n items)
  | alternation branches => alternation (raiseAll n branches)
  | loop body min max => loop (body.raise n) min max
  | t => t
termination_by structural t => t

/-- Several trees with the numbers of their groups raised. -/
def raiseAll (n : Nat) : List Expr → List Expr
  | [] => []
  | t :: ts => t.raise n :: raiseAll n ts
termination_by structural ts => ts

end

variable {t : Expr} {n : Nat}

theorem raise_ofItems (n : Nat) (ts : List Expr) :
    (ofItems ts).raise n = ofItems (raiseAll n ts) := by
  match ts with
  | [] => rfl
  | [t] => rfl
  | _ :: _ :: _ => rfl

theorem raise_ofBranches (n : Nat) (ts : List Expr) :
    (ofBranches ts).raise n = ofBranches (raiseAll n ts) := by
  match ts with
  | [] => rfl
  | [t] => rfl
  | _ :: _ :: _ => rfl

theorem raise_of_isLeaf (h : t.isLeaf = true) : t.raise n = t := by
  cases t with
  | literal | any | set | named => rfl
  | _ => exact absurd h Bool.false_ne_true

@[simp]
theorem isEmpty_raiseAll (n : Nat) (ts : List Expr) : (raiseAll n ts).isEmpty = ts.isEmpty := by
  cases ts <;> rfl

/-! ### What the numbers do not matter for -/

mutual

/-- The numbers of the groups are raised. -/
theorem groupIndices_raise (n : Nat) (t : Expr) :
    (t.raise n).groupIndices = t.groupIndices.map (· + n) := by
  cases t with
  | group index body =>
    simp only [raise, groupIndices, List.map_cons, groupIndices_raise n body]
  | concat items => exact groupIndicesAll_raise n items
  | alternation branches => exact groupIndicesAll_raise n branches
  | loop body min max => exact groupIndices_raise n body
  | _ => rfl
termination_by structural t

theorem groupIndicesAll_raise (n : Nat) (ts : List Expr) :
    groupIndicesAll (raiseAll n ts) = (groupIndicesAll ts).map (· + n) := by
  cases ts with
  | nil => rfl
  | cons t ts =>
    simp only [raiseAll, groupIndicesAll, List.map_append, groupIndices_raise n t,
      groupIndicesAll_raise n ts]
termination_by structural ts

end

/-- There are as many groups as before. -/
@[simp]
theorem groupCount_raise (n : Nat) (t : Expr) : (t.raise n).groupCount = t.groupCount := by
  rw [← length_groupIndices, groupIndices_raise, List.length_map, length_groupIndices]

mutual

theorem nesting_raise (n : Nat) (t : Expr) : (t.raise n).nesting = t.nesting := by
  cases t with
  | group index body => exact congrArg (· + 1) (nesting_raise n body)
  | concat items => exact nestingAll_raise n items
  | alternation branches => exact nestingAll_raise n branches
  | loop body min max => exact nesting_raise n body
  | _ => rfl
termination_by structural t

theorem nestingAll_raise (n : Nat) (ts : List Expr) :
    nestingAll (raiseAll n ts) = nestingAll ts := by
  cases ts with
  | nil => rfl
  | cons t ts => simp only [raiseAll, nestingAll, nesting_raise n t, nestingAll_raise n ts]
termination_by structural ts

end

mutual

theorem hasBackref_raise (n : Nat) (t : Expr) : (t.raise n).hasBackref = t.hasBackref := by
  cases t with
  | group index body => exact hasBackref_raise n body
  | concat items => exact hasBackrefAny_raise n items
  | alternation branches => exact hasBackrefAny_raise n branches
  | loop body min max => exact hasBackref_raise n body
  | _ => rfl
termination_by structural t

theorem hasBackrefAny_raise (n : Nat) (ts : List Expr) :
    hasBackrefAny (raiseAll n ts) = hasBackrefAny ts := by
  cases ts with
  | nil => rfl
  | cons t ts =>
    simp only [raiseAll, hasBackrefAny, hasBackref_raise n t, hasBackrefAny_raise n ts]
termination_by structural ts

end

mutual

@[simp]
theorem stateCount_raise (n : Nat) (t : Expr) : (t.raise n).stateCount = t.stateCount := by
  cases t with
  | group index body => simp only [raise, stateCount, stateCount_raise n body]
  | concat items =>
    simp only [raise, stateCount, isEmpty_raiseAll, stateCountAll_raise n items]
  | alternation branches => simp only [raise, stateCount, stateCountAll_raise n branches]
  | loop body min max =>
    cases max <;> simp only [raise, stateCount, stateCount_raise n body]
  | _ => rfl
termination_by structural t

theorem stateCountAll_raise (n : Nat) (ts : List Expr) :
    stateCountAll (raiseAll n ts) = stateCountAll ts := by
  cases ts with
  | nil => rfl
  | cons t ts =>
    simp only [raiseAll, stateCountAll, stateCount_raise n t, stateCountAll_raise n ts]
termination_by structural ts

end

mutual

/-- A tree without back-references names no group. -/
theorem refersBack_of_hasBackref_eq_false (t : Expr) (h : t.hasBackref = false)
    (closed : Set Nat) : t.RefersBack closed := by
  cases t with
  | group index body => exact refersBack_of_hasBackref_eq_false body h closed
  | concat items => exact refersBackAll_of_hasBackrefAny_eq_false items h closed
  | alternation branches => exact refersBackAll_of_hasBackrefAny_eq_false branches h closed
  | loop body min max => exact refersBack_of_hasBackref_eq_false body h closed
  | backref index => cases h
  | _ => trivial
termination_by structural t

theorem refersBackAll_of_hasBackrefAny_eq_false (ts : List Expr) (h : hasBackrefAny ts = false)
    (closed : Set Nat) : RefersBackAll ts closed := by
  cases ts with
  | nil => trivial
  | cons t ts =>
    rw [hasBackrefAny, Bool.or_eq_false_iff] at h
    exact ⟨refersBack_of_hasBackref_eq_false t h.1 closed,
      refersBackAll_of_hasBackrefAny_eq_false ts h.2 _⟩
termination_by structural ts

end

/-- A tree without back-references fits behind other groups when its numbers are raised. -/
theorem Fits.raise {next levels : Nat} {closed : Set Nat} (h : t.Fits next levels closed)
    (hback : t.hasBackref = false) (n levels' : Nat) (hlevels : t.nesting ≤ levels')
    (closed' : Set Nat) : (t.raise n).Fits (next + n) levels' closed' where
  numbered := by
    rw [groupIndices_raise, h.numbered, groupCount_raise, Nat.add_comm next, ← List.map_add_range']
    simp only [Nat.add_comm n]
  nesting_le := by rwa [nesting_raise]
  refersBack := refersBack_of_hasBackref_eq_false _ ((hasBackref_raise n t).trans hback) closed'

end Expr

/-! ### Texts -/

namespace Grammar

mutual

/-- The numbers of groups are not written, so a tree with other numbers is written in the same
way. -/
theorem Expression.raise (n : Nat) {w : List UInt8} {t : Expr} :
    Expression w t → Expression w (t.raise n)
  | .ofBranches h => Expr.raise_ofBranches n _ ▸ .ofBranches (h.raise n)

theorem Branches.raise (n : Nat) {w : List UInt8} {ts : List Expr} :
    Branches w ts → Branches w (Expr.raiseAll n ts)
  | .last h => by
    rw [Expr.raiseAll, Expr.raise_ofItems]
    exact .last (h.raise n)
  | .bar h hs => by
    rw [Expr.raiseAll, Expr.raise_ofItems]
    exact .bar (h.raise n) (hs.raise n)

theorem Pieces.raise (n : Nat) {w : List UInt8} {ts : List Expr} :
    Pieces w ts → Pieces w (Expr.raiseAll n ts)
  | .nil => .nil
  | .cons h hs => .cons (h.raise n) (hs.raise n)

theorem Piece.raise (n : Nat) {w : List UInt8} {t : Expr} : Piece w t → Piece w (t.raise n)
  | .once h => .once (h.raise n)
  | .repeated h hbounds => .repeated (h.raise n) hbounds

theorem Atom.raise (n : Nat) {w : List UInt8} {t : Expr} : Atom w t → Atom w (t.raise n)
  | .group index h => .group (index + n) (h.raise n)
  | .bracket h => (Expr.raise_of_isLeaf (Parser.isLeaf_of_bracket h)).symm ▸ .bracket h
  | .escape (.literal h) => .escape (.literal h)
  | .escape (.backref h₁ h₉) => .escape (.backref h₁ h₉)
  | .any => .any
  | .lineStart => .lineStart
  | .lineEnd => .lineEnd
  | .literal h => .literal h

end

/-- An expression in parentheses is an expression. -/
theorem Expression.parenthesized {w : List UInt8} {t : Expr} (h : Expression w t) (index : Nat) :
    Expression ('('.toUInt8 :: (w ++ [')'.toUInt8])) (.group index t) := by
  have hpieces := Pieces.cons (.once (.group index h)) .nil
  rw [List.append_nil] at hpieces
  exact .ofBranches (.last hpieces)

end Grammar

namespace Expr

/-- A pattern in parentheses is read as a group around the tree of the pattern, whose own groups
come after it. -/
theorem parse_parenthesized {pattern : List UInt8} {t : Expr} (h : parse pattern = .ok t)
    (hback : t.hasBackref = false) (hnesting : t.nesting ≤ 249) :
    parse ('('.toUInt8 :: (pattern ++ [')'.toUInt8])) = .ok (group 1 (t.raise 1)) := by
  obtain ⟨hexpression, hfits⟩ := parse_eq_ok_iff.1 h
  rw [parse_eq_ok_iff]
  exact ⟨(hexpression.raise 1).parenthesized 1,
    Fits.group_iff.2 ⟨rfl, hfits.raise hback 1 249 hnesting ∅⟩⟩

end Expr

/-! ### Fragments -/

namespace Automaton

namespace State

/-- A state further on, and for raised groups. -/
def relocate (d n : Nat) : State → State
  | byte b next => byte b (next + d)
  | set s next => set s (next + d)
  | branch targets => branch (targets.map (· + d))
  | enterGroup group lastNested next => enterGroup (group + n) (lastNested + n) (next + d)
  | leaveGroup group next => leaveGroup (group + n) (next + d)
  | assertion anchor next => assertion anchor (next + d)
  | skip next => skip (next + d)
  | accept => accept

theorem relocate_consume (d n : Nat) (s : ByteSet) (next : Nat) :
    (consume s next).relocate d n = consume s (next + d) := by
  unfold consume
  split <;> rfl

/-- A state further on reads the same bytes. -/
theorem step?_relocate (d n : Nat) (b : UInt8) (st : State) :
    (st.relocate d n).step? b = (st.step? b).map (· + d) := by
  cases st with
  | byte a next =>
    simp only [relocate, step?]
    split <;> rfl
  | set s next =>
    simp only [relocate, step?]
    split <;> rfl
  | _ => rfl

end State

end Automaton

namespace Expr

namespace Fragment

theorem entry_add (none : Bool) (base next d : Nat) :
    entry none (base + d) (next + d) = entry none base next + d := by
  cases none <;> rfl

variable {f f' : Fragment} {R : Automaton.State → Automaton.State} {d : Nat}

/-- Copies further on. -/
theorem copies_map (h : ∀ base next, f' (base + d) (next + d) = (f base next).map R)
    (size n base next : Nat) :
    copies f' size n (base + d) (next + d) = (copies f size n base next).map R := by
  induction n generalizing base with
  | zero => rfl
  | succ n ih =>
    rw [copies, copies, List.map_append, ← h, ← entry_add, Nat.add_right_comm base d size, ih]

/-- Optional copies further on. -/
theorem optionals_map (h : ∀ base next, f' (base + d) (next + d) = (f base next).map R)
    (hbranch : ∀ targets, R (.branch targets) = .branch (targets.map (· + d)))
    (size n base next : Nat) :
    optionals f' size n (base + d) (next + d) = (optionals f size n base next).map R := by
  induction n generalizing base with
  | zero => rfl
  | succ n ih =>
    rw [optionals, optionals, List.map_cons, List.map_append, hbranch, ← h, ← entry_add,
      Nat.add_right_comm base d 1, Nat.add_right_comm (base + 1) d size, ih]
    rfl

end Fragment

open Automaton

theorem branchStarts_raise (n d base : Nat) (ts : List Expr) :
    branchStarts (base + d) (raiseAll n ts) = (branchStarts base ts).map (· + d) := by
  induction ts generalizing base with
  | nil => rfl
  | cons t ts ih =>
    rw [raiseAll, branchStarts, branchStarts, List.map_cons, stateCount_raise,
      Nat.add_right_comm base d, ih]

mutual

/-- The fragment of a tree with raised groups has the same states for the raised groups, also when
it stands further on. -/
theorem fragment_raise (o : Options) (n d : Nat) (t : Expr) (base next : Nat) :
    (t.raise n).fragment o (base + d) (next + d) =
      (t.fragment o base next).map (State.relocate d n) := by
  -- Each state is as before, and where it leads to is moved on with it.
  cases t with
  | group index body =>
    simp only [raise, fragment, List.map_cons, List.map_append, List.map_nil, State.relocate,
      stateCount_raise, groupCount_raise, Nat.add_right_comm base d, Nat.add_right_comm _ d,
      Nat.add_right_comm index n, fragment_raise o n d body]
  | concat items =>
    simp only [raise, fragment, isEmpty_raiseAll]
    split
    · rfl
    · exact sequence_raise o n d items base next
  | alternation branches =>
    simp only [raise, fragment, List.map_cons, State.relocate, Nat.add_right_comm base d,
      branchStarts_raise, choices_raise o n d branches]
  | loop body min max =>
    have hbody := fragment_raise o n d body
    cases max with
    | none =>
      simp only [raise, fragment, stateCount_raise, Nat.add_right_comm base d]
      split
      · simp only [List.map_cons, State.relocate, hbody, List.map_nil]
      · simp only [Nat.add_right_comm _ d, List.map_cons, List.map_append, State.relocate,
          List.map_nil, hbody, Fragment.copies_map hbody]
    | some max =>
      simp only [raise, fragment, stateCount_raise, Nat.add_right_comm base d]
      split
      · simp only [Nat.add_right_comm _ d, Fragment.entry_add, List.map_cons, List.map_append,
          State.relocate, Fragment.copies_map hbody,
          Fragment.optionals_map hbody fun targets => rfl]
      · simp only [Fragment.entry_add, List.map_cons, State.relocate, Fragment.copies_map hbody]
  | backref index => rfl
  | empty => rfl
  | anchor kind => rfl
  | _ => exact congrArg (· :: []) (State.relocate_consume d n _ next).symm
termination_by structural t

theorem sequence_raise (o : Options) (n d : Nat) (ts : List Expr) (base next : Nat) :
    sequence o (raiseAll n ts) (base + d) (next + d) =
      (sequence o ts base next).map (State.relocate d n) := by
  cases ts with
  | nil => rfl
  | cons t ts =>
    rw [raiseAll, sequence, sequence, List.map_append, isEmpty_raiseAll, stateCount_raise,
      Nat.add_right_comm base d, Fragment.entry_add, fragment_raise o n d t,
      sequence_raise o n d ts]
termination_by structural ts

theorem choices_raise (o : Options) (n d : Nat) (ts : List Expr) (base next : Nat) :
    choices o (raiseAll n ts) (base + d) (next + d) =
      (choices o ts base next).map (State.relocate d n) := by
  cases ts with
  | nil => rfl
  | cons t ts =>
    rw [raiseAll, choices, choices, List.map_append, stateCount_raise, Nat.add_right_comm base d,
      fragment_raise o n d t, choices_raise o n d ts]
termination_by structural ts

end

end Expr

end PosixRegex
