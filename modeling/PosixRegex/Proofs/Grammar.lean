import Mathlib.Data.Set.Basic
import PosixRegex.Proofs.Orderly

/-!
# The grammar of patterns

Which texts are extended regular expressions, and which trees they stand for. The grammar says what
is written in front of, between and behind the parts of a tree. What it leaves open is said of the
tree as a whole: which numbers its groups have, how deep they nest, and which of them its
back-references may name.

- `Grammar.Expression`: a text is an expression that stands for a tree.
- `Expr.groupIndices`, `Expr.nesting`, `Expr.RefersBack`: the numbers of the groups, their depth,
  and back-references to groups that are closed.
- `Expr.Fits`: the three of them for a tree that is read in the middle of a pattern.
-/

namespace PosixRegex

namespace Expr

mutual

/-- The numbers of the groups of a tree, in the order of their opening parentheses. -/
def groupIndices : Expr → List Nat
  | group index body => index :: body.groupIndices
  | concat items => groupIndicesAll items
  | alternation branches => groupIndicesAll branches
  | loop body _ _ => body.groupIndices
  | _ => []
termination_by structural t => t

/-- The numbers of the groups of several trees. -/
def groupIndicesAll : List Expr → List Nat
  | [] => []
  | t :: ts => t.groupIndices ++ groupIndicesAll ts
termination_by structural ts => ts

end

mutual

/-- How many groups of a tree are inside each other. -/
def nesting : Expr → Nat
  | group _ body => body.nesting + 1
  | concat items => nestingAll items
  | alternation branches => nestingAll branches
  | loop body _ _ => body.nesting
  | _ => 0
termination_by structural t => t

/-- The deepest nesting in several trees. -/
def nestingAll : List Expr → Nat
  | [] => 0
  | t :: ts => max t.nesting (nestingAll ts)
termination_by structural ts => ts

end

mutual

/-- Each back-reference in a tree names a group that is closed where it stands: one of those closed
before the tree, or one that lies in the tree as a whole before the reference. -/
def RefersBack : Expr → (closed : Set Nat) → Prop
  | backref index, closed => index ∈ closed
  | group _ body, closed => body.RefersBack closed
  | concat items, closed => RefersBackAll items closed
  | alternation branches, closed => RefersBackAll branches closed
  | loop body _ _, closed => body.RefersBack closed
  | _, _ => True
termination_by structural t => t

/-- The groups of each of several trees are closed for the trees after it. -/
def RefersBackAll : List Expr → (closed : Set Nat) → Prop
  | [], _ => True
  | t :: ts, closed =>
    t.RefersBack closed ∧ RefersBackAll ts (closed ∪ {index | index ∈ t.groupIndices})
termination_by structural ts => ts

end

mutual

/-- A tree has as many numbers as groups. -/
theorem length_groupIndices (t : Expr) : t.groupIndices.length = t.groupCount := by
  cases t with
  | concat items => exact length_groupIndicesAll items
  | alternation branches => exact length_groupIndicesAll branches
  | loop body min max => exact length_groupIndices body
  | group index body =>
    rw [groupIndices, groupCount, List.length_cons, length_groupIndices body, Nat.add_comm]
  | _ => rfl
termination_by structural t

theorem length_groupIndicesAll (ts : List Expr) :
    (groupIndicesAll ts).length = groupCountAll ts := by
  cases ts with
  | nil => rfl
  | cons t ts =>
    rw [groupIndicesAll, groupCountAll, List.length_append, length_groupIndices t,
      length_groupIndicesAll ts]
termination_by structural ts

end

theorem groupCount_ofItems (ts : List Expr) : (ofItems ts).groupCount = groupCountAll ts := by
  match ts with
  | [] => rfl
  | [t] => exact (Nat.add_zero _).symm
  | _ :: _ :: _ => rfl

theorem groupCount_ofBranches (ts : List Expr) : (ofBranches ts).groupCount = groupCountAll ts := by
  match ts with
  | [] => rfl
  | [t] => exact (Nat.add_zero _).symm
  | _ :: _ :: _ => rfl

/-- What the grammar leaves open about a tree that is read where some groups have been opened and
closed before: the next group has the number `next`, and groups may still nest so many levels
deep. -/
structure Fits (t : Expr) (next levels : Nat) (closed : Set Nat) : Prop where
  /-- The groups have the numbers that follow, in the order of their opening parentheses. -/
  numbered : t.groupIndices = List.range' next t.groupCount
  /-- The groups do not nest too deep. -/
  nesting_le : t.nesting ≤ levels
  /-- Back-references name closed groups. -/
  refersBack : t.RefersBack closed

namespace Fits

variable {t body : Expr} {ts us : List Expr} {index next levels : Nat} {closed : Set Nat}

/-- A tree without groups and back-references fits anywhere. -/
theorem of_isLeaf (h : t.isLeaf = true) : t.Fits next levels closed := by
  cases t with
  | literal | any | set | named => exact ⟨rfl, Nat.zero_le _, trivial⟩
  | _ => exact absurd h Bool.false_ne_true

theorem of_anchor (kind : Anchor) : (anchor kind).Fits next levels closed :=
  ⟨rfl, Nat.zero_le _, trivial⟩

theorem nil : (concat []).Fits next levels closed := ⟨rfl, Nat.zero_le _, trivial⟩

/-- Trees fit one after the other. -/
theorem cons_iff : (concat (t :: ts)).Fits next levels closed ↔
    t.Fits next levels closed ∧
      (concat ts).Fits (next + t.groupCount) levels
        (closed ∪ {index | index ∈ t.groupIndices}) := by
  have hlength := length_groupIndices t
  constructor
  · rintro ⟨hnumbered, hnesting, hrefers⟩
    simp only [groupIndices, groupIndicesAll, groupCount, groupCountAll,
      ← List.range'_append_1] at hnumbered
    obtain ⟨ht, hts⟩ := List.append_inj hnumbered (by rw [hlength, List.length_range'])
    simp only [nesting, nestingAll, Nat.max_le] at hnesting
    exact ⟨⟨ht, hnesting.1, hrefers.1⟩, ⟨hts, hnesting.2, hrefers.2⟩⟩
  · rintro ⟨ht, hts⟩
    refine ⟨?_, Nat.max_le.2 ⟨ht.nesting_le, hts.nesting_le⟩, ht.refersBack, hts.refersBack⟩
    have := hts.numbered
    simp only [groupIndices, groupIndicesAll, groupCount, groupCountAll] at this ⊢
    rw [← List.range'_append_1, ht.numbered, this]

/-- Trees fit behind others when they have the numbers behind those of the others. -/
theorem append_iff : (concat (ts ++ us)).Fits next levels closed ↔
    (concat ts).Fits next levels closed ∧
      (concat us).Fits (next + groupCountAll ts) levels
        (closed ∪ {index | index ∈ groupIndicesAll ts}) := by
  induction ts generalizing next closed with
  | nil => simp [groupCountAll, groupIndicesAll, Fits.nil]
  | cons t ts ih =>
    -- Behind the first tree and the others the same groups are closed as behind all of them.
    have hclosed : closed ∪ {index | index ∈ t.groupIndices} ∪
          {index | index ∈ groupIndicesAll ts} =
        closed ∪ {index | index ∈ groupIndicesAll (t :: ts)} := by
      rw [Set.union_assoc]
      congr 1
      ext index
      exact List.mem_append.symm
    rw [List.cons_append, cons_iff, ih, cons_iff, and_assoc, hclosed, groupCountAll, Nat.add_assoc]

/-- A group takes the next number, and its body fits one level below. -/
theorem group_iff : (group index body).Fits next (levels + 1) closed ↔
    index = next ∧ body.Fits (next + 1) levels closed := by
  constructor
  · rintro ⟨hnumbered, hnesting, hrefers⟩
    rw [groupIndices, groupCount, Nat.add_comm, List.range'_succ, List.cons.injEq] at hnumbered
    exact ⟨hnumbered.1, hnumbered.2, Nat.le_of_succ_le_succ hnesting, hrefers⟩
  · rintro ⟨rfl, hbody⟩
    refine ⟨?_, Nat.succ_le_succ hbody.nesting_le, hbody.refersBack⟩
    rw [groupIndices, groupCount, Nat.add_comm, List.range'_succ, hbody.numbered]

theorem not_group : ¬ (group index body).Fits next 0 closed :=
  fun h => Nat.not_succ_le_zero _ h.nesting_le

theorem loop_iff {min : Nat} {max : Option Nat} :
    (loop body min max).Fits next levels closed ↔ body.Fits next levels closed :=
  ⟨fun h => ⟨h.numbered, h.nesting_le, h.refersBack⟩,
    fun h => ⟨h.numbered, h.nesting_le, h.refersBack⟩⟩

/-- Branches fit as the parts of a sequence do: the groups of one are closed for the next. -/
theorem alternation_iff :
    (alternation ts).Fits next levels closed ↔ (concat ts).Fits next levels closed :=
  ⟨fun h => ⟨h.numbered, h.nesting_le, h.refersBack⟩,
    fun h => ⟨h.numbered, h.nesting_le, h.refersBack⟩⟩

theorem ofItems_iff :
    (ofItems ts).Fits next levels closed ↔ (concat ts).Fits next levels closed := by
  match ts with
  | [] => exact ⟨fun _ => nil, fun _ => ⟨rfl, Nat.zero_le _, trivial⟩⟩
  | [t] => exact ⟨fun h => cons_iff.2 ⟨h, nil⟩, fun h => (cons_iff.1 h).1⟩
  | _ :: _ :: _ => exact Iff.rfl

theorem ofBranches_iff :
    (ofBranches ts).Fits next levels closed ↔ (concat ts).Fits next levels closed := by
  match ts with
  | [] => exact alternation_iff
  | [t] => exact ⟨fun h => cons_iff.2 ⟨h, nil⟩, fun h => (cons_iff.1 h).1⟩
  | _ :: _ :: _ => exact alternation_iff

end Fits

end Expr

/-! ### The grammar -/

namespace Grammar

/-- The bytes that do not stand for themselves. -/
def special : List UInt8 :=
  ['(', ')', '*', '+', '?', '\x7b', '[', '\\', '|', '.', '^', '$'].map Char.toUInt8

/-- The number that digits spell behind a number that is spelled already. -/
def decimal (n : Nat) (digits : List UInt8) : Nat :=
  digits.foldl (fun n b => n * 10 + (b - '0'.toUInt8).toNat) n

/-- A count in decimal digits. -/
structure Count (w : List UInt8) (n : Nat) : Prop where
  /-- There is a digit. -/
  ne_nil : w ≠ []
  /-- There are only digits. -/
  isDigit : ∀ b ∈ w, Byte.isDigit b = true
  /-- They spell the count. -/
  decimal_eq : decimal 0 w = n
  /-- The count is not too large. -/
  le : n ≤ 255

/-- A count that may be missing. -/
inductive Bound : List UInt8 → Option Nat → Prop
  | missing : Bound [] none
  | given {w : List UInt8} {n : Nat} : Count w n → Bound w (some n)

/-- An interval behind its opening brace, with the least and the greatest number of passes: one
count for both, or bounds on the two sides of a comma, where a missing lower bound is zero. -/
inductive Interval : List UInt8 → (min : Nat) → (max : Option Nat) → Prop
  | exactly {w : List UInt8} {n : Nat} : Count w n → Interval (w ++ ['\x7d'.toUInt8]) n (some n)
  | range {u v : List UInt8} {low max : Option Nat} : Bound u low → Bound v max →
      (∀ n ∈ max, low.getD 0 ≤ n) →
      Interval (u ++ ','.toUInt8 :: (v ++ ['\x7d'.toUInt8])) (low.getD 0) max

/-- A quantifier, with the least and the greatest number of passes that it allows. -/
inductive Quantifier : List UInt8 → (min : Nat) → (max : Option Nat) → Prop
  | star : Quantifier ['*'.toUInt8] 0 none
  | plus : Quantifier ['+'.toUInt8] 1 none
  | question : Quantifier ['?'.toUInt8] 0 (some 1)
  | interval {w : List UInt8} {min : Nat} {max : Option Nat} : Interval w min max →
      Quantifier ('\x7b'.toUInt8 :: w) min max

/-- A bracket expression behind its opening bracket: whatever is read as one and leaves nothing. -/
def Bracket (w : List UInt8) (t : Expr) : Prop :=
  Parser.bracket (Parser.ofPattern w) = .ok t (Parser.ofPattern [])

/-- An escape behind its backslash: a byte that is made ordinary, or the number of a group. -/
inductive Escape : List UInt8 → Expr → Prop
  | literal {b : UInt8} : b ∈ escapable → Escape [b] (.literal b)
  | backref {k : Nat} : 1 ≤ k → k ≤ 9 → Escape ['0'.toUInt8 + UInt8.ofNat k] (.backref k)

mutual

/-- An expression: branches, of which one stands for itself. -/
inductive Expression : List UInt8 → Expr → Prop
  | ofBranches {w : List UInt8} {ts : List Expr} : Branches w ts → Expression w (.ofBranches ts)

/-- One or more branches with bars between them. A branch is a sequence of pieces: none is the empty
string, and one stands for itself. -/
inductive Branches : List UInt8 → List Expr → Prop
  | last {w : List UInt8} {ts : List Expr} : Pieces w ts → Branches w [.ofItems ts]
  | bar {u v : List UInt8} {ts us : List Expr} : Pieces u ts → Branches v us →
      Branches (u ++ '|'.toUInt8 :: v) (.ofItems ts :: us)

/-- Any number of pieces. -/
inductive Pieces : List UInt8 → List Expr → Prop
  | nil : Pieces [] []
  | cons {u v : List UInt8} {t : Expr} {ts : List Expr} : Piece u t → Pieces v ts →
      Pieces (u ++ v) (t :: ts)

/-- An atom with at most one quantifier. -/
inductive Piece : List UInt8 → Expr → Prop
  | once {w : List UInt8} {t : Expr} : Atom w t → Piece w t
  | repeated {u v : List UInt8} {t : Expr} {min : Nat} {max : Option Nat} : Atom u t →
      Quantifier v min max → Piece (u ++ v) (.loop t min max)

/-- An atom. The number of a group is not written. -/
inductive Atom : List UInt8 → Expr → Prop
  | group {w : List UInt8} {t : Expr} (index : Nat) : Expression w t →
      Atom ('('.toUInt8 :: (w ++ [')'.toUInt8])) (.group index t)
  | bracket {w : List UInt8} {t : Expr} : Bracket w t → Atom ('['.toUInt8 :: w) t
  | escape {w : List UInt8} {t : Expr} : Escape w t → Atom ('\\'.toUInt8 :: w) t
  | any : Atom ['.'.toUInt8] .any
  | lineStart : Atom ['^'.toUInt8] (.anchor .lineStart)
  | lineEnd : Atom ['$'.toUInt8] (.anchor .lineEnd)
  | literal {b : UInt8} : b ∉ special → Atom [b] (.literal b)

end

end Grammar

end PosixRegex
